import Lox.Proofs.Source.Joined
import Lox.Proofs.Source.Tiling

/-!
The tokens of a text written out again with single blanks between them. Each one is cut off in front
of a blank as it was in its text, so the new text holds the same tokens at other lines.
-/

namespace Lox.Source

/-- The lexemes of tokens, joined by single blanks. -/
def spaced (ts : List Token) : String := " ".intercalate (ts.map Token.lexeme)

/-! ### Tokens in front of blanks -/

theorem tiles_blanks {ps : List Piece} (h : ∀ p ∈ ps, p = .blank ' ') :
    Tiles ps (ps.flatMap Piece.text) ∧ ∀ c ∈ (ps.flatMap Piece.text).head?, c = ' ' := by
  induction ps with
  | nil => exact ⟨.nil, fun c hc => by cases hc⟩
  | cons p ps ih =>
      obtain rfl := h p List.mem_cons_self
      have htiles := (ih fun q hq => h q (List.mem_cons_of_mem _ hq)).1
      exact ⟨.cons (.blank List.mem_cons_self) htiles, fun c hc => by cases hc; rfl⟩

/-- Tokens tile a text in which blanks keep them apart. -/
theorem tiles_interspersed {qs blanks : List Piece}
    (hq : ∀ q ∈ qs, q.isToken = true ∧ ∃ behind, Fits q behind) (hb : ∀ p ∈ blanks, p = .blank ' ') :
    Tiles (qs.intersperse (.blank ' ') ++ blanks)
      ((qs.intersperse (.blank ' ') ++ blanks).flatMap Piece.text) := by
  have hfits {q : Piece} {after : List Char} (hq : q.isToken = true ∧ ∃ behind, Fits q behind)
      (ha : ∀ c ∈ after.head?, c = ' ') : Fits q after := by
    obtain ⟨htoken, behind, h⟩ := hq
    cases q with
    | token kind lexeme => exact h.in_front rfl fun d hd => .inr (.inr ⟨ha d hd, rfl⟩)
    | _ => cases htoken
  induction qs with
  | nil => exact (tiles_blanks hb).1
  | cons q qs ih =>
      have hq' := hq q List.mem_cons_self
      have htiles := ih fun r hr => hq r (List.mem_cons_of_mem q hr)
      cases qs with
      | nil => exact .cons (hfits hq' (tiles_blanks hb).2) (tiles_blanks hb).1
      | cons r qs =>
          rw [List.intersperse_cons_cons]
          refine .cons (hfits hq' fun c hc => ?_) (.cons (.blank List.mem_cons_self) htiles)
          cases hc
          rfl

/-! ### Lines -/

def Item.line : Item → Nat
  | .token t => t.line
  | .fault f => f.line

theorem Item.relined_congr {f g : Nat → Nat} {i : Item} (h : f i.line = g i.line) :
    i.relined f = i.relined g := by
  cases i with
  | token t => exact congrArg (fun l => Item.token ⟨t.kind, t.lexeme, l⟩) h
  | fault e => exact congrArg (fun l => Item.fault ⟨l, e.cause⟩) h

theorem line_of_item? {p : Piece} {l : Nat} {i : Item} (h : i ∈ p.item? l) : i.line = l := by
  cases p with
  | blank _ | comment _ => cases h
  | token _ _ | unexpected _ | malformed _ | unterminated _ => cases h; rfl

theorem le_line_of_mem {i : Item} {ps : List Piece} {line : Nat} (h : i ∈ itemsFrom line ps) :
    line ≤ i.line := by
  induction ps generalizing line with
  | nil => cases h
  | cons p ps ih =>
      rw [itemsFrom, List.mem_append, Option.mem_toList] at h
      rcases h with h | h
      · rw [line_of_item? h]
        exact Nat.le_add_right _ _
      · exact Nat.le_trans (Nat.le_add_right _ _) (ih h)

theorem le_lineBehind (line : Nat) (ps : List Piece) : line ≤ lineBehind line ps := by
  rw [lineBehind_eq]
  exact Nat.le_add_right _ _

/-- What stands on one line stays on one line when blanks and comments are left out. -/
theorem exists_relined {ps : List Piece} (h : ∀ p ∈ ps, p.isToken = true ∨ ∀ l, p.item? l = none)
    (line line' : Nat) : ∃ f : Nat → Nat, f line = line' ∧
      itemsFrom line' (ps.filter Piece.isToken) = (itemsFrom line ps).map (Item.relined f) ∧
      lineBehind line' (ps.filter Piece.isToken) = f (lineBehind line ps) := by
  induction ps generalizing line line' with
  | nil => exact ⟨fun _ => line', rfl, rfl, rfl⟩
  | cons p ps ih =>
      let next := if p.isToken then line' + p.newlines else line'
      obtain ⟨g, hg, hitems, hbehind⟩ :=
        ih (fun q hq => h q (List.mem_cons_of_mem p hq)) (line + p.newlines) next
      -- nothing stands on the lines that the piece reaches over
      let f (n : Nat) := if n < line + p.newlines then line' else g n
      have hf {n : Nat} (hn : line + p.newlines ≤ n) : f n = g n := if_neg (Nat.not_lt.mpr hn)
      have hline : f line = line' := by
        by_cases hn : p.newlines = 0
        · rw [hf (by omega), show line = line + p.newlines by omega, hg]
          simp only [next, hn, Nat.add_zero, ite_self]
        · exact if_pos (by omega)
      have hmap : (itemsFrom (line + p.newlines) ps).map (Item.relined f) =
          (itemsFrom (line + p.newlines) ps).map (Item.relined g) :=
        List.map_congr_left fun i hi => Item.relined_congr (hf (le_line_of_mem hi))
      refine ⟨f, hline, ?_⟩
      rw [itemsFrom, lineBehind, List.map_append, hmap, ← hitems, hf (le_lineBehind _ ps), ← hbehind]
      rcases h p List.mem_cons_self with hp | hp
      · have hnext : f (line + p.newlines) = line' + p.newlines := by
          rw [hf (Nat.le_refl _), hg]
          exact if_pos hp
        cases p with
        | token kind lexeme =>
            rw [List.filter_cons_of_pos hp, itemsFrom, lineBehind, ← hnext]
            simp only [next, if_pos hp, ← hnext]
            exact ⟨rfl, trivial⟩
        | _ => cases hp
      · have htoken : p.isToken = false := by
          cases p with
          | token kind lexeme => cases hp 0
          | _ => rfl
        rw [List.filter_cons_of_neg (by simp [htoken]), hp]
        simp only [next, htoken]
        exact ⟨rfl, rfl⟩

/-! ### The same tokens -/

theorem itemsFrom_interspersed (qs : List Piece) {blanks : List Piece}
    (hb : ∀ p ∈ blanks, p = .blank ' ') (line : Nat) :
    itemsFrom line (qs.intersperse (.blank ' ') ++ blanks) = itemsFrom line qs ∧
      lineBehind line (qs.intersperse (.blank ' ') ++ blanks) = lineBehind line qs := by
  have hblanks (line : Nat) : itemsFrom line blanks = [] ∧ lineBehind line blanks = line := by
    induction blanks generalizing line with
    | nil => exact ⟨rfl, rfl⟩
    | cons p ps ih =>
        obtain rfl := hb p List.mem_cons_self
        exact ih (fun q hq => hb q (List.mem_cons_of_mem _ hq)) line
  induction qs generalizing line with
  | nil => exact hblanks line
  | cons q qs ih =>
      cases qs with
      | nil =>
          obtain ⟨hitems, hline⟩ := hblanks (line + q.newlines)
          exact ⟨congrArg (_ ++ ·) hitems, hline⟩
      | cons r qs =>
          obtain ⟨hitems, hline⟩ := ih (line + q.newlines)
          exact ⟨congrArg (_ ++ ·) hitems, hline⟩

theorem flatMap_intersperse (qs : List Piece) :
    (qs.intersperse (.blank ' ')).flatMap Piece.text = [' '].intercalate (qs.map Piece.text) := by
  induction qs with
  | nil => rfl
  | cons q qs ih =>
      cases qs with
      | nil => rfl
      | cons r qs =>
          rw [List.intersperse_cons_cons, List.flatMap_cons, List.flatMap_cons, ih]
          simp [List.intercalate, Piece.text]

/-- The pieces of a text that are tokens. -/
def tokenPieces (source : String) : List Piece := (pieces source.toList).filter Piece.isToken

theorem map_lexeme_itemsFrom (ps : List Piece) (line : Nat) :
    (((itemsFrom line ps).filterMap Item.token?).map fun t => t.lexeme.toList) =
      (ps.filter Piece.isToken).map Piece.text := by
  induction ps generalizing line with
  | nil => rfl
  | cons p ps ih =>
      rw [itemsFrom, List.filterMap_append, List.map_append, ih, List.filter_cons]
      cases p with
      | token kind lexeme => exact congrArg (· :: _) String.toList_ofList
      | _ => rfl

theorem toList_spaced_heldTokens (source : String) : (spaced (heldTokens source)).toList =
    ((tokenPieces source).intersperse (.blank ' ')).flatMap Piece.text := by
  rw [spaced, String.toList_intercalate, List.map_map, flatMap_intersperse, tokenPieces,
    ← map_lexeme_itemsFrom _ 1]
  rfl

/-- Behind the last lexeme there may be one more blank: the end mark is a token without text. -/
theorem exists_blanks {source respaced : String}
    (h : respaced = spaced (tokens source) ∨ respaced = spaced (heldTokens source)) :
    ∃ blanks : List Piece, (∀ p ∈ blanks, p = .blank ' ') ∧ respaced.toList =
      ((tokenPieces source).intersperse (.blank ' ') ++ blanks).flatMap Piece.text := by
  have hheld : ∃ blanks : List Piece, (∀ p ∈ blanks, p = .blank ' ') ∧
      (spaced (heldTokens source)).toList =
        ((tokenPieces source).intersperse (.blank ' ') ++ blanks).flatMap Piece.text :=
    ⟨[], fun _ => nofun, by rw [List.append_nil, toList_spaced_heldTokens]⟩
  rcases h with rfl | rfl
  · by_cases hnil : heldTokens source = []
    · rwa [spaced, tokens_eq, hnil, List.nil_append, List.map_singleton,
        String.intercalate_singleton, ← String.intercalate_nil, ← List.map_nil, ← spaced, ← hnil]
    · refine ⟨[.blank ' '], fun p hp => List.mem_singleton.mp hp, ?_⟩
      have hlexemes : (heldTokens source).map Token.lexeme ≠ [] := fun h =>
        hnil (List.map_eq_nil_iff.mp h)
      rw [List.flatMap_append, ← toList_spaced_heldTokens, spaced, tokens_eq, List.map_append,
        List.map_singleton, String.intercalate_append_of_ne_nil hlexemes (List.cons_ne_nil _ _)]
      simp [spaced, Piece.text]
  · exact hheld

theorem pieces_respaced {source respaced : String}
    (h : respaced = spaced (tokens source) ∨ respaced = spaced (heldTokens source)) :
    ∃ blanks : List Piece, (∀ p ∈ blanks, p = .blank ' ') ∧
      pieces respaced.toList = (tokenPieces source).intersperse (.blank ' ') ++ blanks := by
  obtain ⟨blanks, hb, htext⟩ := exists_blanks h
  refine ⟨blanks, hb, tiles_iff.mp (htext ▸ tiles_interspersed (fun q hq => ?_) hb)⟩
  obtain ⟨hmem, htoken⟩ := List.mem_filter.mp hq
  exact ⟨htoken, fits_of_mem (tiles_pieces source.toList) hmem⟩

/-- A text without faults and its lexemes joined by single blanks hold the same, at lines that go
with the lines of the text. -/
theorem items_respaced {source respaced : String} (hf : faults source = [])
    (h : respaced = spaced (tokens source) ∨ respaced = spaced (heldTokens source)) :
    ∃ f : Nat → Nat, items respaced = (items source).map (Item.relined f) := by
  obtain ⟨blanks, hb, hpieces⟩ := pieces_respaced h
  obtain ⟨hitems, hline⟩ := itemsFrom_interspersed (tokenPieces source) hb 1
  obtain ⟨f, -, hrelined, hbehind⟩ :=
    exists_relined (fun p hp => holds_of_faultless hf hp) 1 1
  refine ⟨f, ?_⟩
  rw [items_eq, items_eq, hpieces, hitems, hline, tokenPieces, hrelined, hbehind, List.map_append]
  rfl

theorem tokens_respaced {source respaced : String} (hf : faults source = [])
    (h : respaced = spaced (tokens source) ∨ respaced = spaced (heldTokens source)) :
    faults respaced = [] ∧
      ∃ f : Nat → Nat, tokens respaced = (tokens source).map (Token.relined f) := by
  obtain ⟨f, hitems⟩ := items_respaced hf h
  refine ⟨?_, f, ?_⟩
  · rw [faults, hitems, filterMap_fault?_relined, ← faults, hf, List.map_nil]
  · rw [tokens, hitems, filterMap_token?_relined]
    rfl

end Lox.Source
