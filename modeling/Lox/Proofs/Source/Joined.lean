import Lox.Proofs.Copy.Tree
import Lox.Proofs.Source.Tiling
import Lox.Source.Item

/-!
Source texts joined at a line break. No piece but a string reaches over the end of its line, so a
text without an open string is cut behind a line break as it is cut alone, and what follows the break
stands at later lines.
-/

namespace Lox.Source

/-! ### Pieces -/

/-- Behind a line break the pieces are those of the text there, unless a string is open. -/
theorem tiles_append (after : List Char) {ps : List Piece} {text : List Char} (h : Tiles ps text)
    (hu : ∀ p ∈ ps, p.isUnterminated = false) :
    Tiles (ps ++ .blank '\n' :: pieces after) (text ++ '\n' :: after) := by
  induction h with
  | nil => exact .cons (.blank (by decide)) (tiles_pieces after)
  | @cons p ps behind h _ ih =>
      rw [List.append_assoc]
      refine .cons (h.in_front (hu p List.mem_cons_self) fun c hc => ?_)
        (ih fun q hq => hu q (List.mem_cons_of_mem p hq))
      cases behind with
      | nil => cases hc; exact .inr (.inl rfl)
      | cons d behind => exact .inl hc

theorem pieces_append (after text : List Char) (h : ∀ p ∈ pieces text, p.isUnterminated = false) :
    pieces (text ++ '\n' :: after) = pieces text ++ .blank '\n' :: pieces after :=
  tiles_iff.mp (tiles_append after (tiles_pieces text) h)

/-! ### Items -/

/-- The items of pieces that start at a line. -/
def itemsFrom : Nat → List Piece → List Item
  | _, [] => []
  | line, p :: ps => (p.item? (line + p.newlines)).toList ++ itemsFrom (line + p.newlines) ps

/-- The line on which pieces end that start at a line. -/
def lineBehind : Nat → List Piece → Nat
  | line, [] => line
  | line, p :: ps => lineBehind (line + p.newlines) ps

theorem foldl_add (ps : List Piece) (line : Nat) (met : List Item) :
    ps.foldl Progress.add ⟨line, met⟩ =
      ⟨lineBehind line ps, (itemsFrom line ps).reverse ++ met⟩ := by
  induction ps generalizing line met with
  | nil => rfl
  | cons p ps ih =>
      rw [List.foldl_cons, itemsFrom, Progress.add]
      cases p.item? (line + p.newlines) with
      | none => simp [ih, lineBehind]
      | some i => simp [ih, lineBehind]

theorem items_eq (source : String) : items source = itemsFrom 1 (pieces source.toList) ++
    [.token ⟨.eof, "", lineBehind 1 (pieces source.toList)⟩] := by
  rw [items, foldl_add]
  simp [Progress.items]

def Item.relined (f : Nat → Nat) : Item → Item
  | .token t => .token (t.relined f)
  | .fault e => .fault (e.relined f)

theorem filterMap_token?_relined (is : List Item) (f : Nat → Nat) :
    (is.map (Item.relined f)).filterMap Item.token? =
      (is.filterMap Item.token?).map (Token.relined f) := by
  rw [List.filterMap_map, List.map_filterMap]
  exact congrArg (List.filterMap · is) (funext fun i => by cases i <;> rfl)

theorem filterMap_fault?_relined (is : List Item) (f : Nat → Nat) :
    (is.map (Item.relined f)).filterMap Item.fault? =
      (is.filterMap Item.fault?).map (Fault.relined f) := by
  rw [List.filterMap_map, List.map_filterMap]
  exact congrArg (List.filterMap · is) (funext fun i => by cases i <;> rfl)

theorem Piece.item?_add (p : Piece) (line n : Nat) :
    p.item? (line + n) = (p.item? line).map (Item.relined (· + n)) := by
  cases p <;> rfl

theorem itemsFrom_add (ps : List Piece) (line n : Nat) :
    itemsFrom (line + n) ps = (itemsFrom line ps).map (Item.relined (· + n)) := by
  induction ps generalizing line with
  | nil => rfl
  | cons p ps ih =>
      rw [itemsFrom, itemsFrom, Nat.add_right_comm, p.item?_add, ih, List.map_append]
      cases p.item? (line + p.newlines) <;> rfl

theorem itemsFrom_append (ps qs : List Piece) (line : Nat) :
    itemsFrom line (ps ++ qs) = itemsFrom line ps ++ itemsFrom (lineBehind line ps) qs := by
  induction ps generalizing line with
  | nil => rfl
  | cons p ps ih =>
      rw [List.cons_append, itemsFrom, itemsFrom, ih, List.append_assoc, lineBehind]

theorem lineBehind_eq (ps : List Piece) (line : Nat) :
    lineBehind line ps = line + (ps.flatMap Piece.text).count '\n' := by
  induction ps generalizing line with
  | nil => rfl
  | cons p ps ih =>
      rw [lineBehind, ih, List.flatMap_cons, List.count_append, Piece.newlines, Nat.add_assoc]

theorem lineBehind_pieces (line : Nat) (text : List Char) :
    lineBehind line (pieces text) = line + text.count '\n' := by
  rw [lineBehind_eq, flatMap_text_pieces]

/-- How many lines further on a text stands behind another one and a line break. -/
def linesBefore (a : String) : Nat := 1 + a.toList.count '\n'

/-- The items of a text without its end mark. -/
def held (source : String) : List Item := itemsFrom 1 (pieces source.toList)

/-- Joined texts hold what the texts hold, the second one at later lines. -/
theorem items_joined {a : String} (b : String)
    (h : ∀ p ∈ pieces a.toList, p.isUnterminated = false) :
    items (a ++ "\n" ++ b) = held a ++ (items b).map (Item.relined (· + linesBefore a)) := by
  have htext : (a ++ "\n" ++ b).toList = a.toList ++ '\n' :: b.toList := by simp
  have hline : lineBehind 1 (pieces a.toList) + 1 = 1 + linesBefore a := by
    rw [lineBehind_pieces, linesBefore]
    omega
  have hend : lineBehind 1 (pieces (a.toList ++ '\n' :: b.toList)) =
      lineBehind 1 (pieces b.toList) + linesBefore a := by
    rw [lineBehind_pieces, lineBehind_pieces, linesBefore, List.count_append, List.count_cons_self]
    omega
  rw [items_eq, items_eq b, htext, hend, pieces_append b.toList a.toList h, itemsFrom_append,
    held, List.map_append, List.append_assoc]
  have hblank : itemsFrom (lineBehind 1 (pieces a.toList)) (.blank '\n' :: pieces b.toList) =
      (itemsFrom 1 (pieces b.toList)).map (Item.relined (· + linesBefore a)) := by
    rw [← itemsFrom_add, ← hline]
    rfl
  rw [hblank]
  rfl

/-! ### Tokens and faults -/

/-- What a piece holds is among the items. -/
theorem item_mem_of_mem {p : Piece} {ps : List Piece} (hp : p ∈ ps) (line : Nat) :
    ∃ l, ∀ i ∈ p.item? l, i ∈ itemsFrom line ps := by
  induction ps generalizing line with
  | nil => cases hp
  | cons q ps ih =>
      rw [itemsFrom]
      cases hp with
      | head => exact ⟨_, fun i hi => List.mem_append_left _ (Option.mem_toList.mpr hi)⟩
      | tail _ hp =>
          obtain ⟨l, hl⟩ := ih hp (line + q.newlines)
          exact ⟨l, fun i hi => List.mem_append_right _ (hl i hi)⟩

/-- Where there is no fault, every piece is a token, a blank or a comment. -/
theorem holds_of_faultless {source : String} (h : faults source = []) {p : Piece}
    (hp : p ∈ pieces source.toList) : p.isToken = true ∨ ∀ l, p.item? l = none := by
  obtain ⟨l, hl⟩ := item_mem_of_mem hp 1
  have hno (f : Fault LexCause) : .fault f ∉ p.item? l := fun hf => by
    have hmem : f ∈ faults source :=
      List.mem_filterMap.mpr ⟨_, by rw [items_eq]; exact List.mem_append_left _ (hl _ hf), rfl⟩
    rw [h] at hmem
    cases hmem
  cases p with
  | token kind lexeme => exact .inl rfl
  | blank c | comment body => exact .inr fun _ => rfl
  | unexpected run | malformed run | unterminated body => exact absurd rfl (hno _)

/-- The tokens of a text without its end mark. -/
def heldTokens (source : String) : List Token := (held source).filterMap Item.token?

theorem tokens_eq (source : String) :
    tokens source = heldTokens source ++ [⟨.eof, "", 1 + source.toList.count '\n'⟩] := by
  rw [tokens, items_eq, List.filterMap_append, lineBehind_pieces]
  rfl

/-- The end mark is there, whatever else is. -/
theorem tokens_ne_nil (source : String) : tokens source ≠ [] := by
  rw [tokens_eq]
  exact List.append_ne_nil_of_right_ne_nil _ (List.cons_ne_nil _ _)

theorem cut_ne_end (c : Char) (rest lexeme : List Char) : (cut c rest).1 ≠ .token .eof lexeme := by
  unfold cut cutString cutNumber cutWord wordKind cutSymbol cutUnexpected
  grind

theorem end_not_mem_pieces (lexeme : List Char) :
    (text : List Char) → .token .eof lexeme ∉ pieces text
  | [] => by simp
  | c :: rest => by
      rw [pieces_cons, List.mem_cons, not_or]
      exact ⟨(cut_ne_end c rest lexeme).symm, end_not_mem_pieces lexeme (cut c rest).2⟩
termination_by text => text.length
decreasing_by have := length_cut_le c rest; simp only [List.length_cons]; omega

theorem piece_of_token {t : Token} {ps : List Piece} {line : Nat}
    (h : .token t ∈ itemsFrom line ps) : .token t.kind t.lexeme.toList ∈ ps := by
  induction ps generalizing line with
  | nil => cases h
  | cons p ps ih =>
      rcases List.mem_append.mp h with h | h
      · cases p with
        | token kind lexeme =>
            cases List.mem_singleton.mp h
            rw [String.toList_ofList]
            exact List.mem_cons_self
        | blank _ | comment _ => cases h
        | unexpected _ | malformed _ | unterminated _ => cases List.mem_singleton.mp h
      · exact List.mem_cons_of_mem _ (ih h)

/-- No other token is an end mark. -/
theorem kind_ne_eof {source : String} {t : Token} (ht : t ∈ heldTokens source) :
    t.kind ≠ .eof := by
  obtain ⟨i, hi, hit⟩ := List.mem_filterMap.mp ht
  cases i with
  | fault => cases hit
  | token u =>
      cases hit
      have hmem := piece_of_token hi
      intro hk
      rw [hk] at hmem
      exact end_not_mem_pieces _ _ hmem

section

variable {a : String} (b : String) (h : faults a = [])

include h

theorem items_joined_of_faultless :
    items (a ++ "\n" ++ b) = held a ++ (items b).map (Item.relined (· + linesBefore a)) := by
  refine items_joined b fun p hp => ?_
  cases p with
  | unterminated body =>
      rcases holds_of_faultless h hp with h | h
      · cases h
      · cases h 0
  | _ => rfl

theorem tokens_joined : tokens (a ++ "\n" ++ b) =
    heldTokens a ++ (tokens b).map (Token.relined (· + linesBefore a)) := by
  rw [tokens, items_joined_of_faultless b h, List.filterMap_append, filterMap_token?_relined]
  rfl

/-- The first text is free of faults, so those of the joined text are those of the second one. -/
theorem faults_joined :
    faults (a ++ "\n" ++ b) = (faults b).map (Fault.relined (· + linesBefore a)) := by
  have hheld : (held a).filterMap Item.fault? = [] := by
    rw [faults, items_eq, List.filterMap_append] at h
    exact (List.append_eq_nil_iff.mp h).1
  rw [faults, items_joined_of_faultless b h, List.filterMap_append, hheld, List.nil_append,
    filterMap_fault?_relined]
  rfl

end

end Lox.Source
