import Lox.Proofs.Copy.Onward
import Lox.Proofs.Copy.Pieces
import Lox.Proofs.Grammar.Advance
import Lox.Proofs.Grammar.Closed
import Lox.Proofs.Source.Spaced

/-!
In which order faults of syntax are noted. A reading notes a fault at the token that is next, so it
goes through the lines from the first to the last. The one exception is an assignment without a
name on its left: it is noted at its equal sign when its right side has been read, behind the faults
in there.
-/

namespace Lox.Grammar

/-- Faults noted on the way from the line `start` to the line `stop`. -/
inductive Noted : (start : Nat) → List (Fault SyntaxCause) → (stop : Nat) → Prop
  | nothing {start stop : Nat} (h : start ≤ stop) : Noted start [] stop
  | here (f : Fault SyntaxCause) : Noted f.line [f] f.line
  | further {start line stop : Nat} {fs gs : List (Fault SyntaxCause)} (h : Noted start fs line)
      (h' : Noted line gs stop) : Noted start (fs ++ gs) stop
  /-- An assignment at `start` is noted behind the faults in its right side. -/
  | late {start stop : Nat} {fs : List (Fault SyntaxCause)} (h : Noted start fs stop) :
      Noted start (fs ++ [⟨start, .invalidTarget⟩]) stop

namespace Noted

variable {start stop : Nat} {fs : List (Fault SyntaxCause)} {e f g : Fault SyntaxCause}

theorem le (h : Noted start fs stop) : start ≤ stop := by
  induction h with
  | nothing h => exact h
  | here f => exact Nat.le_refl _
  | further _ _ ih ih' => exact Nat.le_trans ih ih'
  | late _ ih => exact ih

theorem bounds (h : Noted start fs stop) (hf : f ∈ fs) : start ≤ f.line ∧ f.line ≤ stop := by
  induction h with
  | nothing _ => cases hf
  | here g =>
      cases List.mem_singleton.mp hf
      exact ⟨Nat.le_refl _, Nat.le_refl _⟩
  | further h h' ih ih' =>
      rcases List.mem_append.mp hf with hf | hf
      · exact ⟨(ih hf).1, Nat.le_trans (ih hf).2 h'.le⟩
      · exact ⟨Nat.le_trans h.le (ih' hf).1, (ih' hf).2⟩
  | late h ih =>
      rcases List.mem_append.mp hf with hf | hf
      · exact ih hf
      · cases List.mem_singleton.mp hf
        exact ⟨Nat.le_refl _, h.le⟩

/-- Behind all others, only assignments are noted late. -/
theorem pairwise (h : Noted start fs stop) :
    fs.Pairwise fun e f => f.cause ≠ .invalidTarget → e.line ≤ f.line := by
  induction h with
  | nothing _ => exact .nil
  | here f => exact List.pairwise_singleton _ f
  | further h h' ih ih' =>
      refine List.pairwise_append.mpr ⟨ih, ih', fun e he f hf _ => ?_⟩
      exact Nat.le_trans (h.bounds he).2 (h'.bounds hf).1
  | late _ ih =>
      refine List.pairwise_append.mpr ⟨ih, List.pairwise_singleton _ _, fun e _ f hf hc => ?_⟩
      cases List.mem_singleton.mp hf
      exact absurd rfl hc

end Noted

theorem cut_singleton {α : Type} {front back : List α} {a b : α} (h : [b] = front ++ a :: back) :
    front = [] ∧ b = a := by
  cases front with
  | nil => exact ⟨rfl, (List.cons.inj h).1⟩
  | cons c front => simp at h

/-- An entry of appended lists stands in the first one or in the second one. -/
theorem cut_append {α : Type} {xs ys front back : List α} {a : α}
    (h : xs ++ ys = front ++ a :: back) :
    (∃ mid, xs = front ++ a :: mid) ∨ ∃ mid, front = xs ++ mid ∧ ys = mid ++ a :: back := by
  rcases List.append_eq_append_iff.mp h with ⟨mid, hfront, hys⟩ | ⟨mid, hxs, hmid⟩
  · exact .inr ⟨mid, hfront, hys⟩
  · cases mid with
    | nil => exact .inr ⟨[], by simpa using hxs.symm, hmid.symm⟩
    | cons b mid =>
        obtain ⟨rfl, -⟩ := List.cons.inj hmid
        exact .inl ⟨mid, hxs⟩

/-- The faults in front of one are those of earlier places, at lines up to its own, and behind them
those at lines from its own on. Of the latter there are none unless it is noted late. -/
def PlacedBehind (front : List (Fault SyntaxCause)) (f : Fault SyntaxCause) : Prop :=
  ∃ before inside, front = before ++ inside ∧ (∀ e ∈ before, e.line ≤ f.line) ∧
    (∀ e ∈ inside, f.line ≤ e.line) ∧ (f.cause ≠ .invalidTarget → inside = [])

theorem Noted.placedBehind {start stop : Nat} {fs front back : List (Fault SyntaxCause)}
    {f : Fault SyntaxCause} (h : Noted start fs stop) (hfs : fs = front ++ f :: back) :
    PlacedBehind front f := by
  induction h generalizing front back with
  | nothing _ => exact absurd hfs.symm (by simp)
  | here e =>
      obtain ⟨rfl, -⟩ := cut_singleton hfs
      exact ⟨[], [], rfl, List.forall_mem_nil _, List.forall_mem_nil _, fun _ => rfl⟩
  | further h h' ih ih' =>
      rcases cut_append hfs with ⟨mid, hfs⟩ | ⟨mid, rfl, hgs⟩
      · exact ih hfs
      · obtain ⟨before, inside, rfl, hb, hi, hc⟩ := ih' hgs
        refine ⟨_ ++ before, inside, (List.append_assoc ..).symm, fun e he => ?_, hi, hc⟩
        rcases List.mem_append.mp he with he | he
        · exact Nat.le_trans (h.bounds he).2 (h'.bounds (by simp [hgs])).1
        · exact hb e he
  | late h ih =>
      rcases cut_append hfs with ⟨mid, hfs⟩ | ⟨mid, rfl, hone⟩
      · exact ih hfs
      · obtain ⟨rfl, rfl⟩ := cut_singleton hone
        exact ⟨[], _, List.append_nil _, List.forall_mem_nil _, fun e he => (h.bounds he).1,
          fun hc => absurd rfl hc⟩

/-! ### Readings -/

/-- The lines of the tokens ahead and, behind them, that of the end. -/
def State.lines (s : State) : List Nat := s.rest.map Token.line ++ [s.endLine]

def State.InOrder (s : State) : Prop := s.lines.Pairwise (· ≤ ·)

/-- From `s` to `t` faults are noted on the way. -/
structure Passes (s t : State) : Prop where
  rest : t.rest <:+ s.rest
  endLine : t.endLine = s.endLine
  noted : ∃ fs, t.faults.toList = s.faults.toList ++ fs ∧ Noted s.line fs t.line

variable {s t u : State}

theorem State.line_mem (s : State) : s.line ∈ s.lines := by
  rw [State.line, State.lines]
  cases s.rest with
  | nil => exact List.mem_singleton_self _
  | cons x xs => exact List.mem_cons_self

theorem State.InOrder.line_le (h : s.InOrder) {l : Nat} (hl : l ∈ s.lines) : s.line ≤ l := by
  rw [State.InOrder, State.lines] at h
  rw [State.lines] at hl
  rw [State.line]
  cases hr : s.rest with
  | nil =>
      rw [hr] at hl
      exact Nat.le_of_eq (List.mem_singleton.mp hl).symm
  | cons x xs =>
      rw [hr, List.map_cons, List.cons_append] at h hl
      rcases List.mem_cons.mp hl with rfl | hl
      · exact Nat.le_refl _
      · exact List.rel_of_pairwise_cons h hl

theorem lines_suffix (hr : t.rest <:+ s.rest) (he : t.endLine = s.endLine) :
    t.lines <:+ s.lines := by
  obtain ⟨front, hs⟩ := hr
  exact ⟨front.map Token.line, by simp [State.lines, ← hs, he]⟩

/-- Reading on without a fault. -/
theorem Passes.quietly (hs : s.InOrder) (hr : t.rest <:+ s.rest) (he : t.endLine = s.endLine)
    (hf : t.faults = s.faults) : Passes s t :=
  ⟨hr, he, [], by rw [hf, List.append_nil],
    .nothing (hs.line_le ((lines_suffix hr he).subset t.line_mem))⟩

theorem Passes.drop (hs : s.InOrder) (n : Nat) : Passes s (s.drop n) :=
  .quietly hs (List.drop_suffix n s.rest) rfl rfl

theorem Passes.refl (hs : s.InOrder) : Passes s s := .quietly hs (List.suffix_refl _) rfl rfl

theorem Passes.trans (h : Passes s t) (h' : Passes t u) : Passes s u := by
  obtain ⟨fs, hfs, hn⟩ := h.noted
  obtain ⟨gs, hgs, hn'⟩ := h'.noted
  refine ⟨h'.rest.trans h.rest, h'.endLine.trans h.endLine, fs ++ gs, ?_, hn.further hn'⟩
  rw [hgs, hfs, List.append_assoc]

theorem Passes.inOrder (h : Passes s t) (hs : s.InOrder) : t.InOrder :=
  hs.sublist (lines_suffix h.rest h.endLine).sublist

theorem Passes.note (s : State) (cause : SyntaxCause) : Passes s (s.note s.line cause) :=
  ⟨List.suffix_refl _, rfl, [⟨s.line, cause⟩], Array.toList_push, .here ⟨s.line, cause⟩⟩

/-- An assignment whose equal sign is next is noted when its right side has been read. -/
theorem Passes.noteLate (hs : s.InOrder) (h : Passes (s.drop 1) t) :
    Passes s (t.note s.line .invalidTarget) := by
  obtain ⟨hr, he, fs, hfs, hn⟩ := (Passes.drop hs 1).trans h
  refine ⟨hr, he, fs ++ [⟨s.line, .invalidTarget⟩], ?_, hn.late⟩
  rw [← List.append_assoc, ← hfs]
  exact Array.toList_push

/-- The rule notes faults on its way, and is refused at the token that is next then. -/
structure Proceeds {α : Type} (r : Rule α) : Prop where
  ok : ∀ {s t a}, r s = .ok a t → s.InOrder → Passes s t
  refused : ∀ {s t f}, r s = .error (.refused f) t → s.InOrder → Passes s t ∧ f.line = t.line

namespace Proceeds

variable {α β : Type}

/-- A step that is refused nowhere. -/
theorem step {f : State → α} {g : State → State}
    (h : ∀ s : State, s.InOrder → Passes s (g s)) : Proceeds fun s => .ok (f s) (g s) :=
  ⟨fun hr hs => by cases hr; exact h _ hs, fun hr _ => by cases hr⟩

theorem refuse (cause : Found → SyntaxCause) : Proceeds (refuse cause : Rule α) :=
  ⟨fun hr _ => (by cases hr), fun hr hs => by cases hr; exact ⟨.refl hs, rfl⟩⟩

theorem bind {x : Rule α} {f : α → Rule β} (hx : Proceeds x) (hf : ∀ a, Proceeds (f a)) :
    Proceeds (x >>= f) := by
  constructor
  · intro s u b hr hs
    obtain ⟨a, t, ha, hb⟩ := bind_eq_ok hr
    have ht := hx.ok ha hs
    exact ht.trans ((hf a).ok hb (ht.inOrder hs))
  · intro s u c hr hs
    rcases bind_eq_error hr with ha | ⟨a, t, ha, hb⟩
    · exact hx.refused ha hs
    · have ht := hx.ok ha hs
      have hu := (hf a).refused hb (ht.inOrder hs)
      exact ⟨ht.trans hu.1, hu.2⟩

theorem acceptMap (f : Token → Option α) : Proceeds (acceptMap f) := by
  have hgoes (s : State) : Grammar.acceptMap f s = .ok none s ∨
      ∃ a, Grammar.acceptMap f s = .ok (some a) (s.drop 1) := by
    rw [Grammar.acceptMap]
    cases s.rest with
    | nil => exact .inl rfl
    | cons x xs => cases hx : f x <;> simp [hx]
  constructor
  · intro s t o hr hs
    rcases hgoes s with h | ⟨a, h⟩ <;> cases h.symm.trans hr
    · exact .refl hs
    · exact .drop hs 1
  · intro s t c hr _
    rcases hgoes s with h | ⟨a, h⟩ <;> cases h.symm.trans hr

theorem nested {x : Rule α} (what : Nesting) (hx : Proceeds x) : Proceeds (nested what x) := by
  constructor
  · intro s t a hr hs
    obtain ⟨u, hu, rfl⟩ := nested_eq_ok hr
    have h := hx.ok hu hs
    exact ⟨h.rest, h.endLine, h.noted⟩
  · intro s t c hr hs
    rcases nested_eq_error hr with ⟨hc, rfl⟩ | ⟨u, hu, rfl⟩
    · cases hc
      exact ⟨.refl hs, rfl⟩
    · obtain ⟨h, hline⟩ := hx.refused hu hs
      exact ⟨⟨h.rest, h.endLine, h.noted⟩, hline⟩

/-- A refused rule is noted at the token at which it was refused. -/
theorem recovering {x : Rule α} (hx : Proceeds x) : Proceeds (recovering x) := by
  constructor
  · intro s t o hr hs
    rcases recovering_ok hr with ⟨a, ha⟩ | ⟨c, u, hu, rfl⟩
    · exact hx.ok ha hs
    · obtain ⟨h, hline⟩ := hx.refused hu hs
      -- the fault bears the line of the token that is next
      have hnote : u.note u.line c.cause = { u with faults := u.faults.push c } := by
        rw [← hline]
        rfl
      have hnoted := h.trans (Passes.note u c.cause)
      rw [hnote] at hnoted
      exact hnoted.trans (.drop (hnoted.inOrder hs) _)
  · intro s t c hr _
    cases (recovering_error hr).1

/-- An assignment notes a left side that is no name at the equal sign, which was next. -/
theorem late {x : Rule Expr} (target : Expr) (hx : Proceeds x) : Proceeds do
    match ← accept (.symbol .equal) with
    | none => return target
    | some equals =>
      let _ ← x
      noteAt equals.line .invalidTarget
      return target := by
  have hgoes (s : State) : accept (.symbol .equal) s = .ok none s ∨
      ∃ equals : Token, equals.line = s.line ∧
        accept (.symbol .equal) s = .ok (some equals) (s.drop 1) := by
    rw [accept, acceptIf, Grammar.acceptMap, State.line]
    cases s.rest with
    | nil => exact .inl rfl
    | cons y ys => by_cases hy : y.kind = .symbol .equal <;> simp [hy]
  constructor
  · intro s t a hr hs
    obtain ⟨o, u, ho, hr⟩ := bind_eq_ok hr
    rcases hgoes s with h | ⟨equals, hl, h⟩ <;> cases h.symm.trans ho
    · cases hr
      exact .refl hs
    -- the faults of the right side are noted in front of that of the equal sign
    · obtain ⟨v, w, hv, hr⟩ := bind_eq_ok hr
      cases hr
      rw [hl]
      exact (hx.ok hv ((Passes.drop hs 1).inOrder hs)).noteLate hs
  · intro s t c hr hs
    rcases bind_eq_error hr with ho | ⟨o, u, ho, hr⟩
    · rcases hgoes s with h | ⟨equals, -, h⟩ <;> cases h.symm.trans ho
    rcases hgoes s with h | ⟨equals, hl, h⟩ <;> cases h.symm.trans ho
    · cases hr
    · rcases bind_eq_error hr with hv | ⟨v, w, hv, hr⟩
      · have hdrop := Passes.drop hs 1
        obtain ⟨h, hline⟩ := hx.refused hv (hdrop.inOrder hs)
        exact ⟨hdrop.trans h, hline⟩
      · cases hr

end Proceeds

theorem closed_proceeds : Closed Proceeds where
  pure _ := Proceeds.step fun _ => .refl
  bind := Proceeds.bind
  get := Proceeds.step fun _ => .refl
  refuse := Proceeds.refuse
  endless := ⟨fun hr => (by cases hr), fun hr => by cases hr⟩
  acceptMap := Proceeds.acceptMap
  ahead k := by
    rw [show ahead k = fun s => .ok (decide (s.At k)) s from funext (ahead_apply k)]
    exact Proceeds.step fun _ => .refl
  atEnd := Proceeds.step fun _ => .refl
  freshId := Proceeds.step fun _ hs => .quietly hs (List.suffix_refl _) rfl rfl
  noteHere cause := Proceeds.step fun s _ => .note s cause
  late := Proceeds.late
  nested := Proceeds.nested
  recovering := Proceeds.recovering

end Lox.Grammar

/-! ### Texts -/

namespace Lox.Source

theorem pairwise_itemsFrom (line : Nat) (ps : List Piece) :
    ((itemsFrom line ps).map Item.line ++ [lineBehind line ps]).Pairwise (· ≤ ·) := by
  induction ps generalizing line with
  | nil => exact List.pairwise_singleton _ _
  | cons p ps ih =>
      rw [itemsFrom, lineBehind]
      cases hi : p.item? (line + p.newlines) with
      | none => exact ih _
      | some i =>
          refine List.pairwise_cons.mpr ⟨fun l hl => ?_, ih _⟩
          rw [line_of_item? hi]
          rcases List.mem_append.mp hl with hl | hl
          · obtain ⟨j, hj, rfl⟩ := List.mem_map.mp hl
            exact le_line_of_mem hj
          · rw [List.mem_singleton.mp hl]
            exact le_lineBehind _ _

theorem sublist_filterMap_token? (is : List Item) :
    ((is.filterMap Item.token?).map Token.line).Sublist (is.map Item.line) := by
  induction is with
  | nil => exact .slnil
  | cons i is ih =>
      cases i with
      | token t => exact ih.cons_cons _
      | fault f => exact ih.cons _

/-- The tokens of a text follow each other, and so do their lines. -/
theorem pairwise_lines (source : String) : ((tokens source).map Token.line).Pairwise (· ≤ ·) := by
  refine List.Pairwise.sublist (sublist_filterMap_token? _) ?_
  rw [items_eq, List.map_append]
  exact pairwise_itemsFrom 1 _

end Lox.Source

namespace Lox.Grammar

theorem lines_start (source : String) (firstId : Nat) :
    (State.start (Source.tokens source) firstId).lines = (Source.tokens source).map Token.line := by
  have hclosing : closingLine (Source.tokens source) = 1 + source.toList.count '\n' := by
    rw [Source.tokens_eq, closingLine_append (fun t ht => Source.kind_ne_eof ht) (by simp)]
    rfl
  have hrest : (State.start (Source.tokens source) firstId).rest = Source.heldTokens source :=
    upToEnd_tokens source
  rw [State.lines, hrest, State.start, hclosing, Source.tokens_eq, List.map_append,
    List.map_singleton]

theorem Noted.of_ofTokens? {source : String} {firstId : Nat} {p : Program}
    (hp : Program.ofTokens? (Source.tokens source) firstId = some p) :
    ∃ start stop, Noted start p.faults stop := by
  rw [Program.ofTokens?] at hp
  cases hr : program (rules maxDepth) (.start (Source.tokens source) firstId) with
  | error h t => rw [hr] at hp; cases hp
  | ok body t =>
      rw [hr] at hp
      cases hp
      have hs : (State.start (Source.tokens source) firstId).InOrder := by
        rw [State.InOrder, lines_start]
        exact Source.pairwise_lines source
      obtain ⟨fs, hfs, h⟩ :=
        ((closed_proceeds.program (closed_proceeds.rules maxDepth)).ok hr hs).noted
      cases hfs.symm.trans rfl
      exact ⟨_, _, h⟩

/-- **Syntax faults by lines.** Of two faults of a text the one noted later stands at no smaller
line, unless it is that of an assignment without a name on its left. In front of such a one, the
faults of lines up to its own come first and those of lines from its own on come last. -/
theorem faults_in_order {source : String} {firstId : Nat} {p : Program}
    (hp : Program.ofTokens? (Source.tokens source) firstId = some p) :
    (p.faults.Pairwise fun e f => f.cause ≠ .invalidTarget → e.line ≤ f.line) ∧
      ∀ front f back, p.faults = front ++ f :: back → PlacedBehind front f := by
  obtain ⟨start, stop, h⟩ := Noted.of_ofTokens? hp
  exact ⟨h.pairwise, fun front f back => h.placedBehind⟩

/-- An assignment of an assignment, both without a name on their left. -/
def assignedTwice : String := "nil =\nnil = nil;"

theorem faults_of_assignedTwice :
    (Program.ofTokens? (Source.tokens assignedTwice) 0).map Program.faults =
      some [⟨2, .invalidTarget⟩, ⟨1, .invalidTarget⟩] := by
  decide +kernel

theorem assignment_noted_behind_right_side :
    ∃ p, Program.ofTokens? (Source.tokens assignedTwice) 0 = some p ∧
      p.faults = [⟨2, .invalidTarget⟩] ++ ⟨1, .invalidTarget⟩ :: [] ∧
      PlacedBehind [⟨2, .invalidTarget⟩] ⟨1, .invalidTarget⟩ := by
  obtain ⟨p, hp, hf⟩ := Option.map_eq_some_iff.mp faults_of_assignedTwice
  exact ⟨p, hp, hf, (faults_in_order hp).2 _ _ _ hf⟩

/-- Not all faults of a text are noted in the order of their lines. -/
theorem not_faults_by_lines : ¬∀ (source : String) (firstId : Nat) (p : Program),
    Program.ofTokens? (Source.tokens source) firstId = some p →
      (p.faults.map Fault.line).Pairwise (· ≤ ·) := by
  intro h
  obtain ⟨p, hp, hf⟩ := Option.map_eq_some_iff.mp faults_of_assignedTwice
  have hlines := h _ _ p hp
  rw [hf] at hlines
  exact absurd hlines (by decide)

end Lox.Grammar
