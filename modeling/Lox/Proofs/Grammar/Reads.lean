import Lox.Proofs.Grammar.Sound

/-!
What a rule does on tokens that are known, with the faults it notes on its way. The lemmas mirror
those on sound rules: there the tokens are found from what a rule did, here what it does is found
from the tokens.
-/

namespace Lox.Grammar

variable {α β : Type} {n : Nat} {ts us rest : List Token} {fs gs : List (Fault SyntaxCause)}
  {P : α → Prop} {Q : β → Prop}

/-- The state behind tokens that were read, with the faults noted meanwhile. -/
def State.past (s : State) (ts rest : List Token) (fs : List (Fault SyntaxCause)) (id : Nat) :
    State :=
  { s with
    rest := rest
    position := s.position + ts.length
    faults := s.faults ++ fs.toArray
    nextId := id }

theorem State.past_nil {s : State} (h : s.rest = [] ++ rest) : s = s.past [] rest [] s.nextId := by
  rw [State.past, ← List.nil_append rest, ← h, Array.append_empty]
  rfl

/-- With `n` levels left and `rest` behind them, the rule reads the tokens `ts`, notes the faults
`fs` and makes of the tokens something with the property `P`. -/
def Reads (n : Nat) (ts rest : List Token) (fs : List (Fault SyntaxCause)) (P : α → Prop)
    (r : Rule α) : Prop :=
  ∀ s : State, s.rest = ts ++ rest → s.depth + n ≤ maxDepth →
    ∃ a id, r s = .ok a (s.past ts rest fs id) ∧ P a

namespace Reads

theorem mono {P' : α → Prop} {r : Rule α} (h : Reads n ts rest fs P r) (hi : ∀ a, P a → P' a) :
    Reads n ts rest fs P' r := by
  intro s hs hd
  obtain ⟨a, id, hr, ha⟩ := h s hs hd
  exact ⟨a, id, hr, hi a ha⟩

theorem pure {a : α} (h : P a) : Reads n [] rest [] P (pure a) := by
  intro s hs _
  exact ⟨a, s.nextId, congrArg (EStateM.Result.ok a) (s.past_nil hs), h⟩

theorem bind {p q : List Token} {x : Rule α} {f : α → Rule β} (hx : Reads n p (q ++ rest) fs P x)
    (hf : ∀ a, P a → Reads n q rest gs Q (f a)) : Reads n (p ++ q) rest (fs ++ gs) Q (x >>= f) := by
  intro s hs hd
  obtain ⟨a, i, ha, hp⟩ := hx s (by rw [hs, List.append_assoc]) hd
  obtain ⟨b, j, hb, hq⟩ := hf a hp (s.past p (q ++ rest) fs i) rfl hd
  refine ⟨b, j, ?_, hq⟩
  rw [bind_apply, ha]
  simp only [hb]
  simp [State.past, Nat.add_assoc]

/-- The first of two rules notes nothing. -/
theorem quiet {p q : List Token} {x : Rule α} {f : α → Rule β} (hx : Reads n p (q ++ rest) [] P x)
    (hf : ∀ a, P a → Reads n q rest fs Q (f a)) : Reads n (p ++ q) rest fs Q (x >>= f) :=
  bind hx hf

/-- Nothing is read behind the first of two rules. -/
theorem map {x : Rule α} {f : α → β} (hx : Reads n ts rest fs P x) (hf : ∀ a, P a → Q (f a)) :
    Reads n ts rest fs Q (x >>= fun a => Pure.pure (f a)) := by
  rw [← List.append_nil ts, ← List.append_nil fs]
  exact bind hx fun a ha => pure (hf a ha)

theorem get {f : State → Rule β}
    (h : ∀ s : State, s.rest = ts ++ rest → Reads n ts rest fs Q (f s)) :
    Reads n ts rest fs Q (get >>= f) :=
  fun s hs hd => h s hs s hs hd

/-! ### Single tokens -/

theorem acceptMap {f : Token → Option α} {g : Option α → Rule β} {t : Token} {a : α}
    (ht : f t = some a) (h : Reads n ts rest fs Q (g (some a))) :
    Reads n (t :: ts) rest fs Q (acceptMap f >>= g) := by
  refine quiet (p := [t]) (P := (· = some a))
    (fun s hs _ => ⟨some a, s.nextId, ?_, rfl⟩) ?_
  · rw [Grammar.acceptMap]
    rw [hs]
    simp [ht, State.drop, State.past, hs]
  · rintro _ rfl
    exact h

theorem acceptMap_none {f : Token → Option α} {g : Option α → Rule β}
    (hf : ∀ t ∈ (ts ++ rest).head?, f t = none) (h : Reads n ts rest fs Q (g none)) :
    Reads n ts rest fs Q (Grammar.acceptMap f >>= g) := by
  refine quiet (p := []) (P := (· = none)) (fun s hs _ => ⟨none, s.nextId, ?_, rfl⟩) ?_
  · rw [← s.past_nil hs]
    rw [← List.nil_append (ts ++ rest), ← hs] at hf
    rw [Grammar.acceptMap]
    cases hr : s.rest with
    | nil => rfl
    | cons t us => simp [hf t (by rw [hr]; rfl)]
  · rintro _ rfl
    exact h

theorem acceptIf {p : Kind → Bool} {g : Option Token → Rule β} {t : Token} (ht : p t.kind = true)
    (h : Reads n ts rest fs Q (g (some t))) : Reads n (t :: ts) rest fs Q (acceptIf p >>= g) :=
  acceptMap (if_pos ht) h

theorem acceptIf_none {p : Kind → Bool} {g : Option Token → Rule β}
    (hp : ∀ t ∈ (ts ++ rest).head?, p t.kind = false) (h : Reads n ts rest fs Q (g none)) :
    Reads n ts rest fs Q (Grammar.acceptIf p >>= g) :=
  acceptMap_none (fun t ht => if_neg (Bool.eq_false_iff.mp (hp t ht))) h

theorem accept {k : Kind} {g : Option Token → Rule β} {t : Token} (ht : t.kind = k)
    (h : Reads n ts rest fs Q (g (some t))) : Reads n (t :: ts) rest fs Q (accept k >>= g) :=
  acceptIf (decide_eq_true ht) h

theorem accept_none {k : Kind} {g : Option Token → Rule β}
    (hk : ∀ t ∈ (ts ++ rest).head?, t.kind ≠ k) (h : Reads n ts rest fs Q (g none)) :
    Reads n ts rest fs Q (Grammar.accept k >>= g) :=
  acceptIf_none (fun t ht => decide_eq_false (hk t ht)) h

theorem token {k : Kind} {wanted : Wanted} {t : Token} (ht : t.kind = k) :
    Reads n [t] rest [] (· = t) (expect k wanted) :=
  accept ht (pure rfl)

theorem expect {k : Kind} {wanted : Wanted} {g : Token → Rule β} {t : Token} (ht : t.kind = k)
    (h : Reads n ts rest fs Q (g t)) : Reads n (t :: ts) rest fs Q (expect k wanted >>= g) := by
  apply quiet (p := [t]) (token ht)
  rintro _ rfl
  exact h

theorem ahead_none {k : Kind} {g : Bool → Rule β} (hk : ∀ t ∈ (ts ++ rest).head?, t.kind ≠ k)
    (h : Reads n ts rest fs Q (g false)) : Reads n ts rest fs Q (ahead k >>= g) := by
  intro s hs hd
  have ha : Grammar.ahead k s = .ok false s := by
    rw [Grammar.ahead]
    rw [hs]
    cases hr : ts ++ rest with
    | nil => rfl
    | cons t us => simp [hk t (by rw [hr]; rfl)]
  rw [bind_apply, ha]
  exact h s hs hd

theorem ahead {k : Kind} {g : Bool → Rule β} {t : Token} (hh : (ts ++ rest).head? = some t)
    (ht : t.kind = k) (h : Reads n ts rest fs Q (g true)) :
    Reads n ts rest fs Q (Grammar.ahead k >>= g) := by
  intro s hs hd
  have ha : Grammar.ahead k s = .ok true s := by
    rw [Grammar.ahead]
    rw [hs]
    cases hr : ts ++ rest with
    | nil => rw [hr] at hh; cases hh
    | cons u us => rw [hr] at hh; cases hh; simp [ht]
  rw [bind_apply, ha]
  exact h s hs hd

theorem atEnd : Reads n [] rest [] (· = rest.isEmpty) atEnd := by
  intro s hs _
  refine ⟨rest.isEmpty, s.nextId, ?_, rfl⟩
  rw [Grammar.atEnd, hs]
  exact congrArg (EStateM.Result.ok _) (s.past_nil hs)

theorem freshId {g : Nat → Rule β} (h : ∀ i, Reads n ts rest fs Q (g i)) :
    Reads n ts rest fs Q (freshId >>= g) := by
  intro s hs hd
  obtain ⟨a, id, ha, hq⟩ := h s.nextId { s with nextId := s.nextId + 1 } hs hd
  exact ⟨a, id, ha, hq⟩

theorem noteHere {cause : SyntaxCause} {g : Unit → Rule β} {t : Token}
    (ht : (ts ++ rest).head? = some t) (h : Reads n ts rest fs Q (g ())) :
    Reads n ts rest (⟨t.line, cause⟩ :: fs) Q (noteHere cause >>= g) := by
  intro s hs hd
  obtain ⟨a, id, ha, hq⟩ := h (s.note t.line cause) hs hd
  have hline : s.line = t.line := by
    rw [State.line, hs]
    cases hr : ts ++ rest with
    | nil => rw [hr] at ht; cases ht
    | cons u us => rw [hr] at ht; cases ht; rfl
  refine ⟨a, id, ?_, hq⟩
  rw [bind_apply, Grammar.noteHere, hline]
  simp only [ha]
  simp [State.past, State.note]

theorem noteAt {line : Nat} {cause : SyntaxCause} {g : Unit → Rule β}
    (h : Reads n ts rest fs Q (g ())) :
    Reads n ts rest (⟨line, cause⟩ :: fs) Q (noteAt line cause >>= g) := by
  intro s hs hd
  obtain ⟨a, id, ha, hq⟩ := h (s.note line cause) hs hd
  refine ⟨a, id, ?_, hq⟩
  rw [bind_apply, Grammar.noteAt]
  simp only [ha]
  simp [State.past, State.note]

/-! ### Rules inside rules -/

theorem nested {what : Nesting} {r : Rule α} (h : Reads n ts rest fs P r) :
    Reads (n + 1) ts rest fs P (nested what r) := by
  intro s hs hd
  obtain ⟨a, id, ha, hp⟩ := h { s with depth := s.depth + 1 } hs (by simp only; omega)
  refine ⟨a, id, ?_, hp⟩
  rw [Grammar.nested, if_neg (by omega)]
  simp [ha, State.past]

theorem recovering {r : Rule α} (h : Reads n ts rest fs P r) :
    Reads n ts rest fs (fun o => ∃ a, o = some a ∧ P a) (recovering r) := by
  intro s hs hd
  obtain ⟨a, id, ha, hp⟩ := h s hs hd
  exact ⟨some a, id, by simp [Grammar.recovering, ha], a, rfl, hp⟩

end Reads

/-- A loop that has come to `a` reads the tokens, however many steps it may still take. -/
def Loops (n : Nat) (ts rest : List Token) (fs : List (Fault SyntaxCause)) (P : α → Prop)
    (step : α → Rule (Option α)) (a : α) : Prop :=
  ∀ bound : List Token, (ts ++ rest).length ≤ bound.length →
    Reads n ts rest fs P (repeatedly.go step bound a)

namespace Loops

variable {step : α → Rule (Option α)} {a : α}

theorem reads (h : Loops n ts rest fs P step a) : Reads n ts rest fs P (repeatedly a step) :=
  Reads.get fun s hs => h s.rest (Nat.le_of_eq (congrArg List.length hs.symm))

theorem done (ha : P a) (h : Reads n [] rest [] (· = none) (step a)) :
    Loops n [] rest [] P step a := by
  intro bound _
  cases bound with
  | nil => exact Reads.pure ha
  | cons t bound =>
      apply Reads.quiet (p := []) h
      rintro _ rfl
      exact Reads.pure ha

theorem more {p q : List Token} {R : α → Prop} (hne : p ≠ [])
    (h : Reads n p (q ++ rest) fs (fun o => ∃ b, o = some b ∧ R b) (step a))
    (hl : ∀ b, R b → Loops n q rest gs P step b) :
    Loops n (p ++ q) rest (fs ++ gs) P step a := by
  intro bound hb
  have hpos := List.length_pos_iff.mpr hne
  cases bound with
  | nil => simp only [List.length_append, List.length_nil] at hb; omega
  | cons t bound =>
      apply Reads.bind h
      rintro _ ⟨b, rfl, hr⟩
      exact hl b hr bound (by simp only [List.length_append, List.length_cons] at hb ⊢; omega)

end Loops

end Lox.Grammar
