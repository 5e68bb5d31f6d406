import Lox.Proofs.Grammar.Sound

/-!
Tokens pay for faults. A rule reads tokens and notes faults, and what it reads must cover what it
notes: the sum of the tokens ahead and the faults noted never grows. Most rules have a token to
spare; a rule that notes a fault without reading borrows one from the rule in front of it.
-/

namespace Lox.Grammar

variable {α β : Type} {s t u : State}

/-- From `s` to `t` tokens are read, which outnumber the faults noted on the way by `spare`. -/
structure Paid (spare : Int) (s t : State) : Prop where
  rest : t.rest <:+ s.rest
  position : t.position + t.rest.length = s.position + s.rest.length
  kept : s.faults.size ≤ t.faults.size
  covered : (t.faults.size : Int) + t.rest.length + spare ≤ s.faults.size + s.rest.length
  depth : t.depth = s.depth

namespace Paid

variable {j k : Int}

theorem refl (s : State) : Paid 0 s s :=
  ⟨List.suffix_rfl, rfl, Nat.le_refl _, by omega, rfl⟩

theorem trans (h : Paid j s t) (h' : Paid k t u) : Paid (j + k) s u where
  rest := h'.rest.trans h.rest
  position := h'.position.trans h.position
  kept := Nat.le_trans h.kept h'.kept
  covered := by have := h.covered; have := h'.covered; omega
  depth := h'.depth.trans h.depth

theorem mono (h : Paid k s t) (hj : j ≤ k) : Paid j s t :=
  { h with covered := by have := h.covered; omega }

theorem drop {n : Nat} (hn : n ≤ s.rest.length) : Paid n s (s.drop n) where
  rest := List.drop_suffix n s.rest
  position := by simp only [State.drop, List.length_drop]; omega
  kept := Nat.le_refl _
  covered := by simp only [State.drop, List.length_drop]; omega
  depth := rfl

theorem note (s : State) (line : Nat) (cause : SyntaxCause) : Paid (-1) s (s.note line cause) where
  rest := List.suffix_rfl
  position := rfl
  kept := by simp [State.note]
  covered := by simp only [State.note, Array.size_push]; omega
  depth := rfl

theorem position_le (h : Paid k s t) : s.position ≤ t.position := by
  have := h.position
  have := h.rest.length_le
  omega

theorem length_lt (h : Paid 1 s t) : t.rest.length < s.rest.length := by
  have := h.covered
  have := h.kept
  omega

theorem position_lt (h : Paid 1 s t) : s.position < t.position := by
  have := h.position
  have := h.length_lt
  omega

/-- Where the position is the same, so are the tokens ahead. -/
theorem rest_eq (h : Paid k s t) (hp : t.position = s.position) : t.rest = s.rest := by
  have := h.position
  exact h.rest.eq_of_length (by omega)

end Paid

/-- A rule that is run at `s` pays for the faults it notes, with `spare` tokens left if it succeeds.
It may be refused where it began only if `idle`, and reads on for ever only if `endless`. -/
def Pays (spare : Int) (idle endless : Prop) (r : Rule α) (s : State) : Prop :=
  match r s with
  | .ok _ t => Paid spare s t
  | .error (.refused _) t => Paid spare s t ∨ idle ∧ Paid 0 s t ∧ t.position = s.position
  | .error .endless _ => endless

namespace Pays

variable {j k m : Int} {idle idle' endless endless' : Prop} {x r : Rule α} {f : α → Rule β}

theorem ok (h : Pays k idle endless r s) {a : α} (hr : r s = .ok a t) : Paid k s t := by
  rw [Pays, hr] at h
  exact h

theorem refused (h : Pays k idle endless r s) {c : Fault SyntaxCause}
    (hr : r s = .error (.refused c) t) :
    Paid k s t ∨ idle ∧ Paid 0 s t ∧ t.position = s.position := by
  rw [Pays, hr] at h
  exact h

theorem goes_on (h : Pays k idle endless r s) (hr : r s = .error .endless t) : endless := by
  rw [Pays, hr] at h
  exact h

theorem of_cases (hok : ∀ a t, r s = .ok a t → Paid k s t)
    (hno : ∀ c t, r s = .error (.refused c) t →
      Paid k s t ∨ idle ∧ Paid 0 s t ∧ t.position = s.position)
    (hend : ∀ t, r s = .error .endless t → endless) : Pays k idle endless r s := by
  rw [Pays]
  split
  · next a t hr => exact hok a t hr
  · next c t hr => exact hno c t hr
  · next t hr => exact hend t hr

theorem mono (h : Pays k idle endless r s) (hj : j ≤ k) (hi : idle → idle')
    (he : endless → endless') : Pays j idle' endless' r s := by
  refine of_cases (fun a t hr => (h.ok hr).mono hj) (fun c t hr => ?_) fun t hr => he (h.goes_on hr)
  rcases h.refused hr with ht | ⟨hidle, ht⟩
  · exact .inl (ht.mono hj)
  · exact .inr ⟨hi hidle, ht⟩

/-- Whoever expects nothing to spare need not know where the rule was refused. -/
theorem meager (h : Pays k idle endless r s) (hj : j ≤ k) (h0 : j ≤ 0) :
    Pays j False endless r s := by
  refine of_cases (fun a t hr => (h.ok hr).mono hj) (fun c t hr => ?_) fun t hr => h.goes_on hr
  rcases h.refused hr with ht | ⟨-, ht, -⟩
  · exact .inl (ht.mono hj)
  · exact .inl (ht.mono h0)

theorem pure {a : α} : Pays 0 idle endless (pure a : Rule α) s := Paid.refl s

/-- What the first of two rules has to spare, the second may use. -/
theorem lend (hx : Pays j idle endless x s)
    (hf : ∀ a t, x s = .ok a t → Paid j s t → Pays k False endless (f a) t)
    (hj : m ≤ j) (hm : m ≤ j + k) : Pays m idle endless (x >>= f) s := by
  have h := hx
  rw [Pays] at h ⊢
  rw [bind_apply]
  cases hs : x s with
  | ok a t =>
      rw [hs] at h
      have ht := hf a t hs h
      rw [Pays] at ht
      simp only
      cases hr : f a t with
      | ok b u => rw [hr] at ht; exact (h.trans ht).mono hm
      | error e u =>
          rw [hr] at ht
          cases e with
          | refused c => exact .inl ((h.trans (ht.resolve_right fun hn => hn.1)).mono hm)
          | endless => exact ht
  | error e t =>
      rw [hs] at h
      cases e with
      | refused c => exact h.imp_left fun ht => ht.mono hj
      | endless => exact h

theorem bind (hx : Pays k idle endless x s)
    (hf : ∀ a t, x s = .ok a t → Paid k s t → Pays 0 False endless (f a) t) :
    Pays k idle endless (x >>= f) s :=
  lend hx hf (Int.le_refl _) (by omega)

theorem note {line : Nat} {cause : SyntaxCause} {g : Unit → Rule β}
    (h : Pays 0 False endless (g ()) (s.note line cause)) :
    Pays (-1) False endless ((fun s => .ok () (s.note line cause) : Rule Unit) >>= g) s :=
  lend (j := -1) (k := 0) (Paid.note s line cause) (fun _ _ hr _ => by cases hr; exact h)
    (by decide) (by decide)

/-- A rule that pays with a token to spare may stand where none is to spare. -/
theorem skip (hx : Pays 1 idle endless x s)
    (hf : ∀ a t, x s = .ok a t → Paid 0 s t → Pays 0 False endless (f a) t) :
    Pays 0 False endless (x >>= f) s :=
  (hx.meager (by decide) (by decide)).bind hf

theorem refuse {cause : Found → SyntaxCause} (h : k ≤ 0 ∨ idle) :
    Pays k idle endless (refuse cause : Rule α) s :=
  h.imp (fun h => (Paid.refl s).mono h) fun h => ⟨h, Paid.refl s, rfl⟩

theorem freshId : Pays 0 idle endless freshId s :=
  ⟨List.suffix_rfl, rfl, Nat.le_refl _, by simp, rfl⟩

theorem noteHere {cause : SyntaxCause} : Pays (-1) idle endless (noteHere cause) s :=
  Paid.note s _ _

theorem noteAt {line : Nat} {cause : SyntaxCause} :
    Pays (-1) idle endless (noteAt line cause) s :=
  Paid.note s _ _

/-- A rule that only looks at the tokens changes nothing for those behind it. -/
theorem look {a : α} (hx : x s = .ok a s) (h : Pays k idle endless (f a) s) :
    Pays k idle endless (x >>= f) s := by
  rw [Pays, bind_apply, hx]
  exact h

end Pays

/-! ### Single tokens -/

/-- The next token is of the given kind. -/
def State.At (s : State) (k : Kind) : Prop := s.rest.head?.map Token.kind = some k

instance (s : State) (k : Kind) : Decidable (s.At k) := inferInstanceAs (Decidable (_ = _))

theorem State.At.not {k k' : Kind} (h : s.At k) (hne : k ≠ k') : ¬s.At k' :=
  fun h' => hne (Option.some.inj (h.symm.trans h'))

theorem State.At.length_pos {k : Kind} (h : s.At k) : 0 < s.rest.length := by
  rw [State.At] at h
  cases hs : s.rest with
  | nil => rw [hs] at h; cases h
  | cons t ts => exact Nat.succ_pos _

theorem accept_of_at {k : Kind} (h : s.At k) : ∃ t, accept k s = .ok (some t) (s.drop 1) := by
  rw [State.At] at h
  rw [accept, acceptIf, acceptMap]
  cases hs : s.rest with
  | nil => rw [hs] at h; cases h
  | cons t ts =>
      rw [hs] at h
      exact ⟨t, by simp [Option.some.inj h]⟩

theorem accept_of_not_at {k : Kind} (h : ¬s.At k) : accept k s = .ok none s := by
  rw [State.At] at h
  rw [accept, acceptIf, acceptMap]
  cases hs : s.rest with
  | nil => rfl
  | cons t ts =>
      rw [hs] at h
      have ht : t.kind ≠ k := fun ht => h (congrArg some ht)
      simp [ht]

theorem ahead_apply (k : Kind) (s : State) : ahead k s = .ok (decide (s.At k)) s := by
  have hs : s.At k ↔ s.rest.head?.map Token.kind = some k := Iff.rfl
  rw [ahead]
  cases hr : s.rest <;> simp [hs, hr]

namespace Pays

variable {j k m : Int} {idle idle' endless : Prop}

theorem acceptMap {p : Token → Option α} {g : Option α → Rule β}
    (hyes : ∀ a, Pays k False endless (g (some a)) (s.drop 1))
    (hno : (∀ t ∈ s.rest.head?, p t = none) → Pays m idle endless (g none) s)
    (hm : m ≤ 1 := by decide) (hk : m ≤ 1 + k := by decide) :
    Pays m idle endless (acceptMap p >>= g) s := by
  cases hs : s.rest with
  | nil => exact look (by rw [Grammar.acceptMap, hs]) (hno (by simp [hs]))
  | cons t ts =>
      cases hp : p t with
      | none => exact look (by rw [Grammar.acceptMap, hs]; simp [hp]) (hno (by simp [hs, hp]))
      | some a =>
          have ha : Grammar.acceptMap p s = .ok (some a) (s.drop 1) := by
            rw [Grammar.acceptMap, hs]
            simp [hp]
          have hx : Pays 1 idle endless (Grammar.acceptMap p) s := by
            rw [Pays, ha]
            exact Paid.drop (by simp [hs])
          refine hx.lend (fun b u hu _ => ?_) hm hk
          rw [ha] at hu
          cases hu
          exact hyes a

theorem accept {K : Kind} {g : Option Token → Rule β}
    (hyes : ∀ t, s.At K → Pays 0 False endless (g (some t)) (s.drop 1))
    (hno : ¬s.At K → Pays m idle endless (g none) s) (hm : m ≤ 1 := by decide) :
    Pays m idle endless (accept K >>= g) s := by
  by_cases hs : s.At K
  · obtain ⟨t, ht⟩ := accept_of_at hs
    have hx : Pays 1 idle endless (Grammar.accept K) s := by
      rw [Pays, ht]
      exact Paid.drop hs.length_pos
    refine hx.lend (k := 0) (fun b u hu _ => ?_) hm (by omega)
    rw [ht] at hu
    cases hu
    exact hyes t hs
  · exact look (accept_of_not_at hs) (hno hs)

theorem token {K : Kind} {wanted : Wanted} : Pays 1 True endless (Grammar.expect K wanted) s :=
  accept (fun _ _ => pure) fun _ => refuse (.inr trivial)

/-! ### Rules inside rules -/

theorem nested {what : Nesting} {r : Rule α}
    (hr : s.depth < maxDepth → Pays m idle' endless r { s with depth := s.depth + 1 })
    (hi : idle' → idle) (hd : maxDepth ≤ s.depth → m ≤ 0 ∨ idle) :
    Pays m idle endless (nested what r) s := by
  by_cases h : maxDepth ≤ s.depth
  · have hs : Pays m idle endless (Grammar.refuse (.tooDeep what) : Rule α) s := refuse (hd h)
    rw [Pays, Grammar.nested, if_pos h]
    exact hs
  · have hr := hr (Nat.lt_of_not_le h)
    have back {k : Int} {t : State} (ht : Paid k { s with depth := s.depth + 1 } t) :
        Paid k s { t with depth := t.depth - 1 } :=
      { ht with depth := by have := ht.depth; simp only at this ⊢; omega }
    rw [Pays, Grammar.nested, if_neg h]
    rw [Pays] at hr
    split at hr
    · next a t ht => rw [ht]; exact back hr
    · next c t ht =>
        rw [ht]
        exact hr.imp back fun hi' => ⟨hi hi'.1, back hi'.2.1, hi'.2.2⟩
    · next t ht => rw [ht]; exact hr

/-- A loop pays if each step pays in any state that the loop can reach. -/
theorem repeatedly {I : State → Prop} {a : α} {step : α → Rule (Option α)} (hs : I s)
    (hstep : ∀ a u, I u → Pays 0 False endless (step a) u)
    (hnext : ∀ a b u t, I u → step a u = .ok (some b) t → I t) :
    Pays 0 False endless (repeatedly a step) s := by
  -- By induction on the bound; `I` is what is known of the state between two steps.
  have hgo (bound : List Token) : ∀ a u, I u →
      Pays 0 False endless (Grammar.repeatedly.go step bound a) u := by
    induction bound with
    | nil => exact fun a u _ => pure
    | cons t bound ih =>
        intro a u hu
        refine bind (hstep a u hu) fun o v hv _ => ?_
        cases o with
        | none => exact pure
        | some b => exact ih b v (hnext a b u v hu hv)
  exact look rfl (hgo s.rest a s hs)

/-- A loop pays if each step pays wherever it is done. -/
theorem loop {a : α} {step : α → Rule (Option α)} (h : ∀ a u, Pays 0 False endless (step a) u) :
    Pays 0 False endless (Grammar.repeatedly a step) s :=
  repeatedly (I := fun _ => True) trivial (fun a u _ => h a u) fun _ _ _ _ _ _ => trivial

end Pays

end Lox.Grammar
