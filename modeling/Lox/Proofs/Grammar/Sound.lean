import Lox.Grammar.Rules

/-!
What can be said of a rule that notes no fault: the tokens it reads stand in a relation to what it
makes of them and to the tokens behind. The lemmas follow the ways in which rules are put together.
-/

namespace Lox.Grammar

variable {α β : Type}

theorem bind_apply (x : Rule α) (f : α → Rule β) (s : State) :
    (x >>= f) s = match x s with
      | .ok a t => f a t
      | .error e t => .error e t := by
  simp only [bind, EStateM.bind]
  cases x s <;> rfl

theorem bind_eq_ok {x : Rule α} {f : α → Rule β} {s u : State} {b : β}
    (h : (x >>= f) s = .ok b u) : ∃ a t, x s = .ok a t ∧ f a t = .ok b u := by
  rw [bind_apply] at h
  cases hx : x s with
  | error e t => rw [hx] at h; cases h
  | ok a t => rw [hx] at h; exact ⟨a, t, rfl, h⟩

theorem bind_eq_error {x : Rule α} {f : α → Rule β} {s u : State} {e : Halt}
    (h : (x >>= f) s = .error e u) :
    x s = .error e u ∨ ∃ a t, x s = .ok a t ∧ f a t = .error e u := by
  rw [bind_apply] at h
  cases hx : x s with
  | error e' t => rw [hx] at h; cases h; exact .inl rfl
  | ok a t => rw [hx] at h; exact .inr ⟨a, t, rfl, h⟩

/-- The state behind a rule, however it ends. -/
def State.behind (r : Rule α) (s : State) : State :=
  match r s with
  | .ok _ t => t
  | .error _ t => t

/-- A rule that notes no fault reads tokens that stand in the relation `D` to the tokens behind them
and to what is made of them. Faults noted before are kept, so that a rule made of several notes none
only if its parts do not. -/
structure Sound (D : List Token → List Token → α → Prop) (r : Rule α) : Prop where
  keeps : ∀ s : State, ∃ fs, (s.behind r).faults = s.faults ++ fs
  reads : ∀ {s a t}, r s = .ok a t → t.faults = s.faults →
    ∃ ts, s.rest = ts ++ t.rest ∧ D ts t.rest a

namespace Sound

variable {D E : List Token → List Token → α → Prop} {F : List Token → List Token → β → Prop}

theorem mono {r : Rule α} (h : Sound D r) (hi : ∀ ts rest a, D ts rest a → E ts rest a) :
    Sound E r := by
  refine ⟨h.keeps, fun hr hf => ?_⟩
  obtain ⟨ts, hs, hd⟩ := h.reads hr hf
  exact ⟨ts, hs, hi _ _ _ hd⟩

theorem pure {a : α} (h : ∀ rest, D [] rest a) : Sound D (pure a) := by
  refine ⟨fun s => ⟨#[], by simp [State.behind, Pure.pure, EStateM.pure]⟩, fun {s b t} hr _ => ?_⟩
  cases hr
  exact ⟨[], rfl, h _⟩

/-- The second of two rules knows what the first has read. -/
theorem bind {x : Rule α} {f : α → Rule β} (hx : Sound D x)
    (hf : ∀ a us, Sound (fun vs rest b => D us (vs ++ rest) a → F (us ++ vs) rest b) (f a)) :
    Sound F (x >>= f) := by
  constructor
  · intro s
    obtain ⟨fs, hfs⟩ := hx.keeps s
    simp only [State.behind] at hfs
    simp only [State.behind, bind_apply]
    cases hs : x s with
    | error e t =>
        rw [hs] at hfs
        exact ⟨fs, hfs⟩
    | ok a t =>
        rw [hs] at hfs
        obtain ⟨gs, hgs⟩ := (hf a []).keeps t
        exact ⟨fs ++ gs, by rw [← Array.append_assoc, ← hfs]; exact hgs⟩
  · intro s b u hr hu
    obtain ⟨a, t, hs, hr⟩ := bind_eq_ok hr
    obtain ⟨fs, hfs⟩ := hx.keeps s
    obtain ⟨gs, hgs⟩ := (hf a []).keeps t
    simp only [State.behind, hs] at hfs
    simp only [State.behind, hr] at hgs
    have hsize : fs.size + gs.size = 0 := by
      have := congrArg Array.size hu
      rw [hgs, hfs, Array.size_append, Array.size_append] at this
      omega
    have hf0 : fs = #[] := Array.eq_empty_of_size_eq_zero (by omega)
    have ht : t.faults = s.faults := by rw [hfs, hf0, Array.append_empty]
    obtain ⟨us, hus, hd⟩ := hx.reads hs ht
    obtain ⟨vs, hvs, hb⟩ := (hf a us).reads hr (hu.trans ht.symm)
    rw [hvs] at hd hus
    exact ⟨us ++ vs, by rw [hus, List.append_assoc], hb hd⟩

theorem get {f : State → Rule β}
    (h : ∀ s : State, Sound (fun ts rest b => s.rest = ts ++ rest → F ts rest b) (f s)) :
    Sound F (get >>= f) := by
  constructor
  · intro s
    exact (h s).keeps s
  · intro s b t hr hu
    obtain ⟨ts, hts, hf⟩ := (h s).reads hr hu
    exact ⟨ts, hts, hf hts⟩

/-- A rule that succeeds nowhere or notes a fault for certain may be taken to read anything. -/
theorem of_never {r : Rule α} (hk : ∀ s : State, ∃ fs, (s.behind r).faults = s.faults ++ fs)
    (hn : ∀ {s a t}, r s = .ok a t → t.faults ≠ s.faults) : Sound D r :=
  ⟨hk, fun hr hu => absurd hu (hn hr)⟩

theorem refuse (cause : Found → SyntaxCause) : Sound D (refuse cause) := by
  refine of_never (fun s => ⟨#[], by simp [State.behind, Grammar.refuse]⟩) fun hr => ?_
  cases hr

theorem throw (e : Halt) : Sound D (throw e) := by
  refine of_never (fun s => ⟨#[], Array.append_empty.symm⟩) fun hr => ?_
  cases hr

theorem note {f : State → Nat} {cause : SyntaxCause} {r : Rule α}
    (h : Sound (fun _ _ _ => True) r) :
    Sound D (do (fun s => .ok () (s.note (f s) cause) : Rule Unit); r) := by
  refine of_never (fun s => ?_) fun {s a t} hr hu => ?_
  · obtain ⟨fs, hfs⟩ := h.keeps (s.note (f s) cause)
    exact ⟨#[⟨f s, cause⟩] ++ fs, by rw [← Array.append_assoc]; exact hfs⟩
  · obtain ⟨fs, hfs⟩ := h.keeps (s.note (f s) cause)
    have hr : r (s.note (f s) cause) = .ok a t := hr
    simp only [State.behind, hr] at hfs
    have := congrArg Array.size (hfs.symm.trans hu)
    simp only [State.note, Array.size_append, Array.size_push] at this
    omega

/-! ### Single tokens -/

theorem acceptMap {f : Token → Option α} {D : List Token → List Token → Option α → Prop}
    (hs : ∀ t rest a, f t = some a → D [t] rest (some a))
    (hn : ∀ rest, (∀ t ∈ rest.head?, f t = none) → D [] rest none) : Sound D (acceptMap f) := by
  constructor
  · intro s
    refine ⟨#[], ?_⟩
    simp only [State.behind, Grammar.acceptMap]
    cases s.rest with
    | nil => simp
    | cons t ts => cases h : f t <;> simp [State.drop, h]
  · intro s a t hr _
    rw [Grammar.acceptMap] at hr
    cases hs' : s.rest with
    | nil =>
        rw [hs'] at hr
        cases hr
        exact ⟨[], by simp [hs'], hn _ (by simp [hs'])⟩
    | cons u us =>
        cases hu : f u with
        | none =>
            simp only [hs', hu] at hr
            cases hr
            exact ⟨[], by simp [hs'], hn _ (by simp [hs', hu])⟩
        | some b =>
            simp only [hs', hu] at hr
            cases hr
            exact ⟨[u], by simp [State.drop, hs'], hs _ _ _ hu⟩

/-- A rule that may start with a token of some kinds goes on with it or without it. -/
theorem acceptIf {p : Kind → Bool} {f : Option Token → Rule β}
    (hs : ∀ t, Sound (fun vs rest b => p t.kind = true → F (t :: vs) rest b) (f (some t)))
    (hn : Sound (fun vs rest b => (∀ t ∈ (vs ++ rest).head?, p t.kind = false) → F vs rest b)
      (f none)) : Sound F (acceptIf p >>= f) := by
  refine bind (D := fun us rest o =>
    (∀ t, o = some t → us = [t] ∧ p t.kind = true) ∧
      (o = none → us = [] ∧ ∀ t ∈ rest.head?, p t.kind = false))
    (acceptMap (fun t rest a h => ?_) fun rest h => ?_) fun o us => ?_
  · obtain ⟨hp, ht⟩ := Option.ite_none_right_eq_some.mp h
    cases ht
    exact ⟨fun u hu => by cases hu; exact ⟨rfl, hp⟩, fun hu => by cases hu⟩
  · exact ⟨fun u hu => (by cases hu), fun _ => ⟨rfl, fun t ht => by simpa using h t ht⟩⟩
  · cases o with
    | none =>
        refine hn.mono fun vs rest b hb ho => ?_
        obtain ⟨rfl, hk⟩ := ho.2 rfl
        exact hb hk
    | some t =>
        refine (hs t).mono fun vs rest b hb ho => ?_
        obtain ⟨rfl, hk⟩ := ho.1 t rfl
        exact hb hk

theorem accept {k : Kind} {f : Option Token → Rule β}
    (hs : ∀ t, Sound (fun vs rest b => t.kind = k → F (t :: vs) rest b) (f (some t)))
    (hn : Sound (fun vs rest b => (∀ t ∈ (vs ++ rest).head?, t.kind ≠ k) → F vs rest b)
      (f none)) : Sound F (accept k >>= f) :=
  acceptIf (fun t => (hs t).mono fun _ _ _ hb ht => hb (of_decide_eq_true ht))
    (hn.mono fun _ _ _ hb hk => hb fun t ht => of_decide_eq_false (hk t ht))

theorem token (k : Kind) (wanted : Wanted) :
    Sound (fun us _ t => us = [t] ∧ t.kind = k) (Grammar.expect k wanted) :=
  accept (fun _ => pure fun _ ht => ⟨rfl, ht⟩) (refuse _)

theorem expect {k : Kind} {wanted : Wanted} {f : Token → Rule β}
    (h : ∀ t, Sound (fun vs rest b => t.kind = k → F (t :: vs) rest b) (f t)) :
    Sound F (expect k wanted >>= f) := by
  refine bind (token k wanted) fun t us => (h t).mono fun vs rest b hb ht => ?_
  obtain ⟨rfl, hk⟩ := ht
  exact hb hk

theorem ahead {k : Kind} {D : List Token → List Token → Bool → Prop}
    (h : ∀ rest, D [] rest (rest.head?.any (·.kind = k))) : Sound D (ahead k) := by
  constructor
  · intro s
    refine ⟨#[], ?_⟩
    simp only [State.behind, Grammar.ahead]
    cases s.rest <;> simp
  · intro s b t hr _
    rw [Grammar.ahead] at hr
    have h := h s.rest
    cases hs : s.rest with
    | nil =>
        simp only [hs] at hr h
        cases hr
        exact ⟨[], by simp [hs], by simpa [hs] using h⟩
    | cons u us =>
        simp only [hs] at hr h
        cases hr
        exact ⟨[], by simp [hs], by simpa [hs] using h⟩

theorem atEnd {D : List Token → List Token → Bool → Prop} (h : ∀ rest, D [] rest rest.isEmpty) :
    Sound D atEnd := by
  refine ⟨fun s => ⟨#[], by simp [State.behind, Grammar.atEnd]⟩, fun {s b t} hr _ => ?_⟩
  cases hr
  exact ⟨[], rfl, h _⟩

theorem freshId {D : List Token → List Token → Nat → Prop} (h : ∀ rest i, D [] rest i) :
    Sound D freshId := by
  refine ⟨fun s => ⟨#[], by simp [State.behind, Grammar.freshId]⟩, fun {s b t} hr _ => ?_⟩
  cases hr
  exact ⟨[], rfl, h _ _⟩

/-! ### Rules inside rules -/

theorem nested {what : Nesting} {r : Rule α} (h : Sound D r) : Sound D (nested what r) := by
  constructor
  · intro s
    obtain ⟨fs, hfs⟩ := h.keeps { s with depth := s.depth + 1 }
    simp only [State.behind] at hfs
    simp only [State.behind, Grammar.nested]
    by_cases hd : maxDepth ≤ s.depth
    · exact ⟨#[], by simp [if_pos hd, Grammar.refuse]⟩
    · rw [if_neg hd]
      refine ⟨fs, ?_⟩
      cases hr : r { s with depth := s.depth + 1 } <;> rw [hr] at hfs <;> exact hfs
  · intro s a t hr ht
    simp only [Grammar.nested] at hr
    split at hr
    · cases hr
    · cases hs : r { s with depth := s.depth + 1 } with
      | error e u => rw [hs] at hr; cases hr
      | ok b u =>
          rw [hs] at hr
          cases hr
          obtain ⟨ts, hts, hd⟩ := h.reads hs ht
          exact ⟨ts, hts, hd⟩

/-- Recovery notes a fault, so a declaration read without one is read by the rule itself. -/
theorem recovering {r : Rule α} {D : List Token → List Token → Option α → Prop}
    (h : Sound (fun ts rest a => D ts rest (some a)) r) : Sound D (recovering r) := by
  constructor
  · intro s
    obtain ⟨fs, hfs⟩ := h.keeps s
    simp only [State.behind] at hfs
    simp only [State.behind, Grammar.recovering]
    cases hr : r s with
    | ok a t => exact ⟨fs, by simpa [hr] using hfs⟩
    | error e t =>
        rw [hr] at hfs
        cases e with
        | endless => exact ⟨fs, hfs⟩
        | refused f =>
            refine ⟨fs ++ #[f], ?_⟩
            rw [← Array.append_assoc, ← hfs, Array.append_singleton]
            rfl
  · intro s o t hr ht
    obtain ⟨fs, hfs⟩ := h.keeps s
    simp only [State.behind] at hfs
    simp only [Grammar.recovering] at hr
    cases hs : r s with
    | ok a u =>
        rw [hs] at hr
        cases hr
        exact h.reads hs ht
    | error e u =>
        rw [hs] at hr hfs
        cases e with
        | endless => cases hr
        | refused f =>
            cases hr
            have := congrArg Array.size ht
            simp only [State.recover, State.drop, hfs, Array.size_push, Array.size_append] at this
            omega

/-- A loop keeps `I` between what it has read and what it has made of it, and stops where `G` holds
of the tokens ahead. Its steps read something each, so they cannot outlast the tokens. -/
theorem repeatedly {I : List Token → α → Prop} {G : List Token → Prop} {a : α}
    {f : α → Rule (Option α)} (h0 : I [] a) (hG : G [])
    (hstep : ∀ a us, Sound (fun vs rest o => I us a →
      (∀ b, o = some b → vs ≠ [] ∧ I (us ++ vs) b) ∧ (o = none → vs = [] ∧ G rest)) (f a)) :
    Sound (fun ts rest b => I ts b ∧ G rest) (repeatedly a f) := by
  have hgo (bound : List Token) : ∀ a us, Sound (fun vs rest b => I us a →
      (vs ++ rest).length ≤ bound.length → I (us ++ vs) b ∧ G rest)
      (Grammar.repeatedly.go f bound a) := by
    induction bound with
    | nil =>
        intro a us
        refine pure fun rest hi hl => ?_
        obtain rfl : rest = [] := List.eq_nil_of_length_eq_zero (Nat.le_zero.mp hl)
        simpa using ⟨hi, hG⟩
    | cons t bound ih =>
        intro a us
        refine bind (hstep a us) fun o vs => ?_
        cases o with
        | none =>
            refine pure fun rest ho hi _ => ?_
            obtain ⟨rfl, hg⟩ := (ho hi).2 rfl
            simpa using ⟨hi, hg⟩
        | some b =>
            refine (ih b (us ++ vs)).mono fun ws rest c hc ho hi hl => ?_
            obtain ⟨hv, hb⟩ := (ho hi).1 b rfl
            have hpos := List.length_pos_iff.mpr hv
            rw [← List.append_assoc]
            exact hc hb (by simp only [List.length_append, List.length_cons] at hl ⊢; omega)
  refine get fun s => (hgo s.rest a []).mono fun ts rest b h hs => ?_
  exact h h0 (Nat.le_of_eq (congrArg List.length hs.symm))

end Sound

end Lox.Grammar
