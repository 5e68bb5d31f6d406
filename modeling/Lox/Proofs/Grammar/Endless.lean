import Lox.Proofs.Grammar.Advance

/-!
A reading goes on for ever if and only if it meets the body of a block that is stuck. Its loops are
bounded by the tokens ahead, and the bound is never what ends them: they do the rounds that a loop
without a bound would do.
-/

namespace Lox.Grammar

variable {α β : Type} {n : Nat} {s t : State}

/-! ### Loops without a bound -/

/-- The rounds of a loop, as long as there is one more, and how they end. -/
inductive Rounds (step : α → Rule (Option α)) : α → State → EStateM.Result Halt State α → Prop
  | last {a s t} (h : step a s = .ok none t) : Rounds step a s (.ok a t)
  | halt {a s e t} (h : step a s = .error e t) : Rounds step a s (.error e t)
  | next {a s b t r} (h : step a s = .ok (some b) t) (hr : Rounds step b t r) : Rounds step a s r

namespace Rounds

variable {step : α → Rule (Option α)} {a b : α} {r r' : EStateM.Result Halt State α}

theorem unique (h : Rounds step a s r) (h' : Rounds step a s r') : r = r' := by
  induction h with
  | last h =>
      cases h' with
      | last h' => rw [h] at h'; cases h'; rfl
      | halt h' => rw [h] at h'; cases h'
      | next h' _ => rw [h] at h'; cases h'
  | halt h =>
      cases h' with
      | last h' => rw [h] at h'; cases h'
      | halt h' => rw [h] at h'; cases h'; rfl
      | next h' _ => rw [h] at h'; cases h'
  | next h _ ih =>
      cases h' with
      | last h' => rw [h] at h'; cases h'
      | halt h' => rw [h] at h'; cases h'
      | next h' hr' => rw [h] at h'; cases h'; exact ih hr'

/-- A bound on the tokens ahead is enough if each round reads a token. -/
theorem of_repeatedly {I : State → Prop} (hlast : ∀ a u, u.rest = [] → step a u = .ok none u)
    (hless : ∀ a b u t, I u → step a u = .ok (some b) t → I t ∧ t.rest.length < u.rest.length)
    (a : α) (hs : I s) : Rounds step a s (repeatedly a step s) := by
  have hgo (bound : List Token) : ∀ a u, I u → u.rest.length ≤ bound.length →
      Rounds step a u (repeatedly.go step bound a u) := by
    induction bound with
    | nil =>
        intro a u _ hl
        exact last (hlast a u (List.eq_nil_of_length_eq_zero (Nat.le_zero.mp hl)))
    | cons x bound ih =>
        intro a u hu hl
        rw [repeatedly.go, bind_apply]
        cases hstep : step a u with
        | error e v => exact halt hstep
        | ok o v =>
            cases o with
            | none => exact last hstep
            | some b =>
                obtain ⟨hv, hlt⟩ := hless a b u v hu hstep
                rw [List.length_cons] at hl
                exact next hstep (ih b v hv (by omega))
  exact hgo s.rest a s hs (Nat.le_refl _)

/-- The loop comes from one state to another: it ends as it does from there. -/
def Lead (step : α → Rule (Option α)) (a : α) (s : State) (b : α) (t : State) : Prop :=
  ∀ r, Rounds step b t r → Rounds step a s r

theorem Lead.refl (a : α) (s : State) : Lead step a s a s := fun _ => id

theorem Lead.head {c : α} {u : State} (h : step a s = .ok (some b) t) (ht : Lead step b t c u) :
    Lead step a s c u := fun r hr => .next h (ht r hr)

end Rounds

theorem Series.rounds {p : Series} {item : α → Rule α} (a : α) (hs : s.depth + n = maxDepth)
    (hless : ∀ a b u t, u.depth + n = maxDepth → ¬p.Closes u → item a u = .ok b t →
      t.depth = u.depth ∧ t.rest.length < u.rest.length) :
    Rounds (p.round item) a s (repeatedly a (p.round item) s) := by
  refine Rounds.of_repeatedly (I := fun u => u.depth + n = maxDepth) (fun a u hu => ?_)
    (fun a b u t hu ht => ?_) a hs
  · exact Series.round_of_closes (Series.closes_of_nil hu)
  · obtain ⟨hc, hb⟩ := Series.round_eq_some ht
    obtain ⟨hd, hlt⟩ := hless a b u t hu hc hb
    exact ⟨hd ▸ hu, hlt⟩

theorem declarations_rounds (p : Series) (read : Array Stmt) (hs : s.depth + n = maxDepth) :
    Rounds (p.round (nextDeclaration (rules n))) read s (declarations p (rules n) read s) := by
  refine Series.rounds read hs fun read b u t hu hc ht => ?_
  obtain ⟨o, ho, hne⟩ := nextDeclaration_ok ht
  rcases declaration_ok (statements_pay n) hu (Series.rest_ne_nil hc) ho with ⟨hlt, hp⟩ | ⟨hpos, -⟩
  · have := hp.position
    exact ⟨hp.depth, by omega⟩
  · exact absurd hpos hne

/-- The declarations of a program come from one state to another. -/
abbrev ProgramLead : Array Stmt → State → Array Stmt → State → Prop :=
  Rounds.Lead (Series.program.round (nextDeclaration (rules maxDepth)))

theorem ProgramLead.next {read all all' : Array Stmt} {u : State} (hs : s.rest ≠ [])
    (h : nextDeclaration (rules maxDepth) read s = .ok all t) (ht : ProgramLead all t all' u) :
    ProgramLead read s all' u := by
  refine Rounds.Lead.head ?_ ht
  rw [Series.round_of_not_closes (show ¬Series.program.Closes s from hs), bind_apply, h]
  rfl

theorem methods_rounds (read : Array Function) (hs : s.depth + n = maxDepth) :
    Rounds (Series.body.round (nextMethod (rules n))) read s (methods (rules n) read s) := by
  refine Series.rounds read hs fun read b u t hu hc ht => ?_
  obtain ⟨f, hf⟩ := nextMethod_ok ht
  have hp := (function_pays (statements_pay n) hu .method).ok hf
  exact ⟨hp.depth, hp.length_lt⟩

/-! ### Levels -/

theorem conditionHead_depth {k : Keyword} {place : Place} {e : Expr}
    (h : conditionHead (rules n) k place s = .ok e t) : t.depth = s.depth := by
  have hp : Pays 0 False False (conditionHead (rules n) k place) s :=
    conditionHead_pays (expressions_pay n) k place
  exact (hp.ok h).depth

namespace Call

theorem Asks.leveled {c c' : Call} (ha : c.Asks c') (hc : c.Leveled) : c'.Leveled := by
  have hl := hc.levels
  cases ha with
  | declaration => exact ⟨hl, nofun⟩
  | @declarations p n s o t hs h =>
      refine ⟨?_, hc.program⟩
      rcases declaration_ok (statements_pay n) hl (Series.rest_ne_nil hs) h with
        ⟨-, hp⟩ | ⟨-, -, hp⟩
      · exact hp.depth ▸ hl
      · exact hp.depth ▸ hl
  | function => exact ⟨hl, nofun⟩
  | @methods n s name t _ h =>
      have hp : Pays 0 False False classHead (s.drop 1) := classHead_pays
      exact ⟨(hp.ok h).depth ▸ hl, nofun⟩
  | statement => exact ⟨hl, nofun⟩
  | method => exact ⟨hl, nofun⟩
  | @otherMethods n s f t _ h =>
      have hp := function_pays (statements_pay n) hl .method
      exact ⟨(hp.ok h).depth ▸ hl, nofun⟩
  | @body c n s head t h =>
      have hp : Pays 1 True False (functionHead c) s := functionHead_pays c
      exact ⟨(hp.ok h).depth ▸ hl, nofun⟩
  | inside => exact ⟨levels_of_deeper hl rfl, nofun⟩
  | braces => exact ⟨levels_of_deeper hl rfl, nofun⟩
  | yes _ h => exact ⟨levels_of_deeper hl (conditionHead_depth h), nofun⟩
  | no _ h hy _ =>
      have ht := levels_of_deeper hl (conditionHead_depth h)
      exact ⟨(((statements_pay _).statement _ ht).ok hy).depth ▸ ht, nofun⟩
  | whileBody _ h => exact ⟨levels_of_deeper hl (conditionHead_depth h), nofun⟩
  | @forBody n s clauses t _ h =>
      have hp : Pays 0 False False (forHead (rules n)) (s.deeper.drop 1) :=
        forHead_pays (expressions_pay n)
      exact ⟨levels_of_deeper hl (hp.ok h).depth, nofun⟩

theorem Meets.leveled {c c' : Call} (hm : c.Meets c') (hc : c.Leveled) : c'.Leveled := by
  induction hm with
  | refl => exact hc
  | tail _ ha ih => exact ha.leveled ih

end Call

/-! ### Readings that go on for ever -/

/-- The rule goes on for ever. -/
def GoesOn (r : Rule α) (s : State) : Prop := ∃ t, r s = .error .endless t

namespace GoesOn

variable {x r : Rule α} {f : α → Rule β}

theorem first (h : GoesOn x s) : GoesOn (x >>= f) s := by
  obtain ⟨t, ht⟩ := h
  exact ⟨t, by rw [bind_apply, ht]⟩

theorem second {a : α} (hx : x s = .ok a t) (h : GoesOn (f a) t) : GoesOn (x >>= f) s := by
  obtain ⟨u, hu⟩ := h
  exact ⟨u, by rw [bind_apply, hx]; exact hu⟩

theorem accept_at {k : Kind} {g : Option Token → Rule β} (hk : s.At k)
    (h : ∀ t, GoesOn (g (some t)) (s.drop 1)) : GoesOn (accept k >>= g) s := by
  obtain ⟨t, ht⟩ := accept_of_at hk
  exact second ht (h t)

theorem accept_not_at {k : Kind} {g : Option Token → Rule β} (hk : ¬s.At k)
    (h : GoesOn (g none) s) : GoesOn (accept k >>= g) s :=
  second (accept_of_not_at hk) h

theorem nested {what : Nesting} (hs : s.depth + (n + 1) = maxDepth) (h : GoesOn r s.deeper) :
    GoesOn (nested what r) s := by
  obtain ⟨t, ht⟩ := h
  refine ⟨{ t with depth := t.depth - 1 }, ?_⟩
  rw [State.deeper] at ht
  rw [Grammar.nested, if_neg (by omega), ht]

theorem recovering (h : GoesOn r s) : GoesOn (recovering r) s := by
  obtain ⟨t, ht⟩ := h
  exact ⟨t, by rw [Grammar.recovering, ht]⟩

end GoesOn

namespace Series

variable {p : Series} {item : α → Rule α} {a b : α}

theorem goesOn_item (hr : Rounds (p.round item) a s (repeatedly a (p.round item) s))
    (hc : ¬p.Closes s) (h : GoesOn (item a) s) : GoesOn (repeatedly a (p.round item)) s := by
  obtain ⟨t, ht⟩ := h
  have hround : p.round item a s = .error .endless t := by
    rw [round_of_not_closes hc, bind_apply, ht]
  exact ⟨t, hr.unique (.halt hround)⟩

theorem goesOn_next (hr : Rounds (p.round item) a s (repeatedly a (p.round item) s))
    (hc : ¬p.Closes s) (hb : item a s = .ok b t)
    (ht : Rounds (p.round item) b t (repeatedly b (p.round item) t))
    (h : GoesOn (repeatedly b (p.round item)) t) : GoesOn (repeatedly a (p.round item)) s := by
  obtain ⟨u, hu⟩ := h
  have hround : p.round item a s = .ok (some b) t := by
    rw [round_of_not_closes hc, bind_apply, hb]
    rfl
  exact ⟨u, (hr.unique (.next hround ht)).trans hu⟩

end Series

namespace Call

/-- Reading at the site goes on for ever. -/
def Endless : Call → Prop
  | ⟨.series p, n, s⟩ => ∀ read, GoesOn (declarations p (rules n) read) s
  | ⟨.declaration, n, s⟩ => GoesOn (Grammar.declaration (rules n)) s
  | ⟨.statement, n, s⟩ => GoesOn (rules n).statement s
  | ⟨.block, n, s⟩ => GoesOn (rules n).block s
  | ⟨.function c, n, s⟩ => GoesOn (Grammar.function (rules n) c) s
  | ⟨.methods, n, s⟩ => ∀ read, GoesOn (Grammar.methods (rules n) read) s

/-- What goes on for ever at a site does so wherever that site is asked for. -/
theorem Asks.endless {c c' : Call} (ha : c.Asks c') (hc : c.Leveled) (h : c'.Endless) :
    c.Endless := by
  have hl := hc.levels
  have hl' := (ha.leveled hc).levels
  cases ha with
  | @declaration p n s hs =>
      intro read
      obtain ⟨t, ht⟩ : GoesOn (Grammar.declaration (rules n)) s := h
      refine Series.goesOn_item (declarations_rounds p read hl) hs ⟨t, ?_⟩
      rw [nextDeclaration_apply, ht]
  | @declarations p n s o t hs ho =>
      intro read
      by_cases hpos : t.position = s.position
      · refine Series.goesOn_item (declarations_rounds p read hl) hs ⟨t, ?_⟩
        rw [nextDeclaration_apply, ho]
        exact if_pos hpos
      · refine Series.goesOn_next (declarations_rounds p read hl) hs ?_
          (declarations_rounds p (o.elim read read.push) hl') (h _)
        rw [nextDeclaration_apply, ho]
        exact if_neg hpos
  | @function n s hk =>
      refine GoesOn.recovering (GoesOn.accept_not_at (hk.not (by simp)) ?_)
      exact GoesOn.accept_at hk fun _ => GoesOn.first h
  | @methods n s name t hk ht =>
      refine GoesOn.recovering (GoesOn.accept_at hk fun _ => ?_)
      simp only
      rw [classRest_eq]
      exact GoesOn.second ht (GoesOn.first (h #[]))
  | @statement n s hk =>
      refine GoesOn.recovering (GoesOn.accept_not_at (hk .kwClass (by simp)) ?_)
      refine GoesOn.accept_not_at (hk .kwFun (by simp)) ?_
      exact GoesOn.accept_not_at (hk .kwVar (by simp)) h
  | @method n s hs =>
      intro read
      exact Series.goesOn_item (methods_rounds read hl) hs (GoesOn.first h)
  | @otherMethods n s f t hs hf =>
      intro read
      refine Series.goesOn_next (methods_rounds read hl) hs ?_
        (methods_rounds (read.push f) hl') (h _)
      rw [nextMethod, bind_apply, hf]
      rfl
  | @body c n s head t ht =>
      show GoesOn (Grammar.function (rules n) c) s
      rw [function_eq]
      exact GoesOn.second ht (GoesOn.first h)
  | @inside n s =>
      refine GoesOn.nested hl ?_
      rw [blockRule_eq]
      exact GoesOn.first (h #[])
  | @braces n s hk =>
      refine GoesOn.nested hl ?_
      refine GoesOn.accept_not_at (hk.not (by simp)) ?_
      refine GoesOn.accept_not_at (hk.not (by simp)) ?_
      refine GoesOn.accept_not_at (hk.not (by simp)) ?_
      refine GoesOn.accept_not_at (hk.not (by simp)) ?_
      exact GoesOn.accept_at hk fun _ => GoesOn.first h
  | @yes n s e t hk ht =>
      refine GoesOn.nested hl ?_
      refine GoesOn.accept_not_at (hk.not (by simp)) (GoesOn.accept_at hk fun _ => ?_)
      simp only
      rw [ifRest_eq]
      exact GoesOn.second ht (GoesOn.first h)
  | @no n s e t yes u hk ht hy hu =>
      refine GoesOn.nested hl ?_
      refine GoesOn.accept_not_at (hk.not (by simp)) (GoesOn.accept_at hk fun _ => ?_)
      simp only
      rw [ifRest_eq]
      exact GoesOn.second ht (GoesOn.second hy (GoesOn.accept_at hu fun _ => GoesOn.first h))
  | @whileBody n s e t hk ht =>
      refine GoesOn.nested hl ?_
      refine GoesOn.accept_not_at (hk.not (by simp)) ?_
      refine GoesOn.accept_not_at (hk.not (by simp)) (GoesOn.accept_at hk fun _ => ?_)
      simp only
      rw [whileRest_eq]
      exact GoesOn.second ht (GoesOn.first h)
  | @forBody n s clauses t hk ht =>
      refine GoesOn.nested hl (GoesOn.accept_at hk fun _ => ?_)
      simp only
      rw [forRest_eq]
      exact GoesOn.second ht (GoesOn.first h)

end Call

theorem State.Leads.starts (h : s.Leads) :
    ∃ x xs, s.rest = x :: xs ∧ startsStatement x.kind = true := by
  obtain ⟨k, hk, hat⟩ := h
  obtain ⟨x, xs, hx⟩ := List.exists_cons_of_ne_nil (List.ne_nil_of_length_pos hat.length_pos)
  rw [State.At, hx] at hat
  exact ⟨x, xs, hx, startsStatement_iff.mpr ⟨k, List.mem_append_right _ hk, Option.some.inj hat⟩⟩

/-- A declaration that is stuck is refused where it begins, and nothing is passed over. -/
theorem declaration_of_stuck (h : s.Stuck) :
    ∃ t, declaration (rules 0) s = .ok none t ∧ t.position = s.position := by
  obtain ⟨x, xs, hx, hstart⟩ := h.2.starts
  obtain ⟨k, hk, hat⟩ := h.2
  have hno (k' : Keyword) (hk' : k' ∈ [Keyword.kwClass, .kwFun, .kwVar]) : ¬s.At (.keyword k') := by
    refine hat.not fun he => ?_
    cases he
    revert hk hk'
    cases k <;> simp
  have hrule : declarationRule (rules 0) s =
      .error (.refused ⟨s.line, .tooDeep .statement s.found⟩) s := by
    rw [declarationRule, bind_apply, accept_of_not_at (hno .kwClass (by simp))]
    simp only
    rw [bind_apply, accept_of_not_at (hno .kwFun (by simp))]
    simp only
    rw [bind_apply, accept_of_not_at (hno .kwVar (by simp))]
    rfl
  refine ⟨_, by rw [declaration, recovering, hrule], ?_⟩
  simp [State.recover, State.drop, hx, toBoundary_eq_zero xs hstart]

namespace Call

theorem Endless.blocked {c : Call} (hc : c.Leveled) (h : c.Endless) : c.Blocked := by
  obtain ⟨site, n, s⟩ := c
  have hp := statements_pay n
  cases site with
  | series p =>
      obtain ⟨t, ht⟩ := h #[]
      exact (declarations_pay hp hc #[]).goes_on ht
  | declaration =>
      obtain ⟨t, ht⟩ := h
      exact (declaration_endless hp hc.levels ht).2
  | statement =>
      obtain ⟨t, ht⟩ := h
      exact (hp.statement s hc.levels).goes_on ht
  | block =>
      obtain ⟨t, ht⟩ := h
      exact (hp.block s hc.levels).goes_on ht
  | function c =>
      obtain ⟨t, ht⟩ := h
      exact (function_pays hp hc.levels c).goes_on ht
  | methods =>
      obtain ⟨t, ht⟩ := h #[]
      exact (methods_pay hp hc.levels #[]).goes_on ht

theorem endless_of_stuck (hl : s.depth + n = maxDepth) (h : s.Stuck) :
    (Call.mk (.series .body) n s).Endless := by
  have hn : n = 0 := by have := h.1; omega
  subst hn
  intro read
  obtain ⟨k, hk, hat⟩ := h.2
  have hc : ¬Series.body.Closes s := by
    rintro (hb | hnil)
    · exact hat.not (by simp) hb
    · exact absurd hat.length_pos (by simp [hnil])
  obtain ⟨t, ht, hpos⟩ := declaration_of_stuck h
  refine Series.goesOn_item (declarations_rounds .body read hl) hc ⟨t, ?_⟩
  rw [nextDeclaration_apply, ht]
  exact if_pos hpos

/-- A reading goes on for ever if and only if it meets the body of a block that is stuck. -/
theorem endless_iff_blocked {c : Call} (hc : c.Leveled) : c.Endless ↔ c.Blocked := by
  refine ⟨fun h => h.blocked hc, ?_⟩
  rintro ⟨n, u, hm, hstuck⟩
  induction hm using Relation.ReflTransGen.head_induction_on with
  | refl => exact endless_of_stuck hc.levels hstuck
  | head ha _ ih => exact ha.endless hc (ih (ha.leveled hc))

end Call

end Lox.Grammar
