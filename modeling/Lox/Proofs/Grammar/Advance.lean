import Lox.Proofs.Grammar.Calls

/-!
Every declaration reads on, but one that is stuck. A declaration that is refused may have read
nothing, and recovery may pass over nothing; both happen at once only where no level is left for a
statement that starts with its keyword. So a reading goes on for ever only if the body of a block is
met in front of such a statement.
-/

namespace Lox.Grammar

variable {α : Type} {n : Nat} {s t : State}

/-! ### Recovery -/

theorem toBoundary_le (ts : List Token) : toBoundary ts ≤ ts.length := by
  induction ts with
  | nil => exact Nat.le_refl _
  | cons t ts ih =>
      rw [toBoundary, List.length_cons]
      split
      · omega
      · split <;> omega

theorem startsStatement_iff {k : Kind} : startsStatement k = true ↔
    ∃ kw ∈ [Keyword.kwClass, .kwFun, .kwVar] ++ [.kwPrint, .kwIf, .kwWhile, .kwFor, .kwReturn],
      k = .keyword kw := by
  cases k with
  | keyword kw => cases kw <;> simp [startsStatement]
  | _ => simp [startsStatement]

/-- Recovery passes over something, unless a keyword is next that starts a statement. -/
theorem toBoundary_pos {t : Token} (ts : List Token) (h : startsStatement t.kind = false) :
    0 < toBoundary (t :: ts) := by
  rw [toBoundary]
  split
  · exact Nat.one_pos
  · rw [if_neg (by rw [h]; decide)]
    exact Nat.succ_pos _

theorem toBoundary_eq_zero {t : Token} (ts : List Token) (h : startsStatement t.kind = true) :
    toBoundary (t :: ts) = 0 := by
  obtain ⟨kw, -, hk⟩ := startsStatement_iff.mp h
  rw [toBoundary, if_neg (by rw [hk]; simp), if_pos h]

theorem Paid.recover (s : State) : Paid (toBoundary s.rest) s s.recover :=
  Paid.drop (toBoundary_le s.rest)

theorem Paid.push (s : State) (c : Fault SyntaxCause) :
    Paid (-1) s { s with faults := s.faults.push c } :=
  Paid.note s c.line c.cause

theorem recovering_ok {r : Rule α} {o : Option α} (h : recovering r s = .ok o t) :
    (∃ a, r s = .ok a t) ∨
      ∃ c u, r s = .error (.refused c) u ∧ t = { u with faults := u.faults.push c }.recover := by
  rw [recovering] at h
  split at h
  · next a u hr => cases h; exact .inl ⟨a, hr⟩
  · next c u hr => cases h; exact .inr ⟨c, u, hr, rfl⟩
  · cases h

theorem recovering_error {r : Rule α} {e : Halt} (h : recovering r s = .error e t) :
    e = .endless ∧ r s = .error .endless t := by
  rw [recovering] at h
  split at h
  · cases h
  · cases h
  · next u hr => cases h; exact ⟨rfl, hr⟩

theorem get_bind_apply (g : State → Rule α) (s : State) : (get >>= g) s = g s s := rfl

theorem nextDeclaration_apply (inner : Rules) (read : Array Stmt) (s : State) :
    nextDeclaration inner read s = match declaration inner s with
      | .ok o t =>
        if t.position = s.position then .error .endless t else .ok (o.elim read read.push) t
      | .error e t => .error e t := by
  rw [nextDeclaration, get_bind_apply, bind_apply]
  cases declaration inner s with
  | error e t => rfl
  | ok o t =>
      simp only [get_bind_apply]
      by_cases ht : t.position = s.position <;> simp only [ht] <;> rfl

theorem nextDeclaration_ok {inner : Rules} {read b : Array Stmt}
    (h : nextDeclaration inner read s = .ok b t) :
    ∃ o, declaration inner s = .ok o t ∧ t.position ≠ s.position := by
  rw [nextDeclaration_apply] at h
  split at h
  · next o u hr =>
    split at h
    · cases h
    · next hne => cases h; exact ⟨o, hr, hne⟩
  · cases h

theorem nextDeclaration_error {inner : Rules} {read : Array Stmt} {e : Halt}
    (h : nextDeclaration inner read s = .error e t) : e = .endless := by
  rw [nextDeclaration_apply] at h
  split at h
  · split at h
    · cases h; rfl
    · cases h
  · next e' u hr =>
    cases h
    exact (recovering_error hr).1

theorem nextMethod_ok {inner : Rules} {read b : Array Function}
    (h : nextMethod inner read s = .ok b t) : ∃ f, function inner .method s = .ok f t := by
  obtain ⟨f, u, hf, hu⟩ := bind_eq_ok h
  cases hu
  exact ⟨f, hf⟩

/-! ### What is read at a site -/

namespace Pays

variable {k : Int} {idle : Prop} {r : Rule α} {c c' : Call}

theorem meets (h : Pays k idle c'.Blocked r s) (hm : c.Meets c') : Pays k idle c.Blocked r s :=
  h.mono (Int.le_refl _) id (Call.Blocked.of_meets hm)

theorem asks (h : Pays k idle c'.Blocked r s) (ha : c.Asks c') : Pays k idle c.Blocked r s :=
  h.meets (.single ha)

end Pays

/-- With `n` levels left, statements and blocks pay. Only a statement for which no level is left is
refused in front of its keyword. -/
structure StatementsPay (n : Nat) : Prop where
  statement : ∀ s : State, s.depth + n = maxDepth →
    Pays 1 (s.Leads → n = 0) (Call.mk .statement n s).Blocked (rules n).statement s
  block : ∀ s : State, s.depth + n = maxDepth →
    Pays 0 False (Call.mk .block n s).Blocked (rules n).block s

/-- A loop up to where a series closes pays if it pays for what it repeats. -/
theorem Series.pays {p : Series} {item : α → Rule α} {site : Site} {a : α}
    (hs : s.depth + n = maxDepth)
    (hitem : ∀ a u, u.depth + n = maxDepth → ¬p.Closes u →
      Pays 0 False (Call.mk site n u).Blocked (item a) u)
    (hnext : ∀ a b u t, ¬p.Closes u → item a u = .ok b t → (Call.mk site n u).Asks ⟨site, n, t⟩) :
    Pays 0 False (Call.mk site n s).Blocked (repeatedly a (p.round item)) s := by
  have hround (a : α) (u : State) (hu : u.depth + n = maxDepth) :
      Pays 0 False (Call.mk site n u).Blocked (p.round item a) u := by
    rw [Pays]
    by_cases hc : p.Closes u
    · rw [Series.round_of_closes hc]
      exact Paid.refl u
    · rw [Series.round_of_not_closes hc]
      exact (hitem a u hu hc).bind fun _ _ _ _ => Pays.pure
  refine Pays.repeatedly
    (I := fun u => (Call.mk site n s).Meets ⟨site, n, u⟩ ∧ u.depth + n = maxDepth)
    ⟨.refl, hs⟩ (fun a u hu => (hround a u hu.2).meets hu.1) fun a b u t hu ht => ?_
  obtain ⟨hc, hb⟩ := Series.round_eq_some ht
  refine ⟨hu.1.tail (hnext a b u t hc hb), ?_⟩
  rw [((hround a u hu.2).ok ht).depth, hu.2]

section

variable (h : StatementsPay n) (hs : s.depth + n = maxDepth)

include h hs

theorem function_pays (c : Callee) :
    Pays 1 True (Call.mk (.function c) n s).Blocked (function (rules n) c) s := by
  rw [function_eq]
  refine (functionHead_pays c).bind fun head t ht hp => ?_
  have ht' : t.depth + n = maxDepth := by rw [hp.depth, hs]
  exact ((h.block t ht').asks (.body ht)).bind fun _ _ _ _ => Pays.pure

theorem methods_pay (read : Array Function) :
    Pays 0 False (Call.mk .methods n s).Blocked (methods (rules n) read) s := by
  refine Series.pays hs (fun read u hu hc => ?_) fun read b u t hc ht => ?_
  · exact ((function_pays h hu .method).asks (.method hc)).skip fun _ _ _ _ => Pays.pure
  · obtain ⟨f, hf⟩ := nextMethod_ok ht
    exact .otherMethods hc hf

theorem classRest_pays (hk : s.At (.keyword .kwClass)) :
    Pays 0 False (Call.mk .declaration n s).Blocked (classRest (rules n)) (s.drop 1) := by
  rw [classRest_eq]
  refine classHead_pays.bind fun name t ht hp => ?_
  have ht' : t.depth + n = maxDepth := by rw [hp.depth]; exact hs
  refine ((methods_pay h ht' #[]).asks (.methods hk ht)).bind fun read _ _ _ => ?_
  exact Pays.token.skip fun _ _ _ _ => Pays.pure

theorem declarationRule_pays : Pays 1
    ((∀ k ∈ [Keyword.kwClass, .kwFun, .kwVar], ¬s.At (.keyword k)) ∧ (s.Leads → n = 0))
    (Call.mk .declaration n s).Blocked (declarationRule (rules n)) s := by
  refine Pays.accept (fun _ hk => classRest_pays h hs hk) (fun hclass => ?_)
  refine Pays.accept (fun _ hk => ?_) (fun hfun => ?_)
  · have hs' : (s.drop 1).depth + n = maxDepth := hs
    exact ((function_pays h hs' .function).asks (.function hk)).skip fun _ _ _ _ =>
      Pays.pure
  refine Pays.accept (fun _ _ => varRest_pays (expressions_pay n)) (fun hvar => ?_)
  have hk : ∀ k ∈ [Keyword.kwClass, .kwFun, .kwVar], ¬s.At (.keyword k) := by
    simp [hclass, hfun, hvar]
  exact ((h.statement s hs).asks (.statement hk)).mono (Int.le_refl _) (fun hi => ⟨hk, hi⟩) id

/-- A declaration that returns has read something, or it is stuck. -/
theorem declaration_ok {o : Option Stmt} (hne : s.rest ≠ [])
    (hr : declaration (rules n) s = .ok o t) :
    s.position < t.position ∧ Paid 0 s t ∨
      t.position = s.position ∧ s.Stuck ∧ Paid (-1) s t := by
  have hp := declarationRule_pays h hs
  rcases recovering_ok hr with ⟨a, ha⟩ | ⟨c, u, hu, rfl⟩
  · exact .inl ⟨(hp.ok ha).position_lt, (hp.ok ha).mono (by decide)⟩
  have hnoted : Paid (-1 + (toBoundary u.rest : Nat)) u
      { u with faults := u.faults.push c }.recover :=
    (Paid.push u c).trans (Paid.recover { u with faults := u.faults.push c })
  rcases hp.refused hu with hu | ⟨⟨hk, hleads⟩, hu, hpos⟩
  · refine .inl ⟨?_, (hu.trans hnoted).mono (by omega)⟩
    exact Nat.lt_of_lt_of_le hu.position_lt hnoted.position_le
  -- The rule was refused where it began, so all depends on the first token.
  obtain ⟨x, xs, hx⟩ := List.exists_cons_of_ne_nil hne
  have hux : u.rest = x :: xs := (hu.rest_eq hpos).trans hx
  cases hstart : startsStatement x.kind with
  | false =>
      have hpass : 0 < toBoundary u.rest := by rw [hux]; exact toBoundary_pos xs hstart
      refine .inl ⟨?_, (hu.trans hnoted).mono (by omega)⟩
      rw [← hpos]
      exact Nat.lt_add_of_pos_right hpass
  | true =>
      obtain ⟨kw, hkw, hxk⟩ := startsStatement_iff.mp hstart
      have hat : s.At (.keyword kw) := by rw [State.At, hx, ← hxk]; rfl
      have hlead : s.Leads :=
        ⟨kw, (List.mem_append.mp hkw).resolve_left fun hm => hk kw hm hat, hat⟩
      refine .inr ⟨?_, ⟨by rw [← hs, hleads hlead, Nat.add_zero], hlead⟩, ?_⟩
      · simp [State.recover, State.drop, hux, toBoundary_eq_zero xs hstart, hpos]
      · exact (hu.trans hnoted).mono (by omega)

theorem declaration_endless {e : Halt} (hr : declaration (rules n) s = .error e t) :
    e = .endless ∧ (Call.mk .declaration n s).Blocked := by
  obtain ⟨rfl, hr'⟩ := recovering_error hr
  exact ⟨rfl, (declarationRule_pays h hs).goes_on hr'⟩

end

section

variable (h : StatementsPay n)

include h

theorem nextDeclaration_pays {p : Series} (hl : (Call.mk (.series p) n s).Leveled)
    (hc : ¬p.Closes s) (read : Array Stmt) :
    Pays 0 False (Call.mk (.series p) n s).Blocked (nextDeclaration (rules n) read) s := by
  rw [Pays, nextDeclaration_apply]
  cases hr : declaration (rules n) s with
  | error e t =>
      obtain ⟨rfl, hb⟩ := declaration_endless h hl.levels hr
      exact hb.of_asks (.declaration hc)
  | ok o t =>
      rcases declaration_ok h hl.levels (Series.rest_ne_nil hc) hr with
        ⟨hlt, ht⟩ | ⟨hpos, hstuck, -⟩
      · simp only [if_neg (Nat.ne_of_gt hlt)]
        exact ht
      · simp only [if_pos hpos]
        exact Call.blocked_of_stuck hl hstuck

theorem declarations_pay {p : Series} (hl : (Call.mk (.series p) n s).Leveled)
    (read : Array Stmt) :
    Pays 0 False (Call.mk (.series p) n s).Blocked (declarations p (rules n) read) s := by
  refine Series.pays hl.levels (fun read u hu hc => ?_) fun read b u t hc ht => ?_
  · exact nextDeclaration_pays h ⟨hu, hl.program⟩ hc read
  · obtain ⟨o, ho⟩ := nextDeclaration_ok ht
    exact .declarations hc ho.1

theorem blockRule_pays (hs : s.depth + n = maxDepth) :
    Pays 0 False (Call.mk (.series .body) n s).Blocked (blockRule (rules n)) s := by
  rw [blockRule_eq]
  have hl : (Call.mk (.series .body) n s).Leveled := ⟨hs, nofun⟩
  refine (declarations_pay h hl #[]).bind fun body _ _ _ => ?_
  exact Pays.token.skip fun _ _ _ _ => Pays.pure

end

/-- One level further in, one level less is left. -/
theorem levels_of_deeper (hs : s.depth + (n + 1) = maxDepth) (ht : t.depth = s.depth + 1) :
    t.depth + n = maxDepth := by
  omega

section

variable (h : StatementsPay n) (hs : s.depth + (n + 1) = maxDepth)

include h hs

theorem ifRest_pays (hk : s.At (.keyword .kwIf)) :
    Pays 0 False (Call.mk .statement (n + 1) s).Blocked (ifRest (rules n)) (s.deeper.drop 1) := by
  rw [ifRest_eq]
  refine (conditionHead_pays (expressions_pay n) .kwIf .afterIfCondition).bind
    fun condition t ht hp => ?_
  have ht' := levels_of_deeper hs hp.depth
  refine ((h.statement t ht').asks (.yes hk ht)).skip fun yes u hu hp' => ?_
  refine Pays.accept (fun _ he => ?_) (fun _ => Pays.pure)
  have hu' : (u.drop 1).depth + n = maxDepth := hp'.depth.symm ▸ ht'
  exact ((h.statement _ hu').asks (.no hk ht hu he)).skip fun _ _ _ _ => Pays.pure

theorem whileRest_pays (hk : s.At (.keyword .kwWhile)) :
    Pays 0 False (Call.mk .statement (n + 1) s).Blocked (whileRest (rules n))
      (s.deeper.drop 1) := by
  rw [whileRest_eq]
  refine (conditionHead_pays (expressions_pay n) .kwWhile .afterWhileCondition).bind
    fun condition t ht hp => ?_
  have ht' := levels_of_deeper hs hp.depth
  exact ((h.statement t ht').asks (.whileBody hk ht)).skip fun _ _ _ _ => Pays.pure

theorem forRest_pays (hk : s.At (.keyword .kwFor)) :
    Pays 0 False (Call.mk .statement (n + 1) s).Blocked (forRest (rules n)) (s.deeper.drop 1) := by
  rw [forRest_eq]
  refine (forHead_pays (expressions_pay n)).bind fun clauses t ht hp => ?_
  have ht' := levels_of_deeper hs hp.depth
  exact ((h.statement t ht').asks (.forBody hk ht)).skip fun _ _ _ _ => Pays.pure

/-- Where a level is left, only a statement without a keyword is refused where it begins. -/
theorem statementRule_pays :
    Pays 1 (¬s.Leads) (Call.mk .statement (n + 1) s).Blocked (statementRule (rules n))
      s.deeper := by
  have hexpr := expressions_pay n
  refine Pays.accept (fun _ hk => forRest_pays h hs hk) (fun hfor => ?_)
  refine Pays.accept (fun _ hk => ifRest_pays h hs hk) (fun hif => ?_)
  refine Pays.accept (fun _ hk => whileRest_pays h hs hk) (fun hwhile => ?_)
  refine Pays.accept (fun kw _ => returnRest_pays hexpr kw) (fun hreturn => ?_)
  refine Pays.accept (fun _ hk => ?_) (fun _ => ?_)
  · have hs' : (s.deeper.drop 1).depth + n = maxDepth := levels_of_deeper hs rfl
    exact ((h.block _ hs').asks (.braces hk)).bind fun _ _ _ _ => Pays.pure
  refine Pays.accept (fun _ _ => printRest_pays hexpr) (fun hprint => ?_)
  refine (expressionStatement_pays hexpr).mono (Int.le_refl _) (fun _ => ?_) id
  rintro ⟨k, hk, hat⟩
  simp only [List.mem_cons, List.not_mem_nil, or_false] at hk
  rcases hk with rfl | rfl | rfl | rfl | rfl
  · exact hprint hat
  · exact hif hat
  · exact hwhile hat
  · exact hfor hat
  · exact hreturn hat

end

theorem statements_pay (n : Nat) : StatementsPay n := by
  induction n with
  | zero =>
      exact ⟨fun _ _ => Pays.refuse (.inr fun _ => rfl),
        fun _ _ => Pays.refuse (.inl (Int.le_refl _))⟩
  | succ n ih =>
      constructor
      · intro s hs
        exact Pays.nested (fun _ => statementRule_pays ih hs) (fun hn hl => absurd hl hn)
          fun hd => by omega
      · intro s hs
        have hs' : s.deeper.depth + n = maxDepth := levels_of_deeper hs rfl
        exact Pays.nested (fun _ => (blockRule_pays ih hs').asks .inside) id fun _ =>
          .inl (Int.le_refl _)

end Lox.Grammar
