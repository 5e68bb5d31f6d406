import Lox.Proofs.Renaming.Steps

/-!
Programs that mirror each other run in lockstep. The induction is on fuel, which both sides use up at
the same pace; what it says of expressions, calls and statements is put together in `Lockstep`.
-/

namespace Lox

/-- Both sides end by themselves, and `P` holds then, or with values that are alike. -/
inductive Flow.Alike (P : Twins → Prop) : Flow → Flow → Twins → Prop
  | normal {t : Twins} (h : P t) : Flow.Alike P .normal .normal t
  | returned {t : Twins} {v v' : Value} (h : v.Alike t.world v') :
      Flow.Alike P (.returned v) (.returned v') t

theorem Flow.Alike.mono {P P' : Twins → Prop} {flow flow' : Flow} {t t' : Twins}
    (h : flow.Alike P flow' t) (hP : P t → P' t') (hw : t'.world = t.world) :
    flow.Alike P' flow' t' := by
  cases h with
  | normal h => exact .normal (hP h)
  | returned h => exact .returned (hw ▸ h)

variable (host : Host)

structure Lockstep (fuel : Nat) : Prop where
  eval : ∀ {t ss σs e e'}, t.Valid → t.At ss σs → Scopes.Settled ss.tail →
    e.Mirrors t.one.hops t.two.hops ss σs e' →
    Agree t (eval host fuel e) (eval host fuel e') fun v v' t' => v.Alike t'.world v'
  evalAll : ∀ {t ss σs es es'}, t.Valid → t.At ss σs → Scopes.Settled ss.tail →
    Expr.ListMirrors t.one.hops t.two.hops ss σs es es' →
    Agree t (evalAll host fuel es) (evalAll host fuel es') fun vs vs' t' =>
      List.Forall₂ (Value.Alike t'.world) vs vs'
  apply : ∀ {t c c' args args' line}, t.Valid → c.Alike t.world c' →
    List.Forall₂ (Value.Alike t.world) args args' → c.arity = args.length →
    Agree t (apply host fuel c args line) (apply host fuel c' args' line) fun v v' t' =>
      v.Alike t'.world v'
  exec : ∀ {t ss σs s s'}, t.Valid → t.At ss σs → ss.Settled →
    s.Mirrors t.one.hops t.two.hops ss σs s' →
    Agree t (exec host fuel s) (exec host fuel s') (Flow.Alike (·.At (ss.after s) σs))
  execAll : ∀ {t ss σs body body'}, t.Valid → t.At ss σs → ss.Settled →
    Stmt.ListMirrors t.one.hops t.two.hops ss σs body body' →
    Agree t (execAll host fuel body) (execAll host fuel body') (Flow.Alike fun _ => True)

variable {host} {fuel : Nat} {t : Twins} {ss : Scopes} {σs : List Label}

theorem Lockstep.eval_succ (h : Lockstep host fuel) {e e' : Expr} (hv : t.Valid)
    (hat : t.At ss σs) (ht : Scopes.Settled ss.tail)
    (he : e.Mirrors t.one.hops t.two.hops ss σs e') :
    Agree t (Lox.eval host (fuel + 1) e) (Lox.eval host (fuel + 1) e') fun v v' t' =>
      v.Alike t'.world v' := by
  unfold Lox.eval
  cases he with
  | literal l =>
      refine .pure hv ?_
      cases l with
      | nil => exact .nil
      | boolean b => exact .boolean b
      | number x => exact .number x
      | string s => exact .string s
  | grouping he => exact h.eval hv hat ht he
  | unary op he =>
      refine .bind (h.eval hv hat ht he) fun v v' t₁ hv₁ _ ha => ?_
      exact .unary hv₁ ha
  | binary op hl hr =>
      refine .bind (h.eval hv hat ht hl) fun v v' t₁ hv₁ hg₁ ha => ?_
      rw [← hg₁.hops, ← hg₁.hops'] at hr
      refine .bind (h.eval hv₁ (hat.mono hg₁) ht hr) fun u u' t₂ hv₂ hg₂ hb => ?_
      exact .binary hv₂ (ha.mono hg₂.world) hb
  | logical op hl hr =>
      refine .bind (h.eval hv hat ht hl) fun v v' t₁ hv₁ hg₁ ha => ?_
      rw [← hg₁.hops, ← hg₁.hops'] at hr
      rw [ha.decides_eq]
      split
      · exact .pure hv₁ ha
      · exact h.eval hv₁ (hat.mono hg₁) ht hr
  | read ho hn => exact .read hv hat ht ho hn
  | assign ho he =>
      refine .bind (h.eval hv hat ht he) fun v v' t₁ hv₁ hg₁ ha => ?_
      rw [← hg₁.hops, ← hg₁.hops'] at ho
      refine .bind (.assign hv₁ (hat.mono hg₁) ho ha) fun _ _ t₂ hv₂ hg₂ _ => ?_
      exact .pure hv₂ (ha.mono hg₂.world)
  | call paren hc hargs =>
      refine .bind (h.eval hv hat ht hc) fun v v' t₁ hv₁ hg₁ ha => ?_
      rw [← hg₁.hops, ← hg₁.hops'] at hargs
      refine .bind (h.evalAll hv₁ (hat.mono hg₁) ht hargs) fun vs vs' t₂ hv₂ hg₂ hvs => ?_
      rw [← hvs.length_eq]
      refine .bind (.calleeOf hv₂ (ha.mono hg₂.world)) ?_
      rintro c c' t₃ hv₃ hg₃ ⟨hc, hl⟩
      refine .asCall hv₃ (fun t₄ hv₄ hg₄ => ?_) fun _ _ _ _ _ hQ => hQ
      exact h.apply hv₄ (hc.mono hg₄.world)
        (hvs.imp fun _ _ ha => (ha.mono hg₃.world).mono hg₄.world) hl

theorem Lockstep.evalAll_succ (h : Lockstep host fuel) {es es' : List Expr} (hv : t.Valid)
    (hat : t.At ss σs) (ht : Scopes.Settled ss.tail)
    (he : Expr.ListMirrors t.one.hops t.two.hops ss σs es es') :
    Agree t (Lox.evalAll host (fuel + 1) es) (Lox.evalAll host (fuel + 1) es') fun vs vs' t' =>
      List.Forall₂ (Value.Alike t'.world) vs vs' := by
  unfold Lox.evalAll
  cases he with
  | nil => exact .pure hv .nil
  | cons he hes =>
      refine .bind (h.eval hv hat ht he) fun v v' t₁ hv₁ hg₁ ha => ?_
      rw [← hg₁.hops, ← hg₁.hops'] at hes
      refine .bind (h.evalAll hv₁ (hat.mono hg₁) ht hes) fun vs vs' t₂ hv₂ hg₂ hvs => ?_
      exact .pure hv₂ (.cons (ha.mono hg₂.world) hvs)

theorem Lockstep.apply_succ (h : Lockstep host fuel) {c c' : Callable} {args args' : List Value}
    {line : Nat} (hv : t.Valid) (hc : c.Alike t.world c')
    (hargs : List.Forall₂ (Value.Alike t.world) args args') (hl : c.arity = args.length) :
    Agree t (Lox.apply host (fuel + 1) c args line) (Lox.apply host (fuel + 1) c' args' line)
      fun v v' t' => v.Alike t'.world v' := by
  unfold Lox.apply
  cases hc with
  | clock => exact .callNative hv
  | closure hc =>
      refine .bind (.openCall hv hc hargs hl) ?_
      rintro f f' t₁ hv₁ hg₁ ⟨rfl, ss, σs, hi, hss, hb⟩
      have hrun := h.execAll (t := t₁.moved f') { hv₁ with current := rfl } hi hss hb
      refine .bind (.within hrun hv₁.current fun flow flow' t' _ hQ => hQ.mono id rfl)
        fun flow flow' t₂ hv₂ _ hQ => ?_
      cases hQ with
      | normal => exact .pure hv₂ .nil
      | returned ha => exact .pure hv₂ ha

/-- What goes on with a value once it has been seen. -/
theorem Lockstep.seen {α β : Type} {Q : α → β → Twins → Prop} {k : Value → Eval α}
    {k' : Value → Eval β} (h : Lockstep host fuel) {e e' : Expr} (hv : t.Valid) (hat : t.At ss σs)
    (ht : Scopes.Settled ss.tail) (he : e.Mirrors t.one.hops t.two.hops ss σs e')
    (hk : ∀ v v' t', t'.Valid → t.Grows t' → v.Alike t'.world v' → Agree t' (k v) (k' v') Q) :
    Agree t (do let v ← Lox.eval host fuel e; see v; k v)
      (do let v ← Lox.eval host fuel e'; see v; k' v) Q := by
  refine .bind (h.eval hv hat ht he) fun v v' t₁ hv₁ hg₁ ha => ?_
  refine .bind (.see hv₁ ha) fun _ _ t₂ hv₂ hg₂ _ => ?_
  exact hk v v' t₂ hv₂ (hg₁.trans hg₂) (ha.mono hg₂.world)

/-- A condition holds on both sides or on none. -/
theorem Lockstep.branch {α β : Type} {Q : α → β → Twins → Prop} {x y : Eval α} {x' y' : Eval β}
    (h : Lockstep host fuel) {c c' : Expr} (hv : t.Valid) (hat : t.At ss σs)
    (ht : Scopes.Settled ss.tail) (hc : c.Mirrors t.one.hops t.two.hops ss σs c')
    (hx : ∀ t', t'.Valid → t.Grows t' → t'.At ss σs → Agree t' x x' Q)
    (hy : ∀ t', t'.Valid → t.Grows t' → t'.At ss σs → Agree t' y y' Q) :
    Agree t (do let v ← Lox.eval host fuel c; see v; if v.truthy then x else y)
      (do let v ← Lox.eval host fuel c'; see v; if v.truthy then x' else y') Q := by
  refine h.seen hv hat ht hc fun v v' t₁ hv₁ hg₁ ha => ?_
  rw [ha.truthy]
  by_cases htrue : v.truthy = true
  · rw [if_pos htrue, if_pos htrue]
    exact hx t₁ hv₁ hg₁ (hat.mono hg₁)
  · rw [if_neg htrue, if_neg htrue]
    exact hy t₁ hv₁ hg₁ (hat.mono hg₁)

theorem Lockstep.exec_succ (h : Lockstep host fuel) {s s' : Stmt} (hv : t.Valid)
    (hat : t.At ss σs) (hss : ss.Settled) (hs : s.Mirrors t.one.hops t.two.hops ss σs s') :
    Agree t (Lox.exec host (fuel + 1) s) (Lox.exec host (fuel + 1) s')
      (Flow.Alike (·.At (ss.after s) σs)) := by
  unfold Lox.exec
  cases hs with
  | expression he =>
      refine h.seen hv hat hss.tail he fun v v' t₁ hv₁ hg₁ _ => .pure hv₁ ?_
      exact .normal (hat.mono hg₁)
  | print he =>
      refine .bind (h.eval hv hat hss.tail he) fun v v' t₁ hv₁ hg₁ ha => ?_
      refine .bind (.printLine hv₁ ha) fun _ _ t₂ hv₂ hg₂ _ => .pure hv₂ ?_
      exact .normal (hat.mono (hg₁.trans hg₂))
  | declared ht =>
      exact .bind (.define hv hat ht .nil) fun _ _ t₁ hv₁ _ hat₁ => .pure hv₁ (.normal hat₁)
  | @initialized _ _ name _ _ _ ht he =>
      have hat' : t.At (ss.declare name) σs := ⟨hat.covers.declare name, hat.marks⟩
      have htail : Scopes.Settled (ss.declare name).tail := by
        rw [Scopes.declare, Scopes.tail_mark]
        exact hss.tail
      refine h.seen hv hat' htail he fun v v' t₁ hv₁ hg₁ ha => ?_
      refine .bind (.define hv₁ (hat.mono hg₁) ht ha) ?_
      exact fun _ _ t₂ hv₂ _ hat₂ => .pure hv₂ (.normal hat₂)
  | block hσ hb =>
      refine .bind (.get hv) ?_
      rintro _ _ t₁ hv₁ hg₁ ⟨rfl, rfl⟩
      refine .bind (.openFrame hv₁ (hat.mono hg₁) hσ) ?_
      rintro f f' t₂ hv₂ hg₂ ⟨rfl, hi⟩
      rw [← hg₁.hops, ← hg₁.hops', ← hg₂.hops, ← hg₂.hops'] at hb
      have hrun := h.execAll (t := t₂.moved f') { hv₂ with current := rfl } hi hss.push hb
      refine Agree.mono (.within hrun hv₂.current fun flow flow' t' _ hQ => hQ.mono id rfl)
        fun flow flow' t₃ hg₃ hQ => hQ.mono (fun _ => ?_) rfl
      exact hat.mono ((hg₁.trans hg₂).trans hg₃)
  | conditional hc hy ha =>
      refine h.branch hv hat hss.tail hc (fun t₁ hv₁ hg₁ hat₁ => ?_) fun t₁ hv₁ _ hat₁ => ?_
      · rw [← hg₁.hops, ← hg₁.hops'] at hy
        exact h.exec hv₁ hat₁ hss hy
      · refine .pure hv₁ (.normal ?_)
        rwa [Scopes.after, ha]
  | alternative hc hy ha hn ha' =>
      rw [Scopes.after_alternative, ha, ha']
      refine h.branch hv hat hss.tail hc (fun t₁ hv₁ hg₁ hat₁ => ?_) fun t₁ hv₁ hg₁ hat₁ => ?_
      · rw [← hg₁.hops, ← hg₁.hops'] at hy
        have hrun := h.exec hv₁ hat₁ hss hy
        rwa [ha] at hrun
      · rw [← hg₁.hops, ← hg₁.hops'] at hn
        have hrun := h.exec hv₁ hat₁ hss hn
        rwa [ha'] at hrun
  | whileLoop hc hb ha =>
      refine h.branch hv hat hss.tail hc (fun t₁ hv₁ hg₁ hat₁ => ?_) fun t₁ hv₁ _ hat₁ => ?_
      · rw [← hg₁.hops, ← hg₁.hops'] at hb hc
        refine .bind (h.exec hv₁ hat₁ hss hb) fun flow flow' t₂ hv₂ hg₂ hQ => ?_
        rw [← hg₂.hops, ← hg₂.hops'] at hb hc
        cases hQ with
        | normal hat₂ =>
            rw [ha] at hat₂
            exact h.exec hv₂ hat₂ hss (.whileLoop hc hb ha)
        | returned hu => exact .pure hv₂ (.returned hu)
      · refine .pure hv₁ (.normal ?_)
        rwa [Scopes.after, ha]
  | function ht hf =>
      exact .bind (.declare hv hat hss ht hf) fun _ _ t₁ hv₁ _ hat₁ => .pure hv₁ (.normal hat₁)
  | returning keyword => exact .pure hv (.returned .nil)
  | returningValue keyword he =>
      exact h.seen hv hat hss.tail he fun v v' t₁ hv₁ _ ha => .pure hv₁ (.returned ha)
  | classDecl ht hx _ => exact .raise hv ht.line (by rw [hx])

theorem Lockstep.execAll_succ (h : Lockstep host fuel) {body body' : List Stmt} (hv : t.Valid)
    (hat : t.At ss σs) (hss : ss.Settled)
    (hb : Stmt.ListMirrors t.one.hops t.two.hops ss σs body body') :
    Agree t (Lox.execAll host (fuel + 1) body) (Lox.execAll host (fuel + 1) body')
      (Flow.Alike fun _ => True) := by
  unfold Lox.execAll
  cases hb with
  | nil => exact .pure hv (.normal trivial)
  | @cons _ _ s _ _ _ hs hr =>
      refine .bind (h.exec hv hat hss hs) fun flow flow' t₁ hv₁ hg₁ hQ => ?_
      rw [← hg₁.hops, ← hg₁.hops'] at hr
      cases hQ with
      | normal hat₁ => exact h.execAll hv₁ hat₁ (hss.after s) hr
      | returned ha => exact .pure hv₁ (.returned ha)

variable (host)

theorem lockstep (fuel : Nat) : Lockstep host fuel := by
  induction fuel with
  | zero =>
      refine ⟨fun hv _ _ _ => ?_, fun hv _ _ _ => ?_, fun hv _ _ _ => ?_, fun hv _ _ _ => ?_,
        fun hv _ _ _ => ?_⟩
      · rw [Lox.eval]
        exact .outOfFuel hv
      · rw [Lox.evalAll]
        exact .outOfFuel hv
      · rw [Lox.apply]
        exact .outOfFuel hv
      · rw [Lox.exec]
        exact .outOfFuel hv
      · rw [Lox.execAll]
        exact .outOfFuel hv
  | succ fuel ih =>
      exact ⟨ih.eval_succ, ih.evalAll_succ, ih.apply_succ, ih.exec_succ, ih.execAll_succ⟩

theorem Agree.runAll {body body' : List Stmt} (fuel : Nat) (hv : t.Valid)
    (hc : t.one.current = globals) (hb : Stmt.ListMirrors t.one.hops t.two.hops [] [] body body') :
    Agree t (runAll host fuel body) (Lox.runAll host fuel body') fun _ _ _ => True := by
  induction body generalizing t body' with
  | nil =>
      cases hb with
      | nil => exact .pure hv trivial
  | cons s rest ih =>
      cases hb with
      | cons hs hr =>
          have hat : t.At [] [] := by
            rw [Twins.At, hc]
            exact ⟨.root, .root⟩
          refine .bind ((lockstep host fuel).exec hv hat .nil hs) fun _ _ t₁ hv₁ hg₁ _ => ?_
          rw [Scopes.after_nil, ← hg₁.hops, ← hg₁.hops'] at hr
          exact ih hv₁ (hg₁.current.trans hc) hr

end Lox
