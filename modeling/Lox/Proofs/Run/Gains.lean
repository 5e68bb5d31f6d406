import Lox.Proofs.Run.Ready

/-!
Which names the frames of a machine may get while it runs. A declaration binds its name in the frame
in which it stands, and an assignment binds one only in the initial value of the name itself.
-/

namespace Lox

/-- The frames that are there get no names but those they may get. -/
def Store.Gains (may : Nat → String → Prop) (st st' : Store) : Prop :=
  ∀ f < st.size, ∀ x, (st'.here? f x).isSome → (st.here? f x).isSome ∨ may f x

namespace Store

variable {may : Nat → String → Prop} {st st' st'' : Store} {frame : Nat} {name : String} {v : Value}

theorem Gains.refl (st : Store) : st.Gains may st := fun _ _ _ h => .inl h

theorem Gains.seq (h : st.Gains may st') (hg : st.size ≤ st'.size)
    (h' : st'.Gains (fun f x => f < st.size → may f x) st'') : st.Gains may st'' := by
  intro f hf x hx
  rcases h' f (Nat.lt_of_lt_of_le hf hg) x hx with hx | hx
  · exact h f hf x hx
  · exact .inr (hx hf)

theorem Gains.define (h : st.Gains may st') (hn : (st'.here? frame name).isSome ∨ may frame name) :
    st.Gains may (st'.define frame name v) := by
  intro f hf x hx
  by_cases hlt : frame < st'.size
  · rw [here?_define st' hlt] at hx
    split at hx
    · next heq =>
      obtain ⟨rfl, rfl⟩ := heq
      exact hn.elim (h _ hf _) .inr
    · exact h f hf x hx
  · rw [define_of_le (Nat.not_lt.mp hlt)] at hx
    exact h f hf x hx

theorem go_bound {x : String} {n f g : Nat} (h : binder?.go st x n f = some g) :
    (st.here? g x).isSome := by
  induction n generalizing f with
  | zero => cases h
  | succ n ih =>
      rw [binder?.go] at h
      split at h
      · next hx => cases h; exact hx
      · obtain ⟨f', -, h⟩ := Option.bind_eq_some_iff.mp h
        exact ih h

theorem bound_of_binder? {x : String} {f g : Nat} (h : st.binder? f x = some g) :
    (st.here? g x).isSome := go_bound h

end Store

namespace Eval

variable {α β : Type} {may : Nat → String → Prop} {st : Store} {m : Machine}

/-- One run after another gains what the first one does and what the second one does then. -/
theorem gains_bind {x : Eval α} {f : α → Eval β} (hx : st.Gains may (x.leaves m).store)
    (hf : ∀ a n, x m = .ok a n → st.Gains may n.store → st.Gains may ((f a).leaves n).store) :
    st.Gains may (leaves (x >>= f) m).store := by
  rw [leaves] at hx ⊢
  simp only [Bind.bind, EStateM.bind]
  cases hr : x m with
  | error e n => rw [hr] at hx; exact hx
  | ok a n =>
      rw [hr] at hx
      exact hf a n hr hx

theorem leaves_orRaise (r : Except RuntimeFault α) (m : Machine) :
    leaves (orRaise r) m = m := by
  cases r <;> rfl

theorem leaves_readVariable (id : Nat) (name : Token) (m : Machine) :
    leaves (readVariable id name) m = m := by
  rw [leaves, readVariable]
  cases (m.frameOf? id name.lexeme).bind (m.store.here? · name.lexeme) <;> rfl

theorem leaves_callNative (host : Host) (n : Native) (args : List Value) (line : Nat)
    (m : Machine) : (leaves (callNative host n args line) m).store = m.store := by
  rw [leaves, callNative]
  by_cases hn : n = clock
  · simp only [if_pos hn]
  · simp only [if_neg hn]
    cases host.native n.name args <;> rfl

theorem store_within (frame : Nat) (x : Eval α) (m : Machine) :
    (leaves (within frame x) m).store = (x.leaves { m with current := frame }).store := by
  simp only [leaves, within]
  cases x { m with current := frame } <;> rfl

theorem store_asCall (line : Nat) (x : Eval α) (m : Machine) :
    (leaves (asCall line x) m).store = if maxCallDepth ≤ m.callDepth then m.store
      else (x.leaves { m with callDepth := m.callDepth + 1 }).store := by
  simp only [leaves, asCall]
  by_cases hd : maxCallDepth ≤ m.callDepth
  · simp only [if_pos hd]
    rfl
  · simp only [if_neg hd]
    cases x { m with callDepth := m.callDepth + 1 } <;> rfl

end Eval

namespace Task

variable {host : Host} {fuel : Nat} {T : List Site} {may : Nat → String → Prop} {task : Task}
  {m n : Machine} {past : Past} {id : Nat} {name : Token} {e : Expr} {v : Value}

/-- Where an assignment stores its value, at the moment at which it does: in a frame that binds the
name, unless the innermost scope has the name in waiting. -/
theorem assigns (hv : Tape.Valid T ⟨m, past⟩)
    (hr : (Task.eval (.assign id name e)).Ready T may ⟨m, past⟩)
    (h : Lox.eval host fuel e m = .ok v n) :
    ∃ s ∈ T, s.id = id ∧ s.name = name ∧ n.hops[id]? = s.depth? ∧
      (∀ d, s.depth? = some d → ∃ frame, n.frameOf? id name.lexeme = some frame ∧
        n.store.ancestor? d n.current = some frame ∧ ((n.store.here? frame name.lexeme).isSome ∨
          d = 0 ∧ s.scopes.Waits name.lexeme)) ∧
      ∀ frame, n.frameOf? id name.lexeme = some frame →
        (n.store.here? frame name.lexeme).isSome ∨ may frame name.lexeme := by
  obtain ⟨a, ss, ps, hat, ht, hs, hmay⟩ := hr
  obtain ⟨past', hv', -, hat', -⟩ :=
    after_eval hv hat ht (fun s h => hs s (List.mem_append_left _ h)) h
  let s : Site := ⟨id, name, false, ss, ps⟩
  have hsite : s ∈ T := hs s (List.mem_append_right _ List.mem_cons_self)
  have hhops : n.hops[id]? = ss.depth? name := hv'.hops s hsite
  have hcurrent : n.current = a := hat'.current
  have hlocal : ∀ d, ss.depth? name = some d → ∃ frame, n.frameOf? id name.lexeme = some frame ∧
      n.store.ancestor? d n.current = some frame ∧ ((n.store.here? frame name.lexeme).isSome ∨
        d = 0 ∧ ss.Waits name.lexeme) := by
    intro d hd
    have hframeOf : n.frameOf? id name.lexeme = n.store.ancestor? d a := by
      rw [Machine.frameOf?, hhops, hd, hcurrent]
    by_cases hw : ss.Waits name.lexeme
    · have hd' : d = 0 := by
        cases ss with
        | nil => cases hw
        | cons t ts =>
            have hw : t.status? name.lexeme = some .declared := hw
            rw [Scopes.depth?_cons, hw] at hd
            cases hd
            rfl
      subst hd'
      exact ⟨a, hframeOf, by rw [hcurrent]; rfl, .inr ⟨rfl, hw⟩⟩
    · obtain ⟨frame, hframe, hbound⟩ := hat'.covers.bound ht hd hw
      exact ⟨frame, hframeOf.trans hframe, by rw [hcurrent]; exact hframe, .inl hbound⟩
  refine ⟨s, hsite, rfl, rfl, hhops, hlocal, fun frame hframe => ?_⟩
  cases hd : ss.depth? name with
  | some d =>
      obtain ⟨frame', hframe', hanc, hb⟩ := hlocal d hd
      cases hframe.symm.trans hframe'
      rcases hb with hb | ⟨rfl, hw⟩
      · exact .inl hb
      · cases hanc
        exact .inr (hcurrent ▸ hmay _ hw)
  | none =>
      rw [Machine.frameOf?, hhops, hd] at hframe
      exact .inl (Store.bound_of_binder? hframe)

/-- What the tasks with so much fuel gain. -/
def Gain (host : Host) (T : List Site) (fuel : Nat) : Prop :=
  ∀ {task : Task} {m past may}, Tape.Valid T ⟨m, past⟩ → task.Ready T may ⟨m, past⟩ →
    m.store.Gains may (task.leaves host fuel m).store

/-- What a task that is asked for gains goes on from what was gained before. -/
theorem Gain.asked (ih : Gain host T fuel) (hv : Tape.Valid T ⟨m, past⟩)
    (hr : task.Ready T may ⟨m, past⟩) ⦃task' : Task⦄ ⦃m' : Machine⦄
    (ha : Asks host fuel task m task' m') (hg : m.store.Gains may m'.store) :
    m.store.Gains may (task'.leaves host fuel m').store := by
  obtain ⟨past', hf⟩ := ha.follows hv hr
  exact hg.seq hf.store.size (ih hf.valid hf.ready)

theorem Gain.eval_succ (ih : Gain host T fuel) (hv : Tape.Valid T ⟨m, past⟩)
    (hr : (Task.eval e).Ready T may ⟨m, past⟩) :
    m.store.Gains may ((Task.eval e).leaves host (fuel + 1) m).store := by
  have hasked := ih.asked hv hr
  rw [Task.leaves]
  unfold Lox.eval
  cases e with
  | literal l => exact .refl _
  | grouping e => exact (hasked .inner (.refl _) :)
  | unary op e =>
      refine Eval.gains_bind (hasked .operand (.refl _) :) fun v n h hg => ?_
      rwa [Eval.leaves_orRaise]
  | binary l op r =>
      refine Eval.gains_bind (hasked .left (.refl _) :) fun v n h hg => ?_
      refine Eval.gains_bind (hasked (.right h) hg :) fun w n' h' hg' => ?_
      rwa [Eval.leaves_orRaise]
  | logical l op r =>
      refine Eval.gains_bind (hasked .first (.refl _) :) fun v n h hg => ?_
      split
      · exact hg
      · next hd => exact (hasked (.second h (by simpa using hd)) hg :)
  | read id name =>
      rw [Eval.leaves_readVariable]
      exact .refl _
  | assign id name e =>
      refine Eval.gains_bind (hasked .assigned (.refl _) :) fun v n h hg => ?_
      obtain ⟨-, -, -, -, -, -, hassigns⟩ := assigns hv hr h
      refine Eval.gains_bind ?_ fun _ _ _ hg' => hg'
      rw [Eval.leaves, assignVariable]
      cases hframe : n.frameOf? id name.lexeme with
      | none => exact hg
      | some frame => exact hg.define (hassigns frame hframe)
  | call callee paren args =>
      refine Eval.gains_bind (hasked .callee (.refl _) :) fun v n h hg => ?_
      refine Eval.gains_bind (hasked (.arguments h) hg :) fun vs n' h' hg' => ?_
      refine Eval.gains_bind (by rwa [Eval.leaves_orRaise]) fun c n'' hc hg'' => ?_
      obtain ⟨hcallee, rfl⟩ : calleeOf paren.line v vs.length = .ok c ∧ n' = n'' := by
        cases hr : calleeOf paren.line v vs.length <;> rw [hr] at hc <;> cases hc
        exact ⟨rfl, rfl⟩
      rw [Eval.store_asCall]
      split
      · exact hg'
      · next hd => exact (hasked (.call h h' hcallee (Nat.lt_of_not_le hd)) hg' :)

theorem Gain.evalAll_succ (ih : Gain host T fuel) {es : List Expr} (hv : Tape.Valid T ⟨m, past⟩)
    (hr : (Task.evalAll es).Ready T may ⟨m, past⟩) :
    m.store.Gains may ((Task.evalAll es).leaves host (fuel + 1) m).store := by
  have hasked := ih.asked hv hr
  rw [Task.leaves]
  unfold Lox.evalAll
  cases es with
  | nil => exact .refl _
  | cons e es =>
      refine Eval.gains_bind (hasked .argument (.refl _) :) fun v n h hg => ?_
      exact Eval.gains_bind (hasked (.others h) hg :) fun _ _ _ hg' => hg'

/-- A call binds its parameters in a frame of its own. -/
theorem gains_openCall {c : Closure} {args : List Value} :
    m.store.Gains may ((openCall c args : Eval Nat).leaves m).store := by
  have hbind (st : Store) (ps : List Token) (vs : List Value)
      (h : m.store.Gains may st) : m.store.Gains may (st.bindParams m.store.size ps vs) := by
    induction ps generalizing st vs with
    | nil => exact h
    | cons p ps ih =>
        cases vs with
        | nil => exact h
        | cons v vs =>
            refine ih _ vs fun f hf x hx => ?_
            by_cases hlt : m.store.size < st.size
            · rw [Store.here?_define st hlt, if_neg fun heq => Nat.ne_of_gt hf heq.1] at hx
              exact h f hf x hx
            · rw [Store.define_of_le (Nat.not_lt.mp hlt)] at hx
              exact h f hf x hx
  exact hbind _ _ _ fun f hf x hx => .inl (by rwa [Store.here?_push] at hx)

theorem Gain.apply_succ (ih : Gain host T fuel) {c : Callable} {args : List Value} {line : Nat}
    (hv : Tape.Valid T ⟨m, past⟩) (hr : (Task.apply c args line).Ready T may ⟨m, past⟩) :
    m.store.Gains may ((Task.apply c args line).leaves host (fuel + 1) m).store := by
  have hasked := ih.asked hv hr
  rw [Task.leaves]
  unfold Lox.apply
  cases c with
  | native n =>
      rw [Eval.leaves_callNative]
      exact .refl _
  | closure c =>
      refine Eval.gains_bind gains_openCall fun frame n h hg => ?_
      refine Eval.gains_bind ?_ fun flow _ _ hg' => ?_
      · rw [Eval.store_within]
        exact (hasked (.body h) hg :)
      · cases flow <;> exact hg'

/-- A value that is seen changes no frame. -/
theorem Gain.seen {α : Type} (ih : Gain host T fuel) (hv : Tape.Valid T ⟨m, past⟩)
    (hr : task.Ready T may ⟨m, past⟩) (ha : Asks host fuel task m (.eval e) m)
    {k : Value → Eval α} (hk : ∀ v n n', Lox.eval host fuel e m = .ok v n → see v n = .ok () n' →
      m.store.Gains may n'.store → m.store.Gains may ((k v).leaves n').store) :
    m.store.Gains may (Eval.leaves (do let v ← Lox.eval host fuel e; see v; k v) m).store := by
  refine Eval.gains_bind (ih.asked hv hr ha (.refl _) :) fun v n h hg => ?_
  exact Eval.gains_bind hg fun _ n' hs hg' => hk v n n' h hs hg'

theorem Gain.exec_succ (ih : Gain host T fuel) {s : Stmt} (hv : Tape.Valid T ⟨m, past⟩)
    (hr : (Task.exec s).Ready T may ⟨m, past⟩) :
    m.store.Gains may ((Task.exec s).leaves host (fuel + 1) m).store := by
  have hasked := ih.asked hv hr
  have hdeclares : ∀ x, s.declares? = some x → may m.current x := by
    obtain ⟨a, ss, ps, path, hat, -, -, -, -, hmay⟩ := hr
    exact hat.current ▸ hmay
  rw [Task.leaves]
  unfold Lox.exec
  cases s with
  | expression e => exact ih.seen hv hr .expression fun _ _ _ _ _ hg => hg
  | print e =>
      refine Eval.gains_bind (hasked .print (.refl _) :) fun v n h hg => ?_
      exact Eval.gains_bind hg fun _ _ _ hg' => hg'
  | var name initial =>
      cases initial with
      | none =>
          refine Eval.gains_bind ?_ fun _ _ _ hg => hg
          exact Store.Gains.define (.refl _) (.inr (hdeclares _ rfl))
      | some e =>
          refine ih.seen hv hr .initial fun v n n' h hs hg => ?_
          refine Eval.gains_bind ?_ fun _ _ _ hg' => hg'
          have hcurrent : n'.current = m.current := by
            have hasks : Task.Asks host fuel (.exec (.var name (some e))) m (.eval e) m := .initial
            obtain ⟨past', hf⟩ := hasks.follows hv hr
            obtain ⟨a, ss, ps, hat, ht, hs', -⟩ := hf.ready
            obtain ⟨past'', -, hg, -⟩ := after_condition hf.valid hat ht hs' h hs
            exact hg.current
          refine hg.define (.inr ?_)
          rw [hcurrent]
          exact hdeclares _ rfl
  | block body =>
      refine Eval.gains_bind (.refl _) fun m' n h hg => ?_
      cases h
      refine Eval.gains_bind ?_ fun frame n' h' hg' => ?_
      · exact fun f _ x hx => .inl (by simpa [Eval.leaves, openFrame] using hx)
      · rw [Eval.store_within]
        exact (hasked (.block h') hg' :)
  | conditional c yes no =>
      refine ih.seen hv hr .condition fun v n n' h hs hg => ?_
      split
      · next ht => exact (hasked (.yes h hs ht) hg :)
      · next ht =>
        cases no with
        | none => exact hg
        | some no => exact (hasked (.no h hs (by simpa using ht)) hg :)
  | whileLoop c body =>
      refine ih.seen hv hr .test fun v n n' h hs hg => ?_
      split
      · next ht =>
        refine Eval.gains_bind (hasked (.round h hs ht) hg :) fun flow n'' hb hg' => ?_
        cases flow with
        | normal => exact (hasked (.again h hs ht hb) hg' :)
        | returned v => exact hg'
      · exact hg
  | function decl =>
      refine Eval.gains_bind ?_ fun _ _ _ hg => hg
      exact Store.Gains.define (.refl _) (.inr (hdeclares _ rfl))
  | returning keyword value =>
      cases value with
      | none => exact .refl _
      | some e => exact ih.seen hv hr .result fun _ _ _ _ _ hg => hg
  | classDecl name methods => exact .refl _

theorem Gain.execAll_succ (ih : Gain host T fuel) {body : List Stmt}
    (hv : Tape.Valid T ⟨m, past⟩) (hr : (Task.execAll body).Ready T may ⟨m, past⟩) :
    m.store.Gains may ((Task.execAll body).leaves host (fuel + 1) m).store := by
  have hasked := ih.asked hv hr
  rw [Task.leaves]
  unfold Lox.execAll
  cases body with
  | nil => exact .refl _
  | cons s rest =>
      refine Eval.gains_bind (hasked .statement (.refl _) :) fun flow n h hg => ?_
      cases flow with
      | normal => exact (hasked (.rest h) hg :)
      | returned v => exact hg

theorem gains (host : Host) (T : List Site) (fuel : Nat) : Gain host T fuel := by
  induction fuel with
  | zero =>
      intro task m past may _ _
      cases task <;> simp only [Task.leaves, Lox.eval, Lox.evalAll, Lox.apply, Lox.exec, Lox.execAll] <;>
        exact .refl _
  | succ fuel ih =>
      intro task m past may hv hr
      cases task with
      | eval e => exact ih.eval_succ hv hr
      | evalAll es => exact ih.evalAll_succ hv hr
      | apply c args line => exact ih.apply_succ hv hr
      | exec s => exact ih.exec_succ hv hr
      | execAll body => exact ih.execAll_succ hv hr

end Task

end Lox
