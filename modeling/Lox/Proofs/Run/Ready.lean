import Lox.Proofs.Run.Tasks

/-!
What a run may rely on at each of its moments. The scopes of the place at which a task stands are
covered by the frames of the machine, and of the names that frames there lack it is known which of
them the task may still give a value.
-/

namespace Lox

/-- The innermost scope has the name, but its initial value is still being computed. -/
def Scopes.Waits (ss : Scopes) (x : String) : Prop := ss.head?.bind (·.status? x) = some .declared

theorem Scopes.Settled.not_waits {ss : Scopes} (h : ss.Settled) (x : String) : ¬ ss.Waits x := by
  cases ss with
  | nil => exact fun hx => by cases hx
  | cons s ss => exact h s List.mem_cons_self x

theorem Scopes.Settled.eq_of_waits {ss : Scopes} {name : Token} {x : String} (h : ss.Settled)
    (hx : (ss.declare name).Waits x) : x = name.lexeme := by
  cases ss with
  | nil => cases hx
  | cons s ss =>
      refine Decidable.by_contra fun hne => h s List.mem_cons_self x ?_
      have hx : Scope.status? ((name.lexeme, .declared) :: s) x = some .declared := hx
      rwa [Scope.status?_cons, if_neg hne] at hx

/-- The places at which tasks stand. The last condition of each names what a frame of the machine
may get that it lacks: a name in waiting, or one that is declared. -/
def Task.Ready (T : List Site) (may : Nat → String → Prop) (t : Tape) : Task → Prop
  | .eval e => ∃ a ss ps, t.At a ss ps ∧ Scopes.Settled ss.tail ∧ (∀ s ∈ e.sites ss ps, s ∈ T) ∧
      ∀ x, ss.Waits x → may a x
  | .evalAll es => ∃ a ss ps, t.At a ss ps ∧ Scopes.Settled ss.tail ∧
      (∀ s ∈ Expr.listSites ss ps es, s ∈ T) ∧ ∀ x, ss.Waits x → may a x
  | .apply c args _ => c.Fits T t.machine.store t.past ∧
      (∀ v ∈ args, v.Fits T t.machine.store t.past) ∧ c.arity = args.length
  | .exec s => ∃ a ss ps path, t.At a ss ps ∧ ss.Settled ∧ (∀ q ∈ ps, q.length < path.length) ∧
      (∀ r ∈ s.sites ss ps path, r ∈ T) ∧ s.Placed ∧ ∀ x, s.declares? = some x → may a x
  | .execAll body => ∃ a ss ps path i, t.At a ss ps ∧ ss.Settled ∧
      (∀ q ∈ ps, q.length ≤ path.length) ∧ (∀ r ∈ Stmt.listSites ss ps path i body, r ∈ T) ∧
      Stmt.ListPlaced body ∧ ∀ x, may a x

/-! ### From tapes to machines -/

/-- What is known of a run on tapes, for the run on machines that it tells of. -/
theorem Told.Goes.leaves {α : Type} {T : List Site} {m : Machine} {past : Past} {x : Told α}
    {y : Eval α} {Q : α → Tape → Prop} (hg : Goes T ⟨m, past⟩ x Q) (ht : Tells x y) :
    ∃ past', Tape.Valid T ⟨y.leaves m, past'⟩ ∧ Tape.Grows ⟨m, past⟩ ⟨y.leaves m, past'⟩ ∧
      ∀ v n, y m = .ok v n → Q v ⟨n, past'⟩ := by
  have ht := ht ⟨m, past⟩
  rw [Goes] at hg
  rw [Eval.leaves]
  cases hx : x ⟨m, past⟩ with
  | ok v t =>
      rw [hx] at ht hg
      simp only at ht
      rw [ht]
      refine ⟨t.past, hg.1, hg.2.1, fun w n h => ?_⟩
      cases h
      exact hg.2.2
  | error e t =>
      rw [hx] at ht hg
      simp only at ht
      rw [ht]
      exact ⟨t.past, hg.1, hg.2.1, fun w n h => by cases h⟩

theorem Told.Goes.ok {α : Type} {T : List Site} {m n : Machine} {past : Past} {x : Told α}
    {y : Eval α} {Q : α → Tape → Prop} {v : α} (hg : Goes T ⟨m, past⟩ x Q) (ht : Tells x y)
    (h : y m = .ok v n) :
    ∃ past', Tape.Valid T ⟨n, past'⟩ ∧ Tape.Grows ⟨m, past⟩ ⟨n, past'⟩ ∧ Q v ⟨n, past'⟩ := by
  obtain ⟨past', hv, hg', hQ⟩ := hg.leaves ht
  have hn : y.leaves m = n := by rw [Eval.leaves, h]
  rw [hn] at hv hg'
  exact ⟨past', hv, hg', hQ v n h⟩

namespace Task

variable {host : Host} {fuel : Nat} {T : List Site} {may : Nat → String → Prop} {task task' : Task}
  {m m' n : Machine} {past : Past} {a : Nat} {ss : Scopes} {ps : List Path} {e : Expr} {v : Value}

/-! ### What tasks ask for -/

/-- A task that another one asks for stands as well as that one. It may do no more to the frames
that are there than the other one may. -/
structure Follows (T : List Site) (may : Nat → String → Prop) (m : Machine) (past : Past)
    (task' : Task) (m' : Machine) (past' : Past) : Prop where
  valid : Tape.Valid T ⟨m', past'⟩
  ready : task'.Ready T (fun f x => f < m.store.size → may f x) ⟨m', past'⟩
  store : m.store.Grows m'.store
  hops : m'.hops = m.hops
  current : m'.current = m.current ∨ m.store.size ≤ m'.current ∧ ∃ body, task' = .execAll body

theorem Follows.here {past' : Past} (hv : Tape.Valid T ⟨m', past'⟩)
    (hg : Tape.Grows ⟨m, past⟩ ⟨m', past'⟩)
    (hr : task'.Ready T (fun f x => f < m.store.size → may f x) ⟨m', past'⟩) :
    Follows T may m past task' m' past' := ⟨hv, hr, hg.store, hg.hops, .inl hg.current⟩

/-- After an expression was evaluated, its place is as it was. -/
theorem after_eval (hv : Tape.Valid T ⟨m, past⟩) (hat : Tape.At ⟨m, past⟩ a ss ps)
    (ht : Scopes.Settled ss.tail) (hs : ∀ s ∈ e.sites ss ps, s ∈ T)
    (h : Lox.eval host fuel e m = .ok v n) :
    ∃ past', Tape.Valid T ⟨n, past'⟩ ∧ Tape.Grows ⟨m, past⟩ ⟨n, past'⟩ ∧
      Tape.At ⟨n, past'⟩ a ss ps ∧ v.Fits T n.store past' := by
  obtain ⟨past', hv', hg, hfit⟩ :=
    ((Told.safe host T fuel).eval hv hat ht hs).ok ((Told.allTell host fuel).eval a e) h
  exact ⟨past', hv', hg, hat.mono hg, hfit⟩

theorem after_see {n' : Machine} (hv : Tape.Valid T ⟨n, past⟩) (hat : Tape.At ⟨n, past⟩ a ss ps)
    (h : see v n = .ok () n') :
    Tape.Valid T ⟨n', past⟩ ∧ Tape.Grows ⟨n, past⟩ ⟨n', past⟩ ∧ Tape.At ⟨n', past⟩ a ss ps := by
  cases h
  have hg : Tape.Grows ⟨n, past⟩ ⟨{ n with last := some v, steps := n.steps + 1 }, past⟩ :=
    Told.grows_same (t := ⟨n, past⟩) ⟨rfl, rfl, rfl⟩ rfl
  exact ⟨Told.valid_same (t := ⟨n, past⟩) hv ⟨rfl, rfl, rfl⟩, hg, hat.mono hg⟩

/-- After a condition was seen, its place is as it was. -/
theorem after_condition {n' : Machine} (hv : Tape.Valid T ⟨m, past⟩)
    (hat : Tape.At ⟨m, past⟩ a ss ps) (ht : Scopes.Settled ss.tail)
    (hs : ∀ s ∈ e.sites ss ps, s ∈ T) (h : Lox.eval host fuel e m = .ok v n)
    (hsee : see v n = .ok () n') :
    ∃ past', Tape.Valid T ⟨n', past'⟩ ∧ Tape.Grows ⟨m, past⟩ ⟨n', past'⟩ ∧
      Tape.At ⟨n', past'⟩ a ss ps := by
  obtain ⟨past', hv', hg, hat', -⟩ := after_eval hv hat ht hs h
  obtain ⟨hv'', hg', hat''⟩ := after_see hv' hat' hsee
  exact ⟨past', hv'', hg.trans hg', hat''⟩

theorem eval_follows (hv : Tape.Valid T ⟨m, past⟩) (hr : (Task.eval e).Ready T may ⟨m, past⟩)
    (h : Asks host fuel (.eval e) m task' m') : ∃ past', Follows T may m past task' m' past' := by
  obtain ⟨a, ss, ps, hat, ht, hs, hmay⟩ := hr
  have hmay' : ∀ x, ss.Waits x → a < m.store.size → may a x := fun x hx _ => hmay x hx
  cases h with
  | inner | operand => exact ⟨past, .here hv (.refl _) ⟨a, ss, ps, hat, ht, hs, hmay'⟩⟩
  | left | first | assigned | callee =>
      exact ⟨past, .here hv (.refl _)
        ⟨a, ss, ps, hat, ht, fun s h => hs s (List.mem_append_left _ h), hmay'⟩⟩
  | right h | second h =>
      obtain ⟨past', hv', hg, hat', -⟩ :=
        after_eval hv hat ht (fun s h => hs s (List.mem_append_left _ h)) h
      exact ⟨past', .here hv' hg
        ⟨a, ss, ps, hat', ht, fun s h => hs s (List.mem_append_right _ h), hmay'⟩⟩
  | arguments h =>
      obtain ⟨past', hv', hg, hat', -⟩ :=
        after_eval hv hat ht (fun s h => hs s (List.mem_append_left _ h)) h
      exact ⟨past', .here hv' hg
        ⟨a, ss, ps, hat', ht, fun s h => hs s (List.mem_append_right _ h), hmay'⟩⟩
  | @call _ paren args _ _ _ vs n' c h hargs hc hd =>
      obtain ⟨past₁, hv₁, hg₁, hat₁, hfit⟩ :=
        after_eval hv hat ht (fun s h => hs s (List.mem_append_left _ h)) h
      obtain ⟨past₂, hv₂, hg₂, hfits⟩ := ((Told.safe host T fuel).evalAll hv₁ hat₁ ht
        fun s h => hs s (List.mem_append_right _ h)).ok ((Told.allTell host fuel).evalAll a args) hargs
      have hfit₂ := hfit.mono hg₂.store hg₂.past
      have hg₃ : Tape.Grows ⟨n', past₂⟩ ⟨{ n' with callDepth := n'.callDepth + 1 }, past₂⟩ :=
        Told.grows_same (t := ⟨n', past₂⟩) ⟨rfl, rfl, rfl⟩ rfl
      refine ⟨past₂, .here (Told.valid_same (t := ⟨n', past₂⟩) hv₂ ⟨rfl, rfl, rfl⟩)
        ((hg₁.trans hg₂).trans hg₃) ?_⟩
      exact ⟨(fits_calleeOf hfit₂ hc).1, hfits, (fits_calleeOf hfit₂ hc).2⟩

theorem evalAll_follows {es : List Expr} (hv : Tape.Valid T ⟨m, past⟩)
    (hr : (Task.evalAll es).Ready T may ⟨m, past⟩)
    (h : Asks host fuel (.evalAll es) m task' m') : ∃ past', Follows T may m past task' m' past' := by
  obtain ⟨a, ss, ps, hat, ht, hs, hmay⟩ := hr
  have hmay' : ∀ x, ss.Waits x → a < m.store.size → may a x := fun x hx _ => hmay x hx
  cases h with
  | argument =>
      exact ⟨past, .here hv (.refl _)
        ⟨a, ss, ps, hat, ht, fun s h => hs s (List.mem_append_left _ h), hmay'⟩⟩
  | others h =>
      obtain ⟨past', hv', hg, hat', -⟩ :=
        after_eval hv hat ht (fun s h => hs s (List.mem_append_left _ h)) h
      exact ⟨past', .here hv' hg
        ⟨a, ss, ps, hat', ht, fun s h => hs s (List.mem_append_right _ h), hmay'⟩⟩

/-- The frame of a call is new, so what happens there happens to no frame that was there before. -/
theorem apply_follows {c : Callable} {args : List Value} {line : Nat} (hv : Tape.Valid T ⟨m, past⟩)
    (hr : (Task.apply c args line).Ready T may ⟨m, past⟩)
    (h : Asks host fuel (.apply c args line) m task' m') :
    ∃ past', Follows T may m past task' m' past' := by
  obtain ⟨hfit, hargs, hl⟩ := hr
  cases h with
  | @body c _ _ _ frame n h =>
  obtain ⟨ss, ps, p, hc⟩ := hfit
  have hgoes := Told.Goes.enterCall hv hc hargs hl
  rw [Told.Goes, Told.enterCall] at hgoes
  simp only [Bind.bind, EStateM.bind, Told.scopeOf, hc.made, Told.lift, openCall, Told.tell] at hgoes
  obtain ⟨hv', hg, -, hcovers, hlies⟩ := hgoes
  cases h
  refine ⟨_, Told.valid_same hv' ⟨rfl, rfl, rfl⟩, ?_, hg.store, hg.hops, .inr ⟨Nat.le_refl _, _, rfl⟩⟩
  refine ⟨m.store.size, Scopes.bindParams ([] :: ss) c.decl.params, p :: ps, p, 0,
    ⟨hcovers, hlies, rfl⟩, hc.settled.push.bindParams _, ?_, ?_,
    Stmt.functionPlaced_iff.mp hc.placed, fun x hx => absurd hx (Nat.lt_irrefl _)⟩
  · rintro q (_ | ⟨_, hq⟩)
    · exact Nat.le_refl _
    · exact Nat.le_of_lt (hc.inner q hq)
  · rw [← Stmt.functionSites_eq]
    exact hc.sites

theorem exec_follows {s : Stmt} (hv : Tape.Valid T ⟨m, past⟩)
    (hr : (Task.exec s).Ready T may ⟨m, past⟩) (h : Asks host fuel (.exec s) m task' m') :
    ∃ past', Follows T may m past task' m' past' := by
  obtain ⟨a, ss, ps, path, hat, hss, hp, hs, hplaced, hmay⟩ := hr
  have hnone : ∀ x, ss.Waits x → a < m.store.size → may a x := fun x hx => absurd hx (hss.not_waits x)
  have hinner (i : Nat) : ∀ q ∈ ps, q.length < (i :: path).length :=
    fun q hq => Nat.lt_succ_of_lt (hp q hq)
  have hclosed {s : Stmt} (hd : s.isDeclaration = false) :
      ∀ x, s.declares? = some x → a < m.store.size → may a x := fun x hx => by
    cases s <;> cases hx <;> cases hd
  cases h with
  | expression | print | result =>
      exact ⟨past, .here hv (.refl _) ⟨a, ss, ps, hat, hss.tail, hs, hnone⟩⟩
  | @initial name e =>
      refine ⟨past, .here hv (.refl _) ⟨a, ss.declare name, ps,
        ⟨hat.covers.declare name, hat.lies, hat.current⟩, ?_, hs, fun x hx _ => hmay x ?_⟩⟩
      · rw [Scopes.declare, Scopes.tail_mark]
        exact hss.tail
      · rw [hss.eq_of_waits hx]
        rfl
  | @block body _ frame n h =>
      obtain rfl := hat.current
      have hgoes := Told.Goes.enterBlock hv hat hp
      obtain ⟨hv', hg, hcovers, hlies⟩ := hgoes
      cases h
      refine ⟨_, Told.valid_same hv' ⟨rfl, rfl, rfl⟩, ?_, hg.store, hg.hops, .inr ⟨Nat.le_refl _, _, rfl⟩⟩
      refine ⟨m.store.size, [] :: ss, path :: ps, path, 0, ⟨hcovers, hlies, rfl⟩, hss.push, ?_, hs,
        hplaced, fun x hx => absurd hx (Nat.lt_irrefl _)⟩
      rintro q (_ | ⟨_, hq⟩)
      · exact Nat.le_refl _
      · exact Nat.le_of_lt (hp q hq)
  | @condition e yes no =>
      refine ⟨past, .here hv (.refl _) ⟨a, ss, ps, hat, hss.tail, fun r hr => hs r ?_, hnone⟩⟩
      cases no <;> simp only [Stmt.sites, List.mem_append, hr, true_or]
  | @yes e yes no _ v n _ h hsee =>
      have hyes : yes.Placed ∧ yes.isDeclaration = false := by
        cases no with
        | none => exact hplaced
        | some no => exact hplaced.1
      obtain ⟨past', hv', hg, hat'⟩ := after_condition hv hat hss.tail (fun r hr => hs r <| by
        cases no <;> simp only [Stmt.sites, List.mem_append, hr, true_or]) h hsee
      refine ⟨past', .here hv' hg ⟨a, ss, ps, 0 :: path, hat', hss, hinner 0, fun r hr => hs r ?_,
        hyes.1, hclosed hyes.2⟩⟩
      cases no <;> simp only [Stmt.sites, List.mem_append, hr, true_or, or_true]
  | @no e yes no _ v n _ h hsee =>
      obtain ⟨past', hv', hg, hat'⟩ := after_condition hv hat hss.tail (fun r hr => hs r <| by
        simp only [Stmt.sites, List.mem_append, hr, true_or]) h hsee
      refine ⟨past', .here hv' hg ⟨a, ss, ps, 1 :: path, hat', hss, hinner 1, fun r hr => hs r ?_,
        hplaced.2.1, hclosed hplaced.2.2⟩⟩
      simp only [Stmt.sites, ss.after_eq yes hplaced.1.1 hplaced.1.2, List.mem_append, hr, or_true]
  | test =>
      exact ⟨past, .here hv (.refl _)
        ⟨a, ss, ps, hat, hss.tail, fun r hr => hs r (List.mem_append_left _ hr), hnone⟩⟩
  | round h hsee =>
      obtain ⟨past', hv', hg, hat'⟩ := after_condition hv hat hss.tail
        (fun r hr => hs r (List.mem_append_left _ hr)) h hsee
      exact ⟨past', .here hv' hg ⟨a, ss, ps, 0 :: path, hat', hss, hinner 0,
        fun r hr => hs r (List.mem_append_right _ hr), hplaced.1, hclosed hplaced.2⟩⟩
  | @again e body _ _ _ _ _ h hsee _ hb =>
      obtain ⟨past₁, hv₁, hg₁, hat₁⟩ := after_condition hv hat hss.tail
        (fun r hr => hs r (List.mem_append_left _ hr)) h hsee
      obtain ⟨past₂, hv₂, hg₂, -⟩ := ((Told.safe host T fuel).exec hv₁ hat₁ hss (hinner 0)
        (fun r hr => hs r (List.mem_append_right _ hr)) hplaced.1).ok
        ((Told.allTell host fuel).exec a (0 :: path) body) hb
      exact ⟨past₂, .here hv₂ (hg₁.trans hg₂)
        ⟨a, ss, ps, path, hat₁.mono hg₂, hss, hp, hs, hplaced, hclosed rfl⟩⟩

theorem execAll_follows {body : List Stmt} (hv : Tape.Valid T ⟨m, past⟩)
    (hr : (Task.execAll body).Ready T may ⟨m, past⟩)
    (h : Asks host fuel (.execAll body) m task' m') : ∃ past', Follows T may m past task' m' past' := by
  obtain ⟨a, ss, ps, path, i, hat, hss, hp, hs, hplaced, hmay⟩ := hr
  have hinner : ∀ q ∈ ps, q.length < (i :: path).length := fun q hq => Nat.lt_succ_of_le (hp q hq)
  cases h with
  | statement =>
      exact ⟨past, .here hv (.refl _) ⟨a, ss, ps, i :: path, hat, hss, hinner,
        fun r hr => hs r (List.mem_append_left _ hr), hplaced.1, fun x _ _ => hmay x⟩⟩
  | @rest s ss' _ n h =>
      obtain ⟨past', hv', hg, hat'⟩ := ((Told.safe host T fuel).exec hv hat hss hinner
        (fun r hr => hs r (List.mem_append_left _ hr)) hplaced.1).ok
        ((Told.allTell host fuel).exec a (i :: path) s) h
      exact ⟨past', .here hv' hg ⟨a, ss.after s, ps, path, i + 1, hat', hss.after s, hp,
        fun r hr => hs r (List.mem_append_right _ hr), hplaced.2, fun x _ => hmay x⟩⟩

theorem Asks.follows (h : Asks host fuel task m task' m') (hv : Tape.Valid T ⟨m, past⟩)
    (hr : task.Ready T may ⟨m, past⟩) : ∃ past', Follows T may m past task' m' past' := by
  cases task with
  | eval e => exact eval_follows hv hr h
  | evalAll es => exact evalAll_follows hv hr h
  | apply c args line => exact apply_follows hv hr h
  | exec s => exact exec_follows hv hr h
  | execAll body => exact execAll_follows hv hr h

end Task

end Lox
