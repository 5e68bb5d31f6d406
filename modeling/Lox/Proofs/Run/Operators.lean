import Lox.Proofs.Copy.Visits
import Lox.Proofs.Grammar.Shaped
import Lox.Proofs.Run.Preserved

/-!
Programs apply no operator that there is not. Functions outlive the program that declared them, so
what is kept from one program to the next is that all functions in the store have well-formed
bodies.
-/

namespace Lox

open Grammar

/-- The fault of an operator that cannot be applied to anything. -/
def RuntimeCause.noOperator : RuntimeCause → Bool
  | .invalidUnary _ | .invalidBinary _ => true
  | _ => false

def Stop.Usual : Stop → Prop
  | .fault f => f.cause.noOperator = false
  | .outOfFuel => True

def Value.Shaped : Value → Prop
  | .native n => n = clock
  | .closure c => Stmt.FunctionShaped c.decl
  | _ => True

def Callable.Shaped : Callable → Prop
  | .native n => n = clock
  | .closure c => Stmt.FunctionShaped c.decl

def Flow.Shaped : Flow → Prop
  | .normal => True
  | .returned v => v.Shaped

def Store.Shaped (s : Store) : Prop :=
  ∀ ⦃frame name v⦄, s.here? frame name = some v → v.Shaped

/-! ### Operators -/

section

variable {op : Token} {v w u : Value} {f : RuntimeFault}

theorem shaped_of_type (h : v.type ≠ .function) : v.Shaped := by
  cases v with
  | native n | closure c => exact absurd rfl h
  | _ => trivial

theorem shaped_applyUnary (h : applyUnary op v = .ok u) : u.Shaped := by
  refine applyUnary_cases (P := fun r => r = .ok u → u.Shaped) (fun x hx h => ?_)
    (fun f _ h => ?_) h
  · cases h
    exact shaped_of_type hx
  · cases h

theorem shaped_applyBinary (h : applyBinary op v w = .ok u) : u.Shaped := by
  refine applyBinary_cases (P := fun r => r = .ok u → u.Shaped) (fun x hx h => ?_)
    (fun f _ h => ?_) h
  · cases h
    exact shaped_of_type hx
  · cases h

theorem usual_applyUnary (hop : op.kind ∈ unaryOperators) (h : applyUnary op v = .error f) :
    f.cause.noOperator = false := by
  rw [applyUnary] at h
  split at h
  · unfold negate at h
    split at h
    · cases h
    · cases h
      rfl
  · cases h
  · next hminus hbang =>
    rcases List.mem_pair.mp hop with hk | hk
    · exact absurd hk hbang
    · exact absurd hk hminus

theorem usual_onNumbers {g : Float → Float → Except RuntimeFault Value}
    (hg : ∀ x y f, g x y = .error f → f.cause.noOperator = false)
    (h : onNumbers op g v w = .error f) : f.cause.noOperator = false := by
  refine onNumbers_cases (P := fun r => r = .error f → _) (fun x y => hg x y f) (fun h => ?_) h
  cases h
  rfl

theorem usual_applyBinary (hop : op.kind ∈ binaryOperators) (h : applyBinary op v w = .error f) :
    f.cause.noOperator = false := by
  rw [applyBinary] at h
  split at h
  case h_1 =>
    unfold add at h
    split at h <;> cases h
    rfl
  case h_4 =>
    refine usual_onNumbers (fun x y f h => ?_) h
    rw [divide] at h
    split at h <;> cases h
    rfl
  case h_11 => simp_all [binaryOperators]
  case h_9 | h_10 => cases h
  all_goals exact usual_onNumbers (fun _ _ _ h => by cases h) h

theorem shaped_calleeOf {line given : Nat} {c : Callable} (hv : v.Shaped)
    (h : calleeOf line v given = .ok c) : c.Shaped := by
  rw [calleeOf] at h
  split at h
  · cases h
  · next c' hc =>
    split at h
    · cases h
      cases v <;> cases hc <;> exact hv
    · cases h

theorem usual_calleeOf {line given : Nat} (h : calleeOf line v given = .error f) :
    f.cause.noOperator = false := by
  rw [calleeOf] at h
  split at h
  · cases h
    rfl
  · split at h <;> cases h
    rfl

end

/-! ### Stores -/

namespace Store.Shaped

variable {s : Store}

theorem push (h : s.Shaped) (enclosing : Option Nat) : (s.push enclosing).Shaped := by
  intro frame name v hv
  rw [here?_push] at hv
  exact h hv

theorem define (h : s.Shaped) (frame : Nat) (name : String) {v : Value} (hv : v.Shaped) :
    (s.define frame name v).Shaped := by
  intro g x u hu
  by_cases hf : frame < s.size
  · rw [here?_define s hf] at hu
    split at hu
    · cases hu
      exact hv
    · exact h hu
  · -- no frame is there to be changed
    rw [define_of_le (Nat.not_lt.mp hf)] at hu
    exact h hu

theorem bindParams {frame : Nat} {ps : List Token} {vs : List Value} (h : s.Shaped)
    (hvs : ∀ v ∈ vs, v.Shaped) : (s.bindParams frame ps vs).Shaped := by
  induction ps generalizing s vs with
  | nil => exact h
  | cons p ps ih =>
      cases vs with
      | nil => exact h
      | cons v vs =>
          exact ih (h.define frame _ (hvs v List.mem_cons_self))
            fun u hu => hvs u (List.mem_cons_of_mem _ hu)

end Store.Shaped

/-! ### Runs -/

/-- From a machine whose functions have well-formed bodies the run comes to another one, with what
`Q` says. If `p`, it does not stop for want of an operator. -/
structure Upholds {α : Type} (p : Prop) (x : Eval α) (Q : α → Prop) : Prop where
  ok : ∀ ⦃m a n⦄, x m = .ok a n → m.store.Shaped → n.store.Shaped ∧ Q a
  error : ∀ ⦃m e n⦄, x m = .error e n → m.store.Shaped → n.store.Shaped ∧ (p → e.Usual)

namespace Upholds

variable {α β : Type} {p q : Prop} {x : Eval α} {Q : α → Prop} {R : β → Prop}

theorem mono (h : Upholds p x Q) (hq : q → p) : Upholds q x Q :=
  ⟨h.ok, fun _ _ _ hx hm => ⟨(h.error hx hm).1, fun hp => (h.error hx hm).2 (hq hp)⟩⟩

/-- A step that only changes the machine. -/
theorem step {f : Machine → α} {g : Machine → Machine}
    (hg : ∀ m, m.store.Shaped → (g m).store.Shaped) (hf : ∀ m, m.store.Shaped → Q (f m)) :
    Upholds p (fun m => .ok (f m) (g m)) Q :=
  ⟨fun _ _ _ hx hm => by cases hx; exact ⟨hg _ hm, hf _ hm⟩, fun _ _ _ hx => by cases hx⟩

theorem pure {a : α} (h : Q a) : Upholds p (pure a) Q := step (fun _ => id) fun _ _ => h

theorem throw {e : Stop} (h : e.Usual) : Upholds p (throw e : Eval α) Q :=
  ⟨fun _ _ _ hx => (by cases hx), fun _ _ _ hx hm => by cases hx; exact ⟨hm, fun _ => h⟩⟩

theorem bind {f : α → Eval β} (hx : Upholds p x Q) (hf : ∀ a, Q a → Upholds p (f a) R) :
    Upholds p (x >>= f) R := by
  constructor
  · intro m b n hr hm
    simp only [Bind.bind, EStateM.bind] at hr
    cases hxm : x m with
    | error e k => rw [hxm] at hr; cases hr
    | ok a k =>
        rw [hxm] at hr
        obtain ⟨hk, ha⟩ := hx.ok hxm hm
        exact (hf a ha).ok hr hk
  · intro m e n hr hm
    simp only [Bind.bind, EStateM.bind] at hr
    cases hxm : x m with
    | error e' k =>
        rw [hxm] at hr
        cases hr
        exact hx.error hxm hm
    | ok a k =>
        rw [hxm] at hr
        obtain ⟨hk, ha⟩ := hx.ok hxm hm
        exact (hf a ha).error hr hk

theorem raise {line : Nat} {cause : RuntimeCause} (h : cause.noOperator = false) :
    Upholds p (raise line cause : Eval α) Q := throw (e := .fault ⟨line, cause⟩) h

theorem orRaise {r : Except RuntimeFault α} (hok : ∀ a, r = .ok a → Q a)
    (herror : ∀ f, r = .error f → p → f.cause.noOperator = false) : Upholds p (orRaise r) Q := by
  cases r with
  | ok a => exact pure (hok a rfl)
  | error f =>
      refine ⟨fun _ _ _ hx => (by cases hx), fun _ _ _ hx hm => ?_⟩
      cases hx
      exact ⟨hm, herror f rfl⟩

theorem see (v : Value) : Upholds p (see v) fun _ => True := step (fun _ => id) fun _ _ => trivial

theorem printLine (v : Value) : Upholds p (printLine v) fun _ => True :=
  step (fun _ => id) fun _ _ => trivial

theorem define (name : String) {v : Value} (hv : v.Shaped) :
    Upholds p (defineHere name v) fun _ => True :=
  step (fun _ hm => hm.define _ _ hv) fun _ _ => trivial

theorem declare {decl : Function} (h : Stmt.FunctionShaped decl) :
    Upholds p (declareFunction decl) fun _ => True :=
  step (fun m hm => hm.define _ _ (v := .closure ⟨m.nextClosure, decl, m.current⟩) h)
    fun _ _ => trivial

theorem openFrame (enclosing : Nat) : Upholds p (openFrame enclosing) fun _ => True :=
  step (fun _ hm => hm.push _) fun _ _ => trivial

theorem openCall (c : Closure) {args : List Value} (h : ∀ v ∈ args, v.Shaped) :
    Upholds p (openCall c args) fun _ => True :=
  step (fun _ hm => Store.Shaped.bindParams (hm.push _) h) fun _ _ => trivial

theorem read (id : Nat) (name : Token) : Upholds p (readVariable id name) Value.Shaped := by
  constructor
  · intro m v n hr hm
    rw [readVariable] at hr
    split at hr
    · next u hu =>
      cases hr
      obtain ⟨frame, -, hv⟩ := Option.bind_eq_some_iff.mp hu
      exact ⟨hm, hm hv⟩
    · cases hr
  · intro m e n hr hm
    rw [readVariable] at hr
    split at hr <;> cases hr
    exact ⟨hm, fun _ => rfl⟩

theorem assign (id : Nat) (name : Token) {v : Value} (hv : v.Shaped) :
    Upholds p (assignVariable id name v) fun _ => True := by
  constructor
  · intro m u n hr hm
    rw [assignVariable] at hr
    split at hr <;> cases hr
    exact ⟨hm.define _ _ hv, trivial⟩
  · intro m e n hr hm
    rw [assignVariable] at hr
    split at hr <;> cases hr
    exact ⟨hm, fun _ => rfl⟩

/-- Of the functions of the host, programs find the clock only. -/
theorem callNative (host : Host) {n : Native} (args : List Value) (line : Nat) (hn : n = clock) :
    Upholds p (callNative host n args line) Value.Shaped := by
  subst hn
  exact step (g := fun m => { m with steps := m.steps + 1 }) (fun _ => id) fun _ _ => trivial

theorem within (frame : Nat) (h : Upholds p x Q) : Upholds p (within frame x) Q := by
  constructor
  · intro m a n hr hm
    rw [Lox.within] at hr
    split at hr
    · next b k hx =>
      have hk := h.ok hx hm
      cases hr
      exact hk
    · cases hr
  · intro m e n hr hm
    rw [Lox.within] at hr
    split at hr
    · cases hr
    · next b k hx =>
      have hk := h.error hx hm
      cases hr
      exact hk

theorem asCall (line : Nat) (h : Upholds p x Q) : Upholds p (asCall line x) Q := by
  constructor
  · intro m a n hr hm
    rw [Lox.asCall] at hr
    split at hr
    · cases hr
    split at hr
    · next b k hx =>
      have hk := h.ok hx hm
      cases hr
      exact hk
    · cases hr
  · intro m e n hr hm
    rw [Lox.asCall] at hr
    split at hr
    · cases hr
      exact ⟨hm, fun _ => rfl⟩
    split at hr
    · cases hr
    · next b k hx =>
      have hk := h.error hx hm
      cases hr
      exact hk

end Upholds

/-- All runs with so much fuel. Expressions may be made by hand, but statements are well formed. -/
structure AllUphold (host : Host) (fuel : Nat) : Prop where
  eval : ∀ e, Upholds e.Shaped (eval host fuel e) Value.Shaped
  evalAll : ∀ es, Upholds (Expr.ListShaped es) (evalAll host fuel es) fun vs => ∀ v ∈ vs, v.Shaped
  apply : ∀ {c args} line, Callable.Shaped c → (∀ v ∈ args, v.Shaped) →
    Upholds True (apply host fuel c args line) Value.Shaped
  exec : ∀ {s}, s.Shaped → Upholds True (exec host fuel s) Flow.Shaped
  execAll : ∀ {body}, Stmt.ListShaped body → Upholds True (execAll host fuel body) Flow.Shaped

namespace AllUphold

variable {host : Host} {fuel : Nat}

theorem eval_succ (h : AllUphold host fuel) (e : Expr) :
    Upholds e.Shaped (Lox.eval host (fuel + 1) e) Value.Shaped := by
  unfold Lox.eval
  cases e with
  | literal l => exact .pure (by cases l <;> trivial)
  | grouping e => exact h.eval e
  | unary op e =>
      refine .bind ((h.eval e).mono And.right) fun v hv => ?_
      exact .orRaise (fun _ => shaped_applyUnary) fun _ hf hs => usual_applyUnary hs.1 hf
  | binary l op r =>
      refine .bind ((h.eval l).mono fun hs => hs.2.1) fun v hv => ?_
      refine .bind ((h.eval r).mono fun hs => hs.2.2) fun w hw => ?_
      exact .orRaise (fun _ => shaped_applyBinary) fun _ hf hs => usual_applyBinary hs.1 hf
  | logical l op r =>
      refine .bind ((h.eval l).mono fun hs => hs.2.1) fun v hv => ?_
      split
      · exact .pure hv
      · exact (h.eval r).mono fun hs => hs.2.2
  | read id name => exact .read id name
  | assign id name e =>
      refine .bind ((h.eval e).mono And.right) fun v hv => ?_
      exact .bind (.assign id name hv) fun _ _ => .pure hv
  | call callee paren args =>
      refine .bind ((h.eval callee).mono And.left) fun v hv => ?_
      refine .bind ((h.evalAll args).mono And.right) fun vs hvs => ?_
      refine .bind (.orRaise (fun _ => shaped_calleeOf hv) fun _ hf _ => usual_calleeOf hf)
        fun c hc => ?_
      -- the body of the function is well formed even if this expression is not
      exact .asCall _ ((h.apply _ hc hvs).mono fun _ => trivial)

theorem evalAll_succ (h : AllUphold host fuel) (es : List Expr) :
    Upholds (Expr.ListShaped es) (Lox.evalAll host (fuel + 1) es) fun vs => ∀ v ∈ vs, v.Shaped := by
  unfold Lox.evalAll
  cases es with
  | nil => exact .pure (List.forall_mem_nil _)
  | cons e es =>
      refine .bind ((h.eval e).mono And.left) fun v hv => ?_
      refine .bind ((h.evalAll es).mono And.right) fun vs hvs => .pure ?_
      exact List.forall_mem_cons.mpr ⟨hv, hvs⟩

theorem apply_succ (h : AllUphold host fuel) {c : Callable} {args : List Value} (line : Nat)
    (hc : c.Shaped) (hargs : ∀ v ∈ args, v.Shaped) :
    Upholds True (Lox.apply host (fuel + 1) c args line) Value.Shaped := by
  unfold Lox.apply
  cases c with
  | native n => exact .callNative host args line hc
  | closure c =>
      refine .bind (.openCall c hargs) fun frame _ => ?_
      refine .bind (.within frame (h.execAll (Stmt.listShaped_of_function hc))) fun flow hflow => ?_
      cases flow with
      | normal => exact .pure trivial
      | returned v => exact .pure hflow

/-- What goes on with a value once it has been seen. -/
theorem seen {α : Type} {Q : α → Prop} (h : AllUphold host fuel) {e : Expr} (he : e.Shaped)
    {f : Value → Eval α} (hf : ∀ v, v.Shaped → Upholds True (f v) Q) :
    Upholds True (do let v ← Lox.eval host fuel e; see v; f v) Q :=
  .bind ((h.eval e).mono fun _ => he) fun v hv => .bind (.see v) fun _ _ => hf v hv

theorem exec_succ (h : AllUphold host fuel) {s : Stmt} (hs : s.Shaped) :
    Upholds True (Lox.exec host (fuel + 1) s) Flow.Shaped := by
  unfold Lox.exec
  cases s with
  | expression e => exact h.seen hs fun v _ => .pure trivial
  | print e =>
      refine .bind ((h.eval e).mono fun _ => hs) fun v _ => .bind (.printLine v) fun _ _ => ?_
      exact .pure trivial
  | var name initial =>
      cases initial with
      | none => exact .bind (.define _ (v := .nil) trivial) fun _ _ => .pure trivial
      | some e => exact h.seen hs.2 fun v hv => .bind (.define _ hv) fun _ _ => .pure trivial
  | block body =>
      refine .bind (.step (Q := fun _ => True) (fun _ => id) fun _ _ => trivial) fun m _ => ?_
      exact .bind (.openFrame _) fun frame _ => .within frame (h.execAll hs)
  | conditional c yes no =>
      cases no with
      | none =>
          refine h.seen hs.1 fun v _ => ?_
          split
          · exact h.exec hs.2
          · exact .pure trivial
      | some no =>
          refine h.seen hs.1 fun v _ => ?_
          split
          · exact h.exec hs.2.1
          · exact h.exec hs.2.2
  | whileLoop c body =>
      refine h.seen hs.1 fun v _ => ?_
      split
      · refine .bind (h.exec hs.2) fun flow hflow => ?_
        cases flow with
        | normal => exact h.exec hs
        | returned v => exact .pure hflow
      · exact .pure trivial
  | function decl => exact .bind (.declare hs) fun _ _ => .pure trivial
  | returning keyword value =>
      cases value with
      | none => exact .pure trivial
      | some e => exact h.seen hs fun v hv => .pure hv
  | classDecl name methods => exact .raise rfl

theorem execAll_succ (h : AllUphold host fuel) {body : List Stmt} (hb : Stmt.ListShaped body) :
    Upholds True (Lox.execAll host (fuel + 1) body) Flow.Shaped := by
  unfold Lox.execAll
  cases body with
  | nil => exact .pure trivial
  | cons s ss =>
      refine .bind (h.exec hb.1) fun flow hflow => ?_
      cases flow with
      | normal => exact h.execAll hb.2
      | returned v => exact .pure hflow

end AllUphold

theorem allUphold (host : Host) (fuel : Nat) : AllUphold host fuel := by
  induction fuel with
  | zero =>
      refine ⟨fun _ => ?_, fun _ => ?_, fun _ _ _ => ?_, fun _ => ?_, fun _ => ?_⟩
      · unfold eval; exact .throw trivial
      · unfold evalAll; exact .throw trivial
      · unfold apply; exact .throw trivial
      · unfold exec; exact .throw trivial
      · unfold execAll; exact .throw trivial
  | succ fuel ih =>
      exact ⟨ih.eval_succ, ih.evalAll_succ, ih.apply_succ, ih.exec_succ, ih.execAll_succ⟩

theorem runAll_upholds (host : Host) (fuel : Nat) {body : List Stmt} (h : ∀ s ∈ body, s.Shaped) :
    Upholds True (runAll host fuel body) fun _ => True := by
  induction body with
  | nil => exact .pure trivial
  | cons s ss ih =>
      obtain ⟨hs, hss⟩ := List.forall_mem_cons.mp h
      exact .bind ((allUphold host fuel).exec hs) fun _ _ => ih hss

/-! ### Sessions -/

namespace Session

theorem interpret_shaped {s : Session} (h : s.machine.store.Shaped) (host : Host) (fuel : Nat)
    {body : List Stmt} (hb : ∀ t ∈ body, t.Shaped) :
    (s.interpret host fuel body).2.machine.store.Shaped ∧
      ∀ f, (s.interpret host fuel body).1 = .failed (.runtime f) → f.cause.noOperator = false := by
  have hrun := runAll_upholds host fuel hb
  unfold interpret
  cases hr : runAll host fuel body s.ready with
  | ok u n => exact ⟨(hrun.ok hr h).1, fun _ hf => by cases hf⟩
  | error e n =>
      obtain ⟨hn, he⟩ := hrun.error hr h
      cases e with
      | fault f => exact ⟨hn, fun _ hf => by cases hf; exact he trivial⟩
      | outOfFuel => exact ⟨hn, fun _ hf => by cases hf⟩

theorem accept_shaped {s s' : Session} (h : s.machine.store.Shaped) {tokens : List Token}
    {r : Except Outcome (List Stmt)} (ha : s.accept tokens = (r, s')) :
    s'.machine.store.Shaped ∧ ∀ body, r = .ok body → ∀ t ∈ body, t.Shaped := by
  cases r with
  | error o =>
      refine ⟨?_, nofun⟩
      rcases (accept_error ha).2 with rfl | ⟨p, -, rfl | rfl⟩ <;> exact h
  | ok body =>
      obtain ⟨p, hp, -, rfl, hs⟩ := accept_ok ha
      obtain rfl := congrArg Prod.snd hs
      refine ⟨h, fun _ hb => ?_⟩
      cases hb
      exact fun t ht => (formed_of_ofTokens? hp t ht).2

theorem run_shaped {s : Session} (h : s.machine.store.Shaped) (host : Host) (fuel : Nat)
    (source : String) :
    (s.run host fuel source).2.machine.store.Shaped ∧
      ∀ f, (s.run host fuel source).1 = .failed (.runtime f) → f.cause.noOperator = false := by
  unfold Session.run
  dsimp only
  split
  · exact ⟨h, fun f hf => by cases hf⟩
  unfold Session.runTokens
  split
  · next o s' ha =>
    refine ⟨(accept_shaped h ha).1, fun f hf => ?_⟩
    exact absurd hf ((accept_error ha).1 f)
  · next body s' ha =>
    obtain ⟨hs, hb⟩ := accept_shaped h ha
    exact interpret_shaped hs host fuel (hb body rfl)

theorem perform_shaped {s : Session} (h : s.machine.store.Shaped) {p : Prop} {act : Eval Value}
    (ha : Upholds p act Value.Shaped) :
    (s.perform act).2.machine.store.Shaped ∧
      ∀ v, (s.perform act).1 = .value v → v.Shaped := by
  unfold Session.perform
  split
  · next v n hr =>
    obtain ⟨hn, hv⟩ := ha.ok hr h
    exact ⟨hn, fun u hu => by cases hu; exact hv⟩
  · next f n hr => exact ⟨(ha.error hr h).1, nofun⟩
  · next n hr => exact ⟨(ha.error hr h).1, nofun⟩

theorem global_shaped {s : Session} (h : s.machine.store.Shaped) {name : String} {v : Value}
    (hv : s.global? name = some v) : v.Shaped := by
  obtain ⟨frame, -, hv⟩ := Option.bind_eq_some_iff.mp hv
  exact h hv

end Session

namespace Visit

/-- All functions that a caller can have at hand have well-formed bodies. -/
structure Shaped (v : Visit) : Prop where
  store : v.session.machine.store.Shaped
  given : ∀ u ∈ v.given, u.Shaped

variable {v : Visit}

theorem Shaped.operand (h : v.Shaped) (o : Operand) : (v.operand o).Shaped := by
  cases o with
  | literal l => cases l <;> trivial
  | global name =>
      rw [Visit.operand]
      cases hg : v.session.global? name with
      | none => trivial
      | some u => exact Session.global_shaped h.store hg
  | given n =>
      rw [Visit.operand]
      cases hg : v.given[n]? with
      | none => trivial
      | some u => exact h.given u (List.mem_of_getElem? hg)

theorem Shaped.answered (h : v.Shaped) {r : Session.Answer × Session}
    (hs : r.2.machine.store.Shaped) (hv : ∀ u, r.1 = .value u → u.Shaped) :
    (v.answered r).2.Shaped := by
  obtain ⟨a, s⟩ := r
  cases a with
  | value u => exact ⟨hs, List.forall_mem_cons.mpr ⟨hv u rfl, h.given⟩⟩
  | fault f | unfinished => exact ⟨hs, h.given⟩

theorem Shaped.step (h : v.Shaped) (st : Step) : (v.step st).2.Shaped := by
  cases st with
  | run host fuel source => exact ⟨(Session.run_shaped h.store host fuel source).1, h.given⟩
  | global name =>
      refine ⟨h.store, fun u hu => ?_⟩
      rcases List.mem_append.mp hu with hu | hu
      · exact Session.global_shaped h.store (Option.mem_toList.mp hu)
      · exact h.given u hu
  | evaluate host fuel e =>
      have hdraw : (v.session.draw e).2.machine.store.Shaped := h.store
      obtain ⟨hs, hv⟩ := Session.perform_shaped hdraw ((allUphold host fuel).eval _)
      exact h.answered hs hv
  | call host fuel callee args line =>
      unfold Visit.step
      dsimp only
      split
      · exact h
      · next c hc =>
        have hcallee : c.Shaped := by
          have hv := h.operand callee
          revert hv hc
          cases v.operand callee <;> intro hc hv <;> cases hc <;> exact hv
        have hargs : ∀ u ∈ args.map v.operand, u.Shaped := fun u hu => by
          obtain ⟨o, -, rfl⟩ := List.mem_map.mp hu
          exact h.operand o
        obtain ⟨hs, hv⟩ := Session.perform_shaped h.store
          ((allUphold host fuel).apply line hcallee hargs)
        exact h.answered hs hv

theorem shaped_start : start.Shaped := by
  refine ⟨Store.Shaped.define ?_ _ _ rfl, List.forall_mem_nil _⟩
  exact Store.Shaped.push (fun frame name v hv => by cases hv) _

theorem shaped_after (steps : List Step) : (after steps).Shaped := by
  have hfoldl (v : Visit) (h : v.Shaped) : (steps.foldl (fun v st => (v.step st).2) v).Shaped := by
    induction steps generalizing v with
    | nil => exact h
    | cons st steps ih => exact ih _ (h.step st)
  exact hfoldl _ shaped_start

end Visit

/-- **Well-formed trees.** Whatever the tokens and the faults that are noted, the statements of a
program have declarations in lists only, operators that can be applied, and names for names. So no
program that is run, whatever was done with the session before, stops at an operator that there is
not. -/
theorem programs_well_formed :
    (∀ tokens firstId p, Program.ofTokens? tokens firstId = some p →
      ∀ s ∈ p.statements, s.Placed ∧ s.Shaped) ∧
    ∀ (steps : List Step) (host : Host) (fuel : Nat) (source : String) (line : Nat)
      (lexeme : String),
      ((Visit.after steps).session.run host fuel source).1 ≠
        .failed (.runtime ⟨line, .invalidUnary lexeme⟩) ∧
      ((Visit.after steps).session.run host fuel source).1 ≠
        .failed (.runtime ⟨line, .invalidBinary lexeme⟩) := by
  refine ⟨fun tokens firstId p hp => formed_of_ofTokens? hp,
    fun steps host fuel source line x => ?_⟩
  obtain ⟨-, hrun⟩ := Session.run_shaped (Visit.shaped_after steps).store host fuel source
  exact ⟨fun h => Bool.noConfusion (hrun _ h), fun h => Bool.noConfusion (hrun _ h)⟩

/-- A semicolon alone is a fault, and reading goes on inside the block. -/
def strayed : String := "if (nil) \x7b ; var x; \x7d"

theorem strayed_well_formed :
    ∃ p, Program.ofTokens? (Source.tokens strayed) 0 = some p ∧ p.faults.length = 1 ∧
      p.statements.length = 1 ∧ ∀ s ∈ p.statements, s.Placed ∧ s.Shaped := by
  have hread : (Program.ofTokens? (Source.tokens strayed) 0).map
      (fun p => (p.faults.length, p.statements.length)) = some (1, 1) := by decide +kernel
  obtain ⟨p, hp, hl⟩ := Option.map_eq_some_iff.mp hread
  obtain ⟨hf, hb⟩ := Prod.mk.inj hl
  exact ⟨p, hp, hf, hb, programs_well_formed.1 _ _ p hp⟩

end Lox
