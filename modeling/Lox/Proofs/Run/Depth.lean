import Lox.Proofs.Copy.Visits
import Lox.Proofs.Run.Tasks

/-!
Active calls. However a run ends, the machine is back in its frame with as many calls active as
before; on the way there are as many more as call expressions are at work, and never more than
allowed. Nothing is asked of the tree that is run or of the machine, so the trees may be made by hand
and the table of hops may tell anything.
-/

namespace Lox

variable {host : Host} {fuel : Nat}

/-! ### What a run leaves as it was -/

/-- A run that keeps frame, calls and hops, however it ends. -/
def Eval.Keeps {α : Type} (x : Eval α) : Prop := ∀ m : Machine, m.Kept (x.leaves m)

namespace Eval.Keeps

variable {α β : Type} {x : Eval α}

theorem ok (h : Keeps x) {m n : Machine} {a : α} (hx : x m = .ok a n) : m.Kept n := by
  have hm := h m
  rwa [Eval.leaves, hx] at hm

theorem error (h : Keeps x) {m n : Machine} {e : Stop} (hx : x m = .error e n) : m.Kept n := by
  have hm := h m
  rwa [Eval.leaves, hx] at hm

theorem pure (a : α) : Keeps (pure a) := fun m => .refl m

theorem throw (e : Stop) : Keeps (throw e : Eval α) := fun m => .refl m

theorem bind {f : α → Eval β} (hx : Keeps x) (hf : ∀ a, Keeps (f a)) : Keeps (x >>= f) := by
  intro m
  rw [Eval.leaves]
  simp only [Bind.bind, EStateM.bind]
  cases hr : x m with
  | error e n => exact hx.error hr
  | ok a n => exact (hx.ok hr).trans (hf a n)

theorem raise (line : Nat) (cause : RuntimeCause) : Keeps (raise line cause : Eval α) :=
  fun m => .refl m

theorem orRaise (r : Except RuntimeFault α) : Keeps (orRaise r) := by
  intro m
  cases r <;> exact .refl m

theorem see (v : Value) : Keeps (see v) := fun _ => ⟨rfl, rfl, rfl, #[], Array.append_empty.symm⟩

theorem printLine (v : Value) : Keeps (printLine v) := fun _ => ⟨rfl, rfl, rfl, #[v.text], rfl⟩

theorem define (name : String) (v : Value) : Keeps (defineHere name v) :=
  fun _ => ⟨rfl, rfl, rfl, #[], Array.append_empty.symm⟩

theorem declare (decl : Function) : Keeps (declareFunction decl) :=
  fun _ => ⟨rfl, rfl, rfl, #[], Array.append_empty.symm⟩

theorem read (id : Nat) (name : Token) : Keeps (readVariable id name) := by
  intro m
  rw [Eval.leaves, readVariable]
  cases (m.frameOf? id name.lexeme).bind (m.store.here? · name.lexeme) <;> exact .refl m

theorem assign (id : Nat) (name : Token) (v : Value) : Keeps (assignVariable id name v) := by
  intro m
  rw [Eval.leaves, assignVariable]
  cases m.frameOf? id name.lexeme with
  | none => exact .refl m
  | some frame => exact ⟨rfl, rfl, rfl, #[], Array.append_empty.symm⟩

theorem openFrame (enclosing : Nat) : Keeps (openFrame enclosing) :=
  fun _ => ⟨rfl, rfl, rfl, #[], Array.append_empty.symm⟩

theorem openCall (c : Closure) (args : List Value) : Keeps (openCall c args) :=
  fun _ => ⟨rfl, rfl, rfl, #[], Array.append_empty.symm⟩

theorem callNative (host : Host) (n : Native) (args : List Value) (line : Nat) :
    Keeps (callNative host n args line) := by
  intro m
  rw [Eval.leaves, Lox.callNative]
  by_cases hn : n = clock
  · simp only [if_pos hn]
    exact ⟨rfl, rfl, rfl, #[], Array.append_empty.symm⟩
  · simp only [if_neg hn]
    cases host.native n.name args <;> exact ⟨rfl, rfl, rfl, #[], Array.append_empty.symm⟩

/-- The frame in which the inner run is done is left again. -/
theorem within (frame : Nat) (h : Keeps x) : Keeps (within frame x) := by
  intro m
  have hm := h { m with current := frame }
  rw [Eval.leaves] at hm ⊢
  rw [Lox.within]
  cases hr : x { m with current := frame } <;> rw [hr] at hm <;>
    exact ⟨hm.hops, rfl, hm.callDepth, hm.printed⟩

/-- The inner run keeps the call that was added for it, so that it can be taken off again. -/
theorem asCall (line : Nat) (h : Keeps x) : Keeps (asCall line x) := by
  intro m
  have hm := h { m with callDepth := m.callDepth + 1 }
  rw [Eval.leaves] at hm ⊢
  rw [Lox.asCall]
  by_cases hd : maxCallDepth ≤ m.callDepth
  · simp only [if_pos hd]
    exact .refl m
  · simp only [if_neg hd]
    cases hr : x { m with callDepth := m.callDepth + 1 } <;> rw [hr] at hm <;>
      exact ⟨hm.hops, hm.current, congrArg (· - 1) hm.callDepth, hm.printed⟩

end Eval.Keeps

/-- All runs with so much fuel keep what a run keeps. -/
structure AllKeep (host : Host) (fuel : Nat) : Prop where
  eval : ∀ e, (eval host fuel e).Keeps
  evalAll : ∀ es, (evalAll host fuel es).Keeps
  apply : ∀ c args line, (apply host fuel c args line).Keeps
  exec : ∀ s, (exec host fuel s).Keeps
  execAll : ∀ body, (execAll host fuel body).Keeps

namespace AllKeep

theorem eval_succ (h : AllKeep host fuel) (e : Expr) : (Lox.eval host (fuel + 1) e).Keeps := by
  unfold Lox.eval
  cases e with
  | literal l => exact .pure _
  | grouping e => exact h.eval e
  | unary op e => exact .bind (h.eval e) fun v => .orRaise _
  | binary l op r => exact .bind (h.eval l) fun v => .bind (h.eval r) fun w => .orRaise _
  | logical l op r =>
      refine .bind (h.eval l) fun v => ?_
      split
      · exact .pure _
      · exact h.eval r
  | read id name => exact .read id name
  | assign id name e =>
      exact .bind (h.eval e) fun v => .bind (.assign id name v) fun _ => .pure _
  | call callee paren args =>
      refine .bind (h.eval callee) fun v => .bind (h.evalAll args) fun vs => ?_
      exact .bind (.orRaise _) fun c => .asCall _ (h.apply c vs _)

theorem evalAll_succ (h : AllKeep host fuel) (es : List Expr) :
    (Lox.evalAll host (fuel + 1) es).Keeps := by
  unfold Lox.evalAll
  cases es with
  | nil => exact .pure _
  | cons e es => exact .bind (h.eval e) fun v => .bind (h.evalAll es) fun vs => .pure _

theorem apply_succ (h : AllKeep host fuel) (c : Callable) (args : List Value) (line : Nat) :
    (Lox.apply host (fuel + 1) c args line).Keeps := by
  unfold Lox.apply
  cases c with
  | native n => exact .callNative host n args line
  | closure c =>
      refine .bind (.openCall c args) fun frame => .bind (.within frame (h.execAll _)) fun flow => ?_
      cases flow <;> exact .pure _

/-- What goes on with a value once it has been seen. -/
theorem seen {α : Type} (h : AllKeep host fuel) (e : Expr) {f : Value → Eval α}
    (hf : ∀ v, (f v).Keeps) : Eval.Keeps (do let v ← Lox.eval host fuel e; see v; f v) :=
  .bind (h.eval e) fun v => .bind (.see v) fun _ => hf v

theorem exec_succ (h : AllKeep host fuel) (s : Stmt) : (Lox.exec host (fuel + 1) s).Keeps := by
  unfold Lox.exec
  cases s with
  | expression e => exact h.seen e fun v => .pure _
  | print e => exact .bind (h.eval e) fun v => .bind (.printLine v) fun _ => .pure _
  | var name initial =>
      cases initial with
      | none => exact .bind (.define _ _) fun _ => .pure _
      | some e => exact h.seen e fun v => .bind (.define _ _) fun _ => .pure _
  | block body =>
      refine .bind (fun m => .refl m) fun m => .bind (.openFrame _) fun frame => ?_
      exact .within frame (h.execAll body)
  | conditional c yes no =>
      refine h.seen c fun v => ?_
      split
      · exact h.exec yes
      · cases no with
        | none => exact .pure _
        | some no => exact h.exec no
  | whileLoop c body =>
      refine h.seen c fun v => ?_
      split
      · refine .bind (h.exec body) fun flow => ?_
        cases flow with
        | normal => exact h.exec _
        | returned v => exact .pure _
      · exact .pure _
  | function decl => exact .bind (.declare decl) fun _ => .pure _
  | returning keyword value =>
      cases value with
      | none => exact .pure _
      | some e => exact h.seen e fun v => .pure _
  | classDecl name methods => exact .raise _ _

theorem execAll_succ (h : AllKeep host fuel) (body : List Stmt) :
    (Lox.execAll host (fuel + 1) body).Keeps := by
  unfold Lox.execAll
  cases body with
  | nil => exact .pure _
  | cons s ss =>
      refine .bind (h.exec s) fun flow => ?_
      cases flow with
      | normal => exact h.execAll ss
      | returned v => exact .pure _

end AllKeep

theorem allKeep (host : Host) (fuel : Nat) : AllKeep host fuel := by
  induction fuel with
  | zero =>
      refine ⟨fun _ => ?_, fun _ => ?_, fun _ _ _ => ?_, fun _ => ?_, fun _ => ?_⟩
      · unfold eval; exact .throw _
      · unfold evalAll; exact .throw _
      · unfold apply; exact .throw _
      · unfold exec; exact .throw _
      · unfold execAll; exact .throw _
  | succ fuel ih =>
      exact ⟨ih.eval_succ, ih.evalAll_succ, ih.apply_succ, ih.exec_succ, ih.execAll_succ⟩

theorem Task.kept (host : Host) (fuel : Nat) (task : Task) (m : Machine) :
    m.Kept (task.leaves host fuel m) := by
  cases task with
  | eval e => exact (allKeep host fuel).eval e m
  | evalAll es => exact (allKeep host fuel).evalAll es m
  | apply c args line => exact (allKeep host fuel).apply c args line m
  | exec s => exact (allKeep host fuel).exec s m
  | execAll body => exact (allKeep host fuel).execAll body m

theorem runAll_keeps (host : Host) (fuel : Nat) (body : List Stmt) :
    (runAll host fuel body).Keeps := by
  induction body with
  | nil => exact .pure _
  | cons s ss ih => exact .bind ((allKeep host fuel).exec s) fun _ => ih

/-! ### The calls that are active -/

namespace Task

variable {task task' : Task} {m m' : Machine}

/-- What is done, and in which machine, in the course of doing a task, with the number of call
expressions that are waiting for their functions then. -/
inductive During (host : Host) (fuel : Nat) (task : Task) (m : Machine) :
    (calls : Nat) → Nat → Task → Machine → Prop
  | self : During host fuel task m 0 fuel task m
  | part {calls fuel' task' m' task'' m''} (h : During host fuel task m calls (fuel' + 1) task' m')
      (ha : Asks host fuel' task' m' task'' m'') :
      During host fuel task m (if task''.isCall then calls + 1 else calls) fuel' task'' m''

/-- Only a call expression has one more call active for what it asks for: the function itself. -/
theorem Asks.callDepth (h : Asks host fuel task m task' m') :
    m'.callDepth = (if task'.isCall then m.callDepth + 1 else m.callDepth) ∧
      (m.callDepth ≤ maxCallDepth → m'.callDepth ≤ maxCallDepth) := by
  have hkeep := allKeep host fuel
  have hsame (hc : task'.isCall = false) (hd : m'.callDepth = m.callDepth) :
      m'.callDepth = (if task'.isCall then m.callDepth + 1 else m.callDepth) ∧
        (m.callDepth ≤ maxCallDepth → m'.callDepth ≤ maxCallDepth) := by
    rw [hc, hd]
    exact ⟨rfl, id⟩
  cases h with
  | call h hs hc hd =>
      have hdepth := ((hkeep.evalAll _).ok hs).callDepth.trans ((hkeep.eval _).ok h).callDepth
      exact ⟨congrArg (· + 1) hdepth, fun _ => hd⟩
  | right h | second h _ | arguments h | others h => exact hsame rfl ((hkeep.eval _).ok h).callDepth
  | rest h => exact hsame rfl ((hkeep.exec _).ok h).callDepth
  | body h => cases h; exact hsame rfl rfl
  | block h => cases h; exact hsame rfl rfl
  | yes h hs _ | no h hs _ | round h hs _ =>
      cases hs
      exact hsame rfl ((hkeep.eval _).ok h).callDepth
  | again h hs _ hb =>
      cases hs
      exact hsame rfl (((hkeep.exec _).ok hb).callDepth.trans ((hkeep.eval _).ok h).callDepth)
  | _ => exact hsame rfl rfl

theorem During.callDepth {calls fuel' : Nat} (h : During host fuel task m calls fuel' task' m') :
    m'.callDepth = m.callDepth + calls ∧
      (m.callDepth ≤ maxCallDepth → m'.callDepth ≤ maxCallDepth) := by
  induction h with
  | self => exact ⟨rfl, id⟩
  | part _ ha ih =>
      obtain ⟨hd, hle⟩ := ha.callDepth
      refine ⟨?_, fun hm => hle (ih.2 hm)⟩
      rw [hd, ih.1]
      split <;> rfl

end Task

/-! ### Sessions -/

namespace Session

/-- The session stands among the global variables with no call active. -/
structure Home (s : Session) : Prop where
  current : s.machine.current = globals
  callDepth : s.machine.callDepth = 0

theorem Home.accept {s : Session} (h : s.Home) (tokens : List Token) : (s.accept tokens).2.Home := by
  obtain ⟨r, s', ha⟩ : ∃ r s', s.accept tokens = (r, s') := ⟨_, _, rfl⟩
  rw [ha]
  cases r with
  | error o =>
      rcases (accept_error ha).2 with rfl | ⟨p, -, rfl | rfl⟩
      · exact h
      · exact ⟨h.current, h.callDepth⟩
      · exact ⟨h.current, h.callDepth⟩
  | ok body =>
      obtain ⟨p, -, -, -, hs⟩ := accept_ok ha
      obtain rfl := congrArg Prod.snd hs
      exact ⟨h.current, h.callDepth⟩

theorem Home.of_kept {m n : Machine} (h : m.Kept n) (hc : m.current = globals)
    (hd : m.callDepth = 0) (i : Nat) (e : Option RuntimeFault) : Home ⟨n, i, e⟩ :=
  ⟨h.current.trans hc, h.callDepth.trans hd⟩

theorem Home.interpret (host : Host) (fuel : Nat) (body : List Stmt) (s : Session) :
    (s.interpret host fuel body).2.Home := by
  have hkeep := runAll_keeps host fuel body
  unfold Session.interpret
  cases hr : runAll host fuel body s.ready with
  | ok u n => exact .of_kept (hkeep.ok hr) rfl rfl _ _
  | error e n => cases e <;> exact .of_kept (hkeep.error hr) rfl rfl _ _

theorem Home.run {s : Session} (h : s.Home) (host : Host) (fuel : Nat) (source : String) :
    (s.run host fuel source).2.Home := by
  unfold Session.run
  dsimp only
  split
  · exact h
  have haccept := h.accept ((Source.items source).filterMap Source.Item.token?)
  unfold Session.runTokens
  generalize s.accept ((Source.items source).filterMap Source.Item.token?) = r at haccept ⊢
  obtain ⟨o | body, s'⟩ := r
  · exact haccept
  · exact .interpret host fuel body s'

theorem Home.perform {s : Session} (h : s.Home) {act : Eval Value} (ha : act.Keeps) :
    (s.perform act).2.Home := by
  unfold Session.perform
  cases hr : act s.machine with
  | ok v n => exact .of_kept (ha.ok hr) h.current h.callDepth _ _
  | error e n => cases e <;> exact .of_kept (ha.error hr) h.current h.callDepth _ _

end Session

end Lox
