import Lox.Machine.Run
import Lox.Proofs.Scope.Site

/-!
Runs that tell what happens to variables. A tape is a machine with its past; the evaluator on tapes
does what the evaluator on machines does and writes down what it comes by.

An activation is one execution of a block or one call of a function. It is known by the frame that
it makes, and the session counts as the activation of the global frame.
-/

namespace Lox

/-- How an activation comes about: another one executes a block, or a function is called. -/
inductive Origin
  | block (executing : Nat)
  | call (function : Nat)

inductive Event
  /-- An activation of the scope starts. -/
  | entered (activation : Nat) (scope : Path) (origin : Origin)
  /-- The activation executes the declaration of a function, whose scope is given. -/
  | made (function : Nat) (scope : Path) (activation : Nat)
  /-- A declaration or a call gives a name its first value. -/
  | bound (activation : Nat) (name : String) (value : Value)
  | read (activation : Nat) (id : Nat) (name : Token) (machine : Machine)
  | assigned (activation : Nat) (id : Nat) (name : Token) (value : Value) (machine : Machine)

/-- What happened before, the latest event first. -/
abbrev Past := List Event

namespace Past

/-- The scope of an activation and how it came about. -/
def entered? (past : Past) (activation : Nat) : Option (Path × Origin) :=
  past.findSome? fun
    | .entered a scope origin => if a = activation then some (scope, origin) else none
    | _ => none

/-- The scope of a function and the activation that it belongs to. -/
def maker? (past : Past) (function : Nat) : Option (Path × Nat) :=
  past.findSome? fun
    | .made f scope a => if f = function then some (scope, a) else none
    | _ => none

/-- The parameters of a call get their first values. -/
def bindParams (past : Past) (activation : Nat) : List Token → List Value → Past
  | p :: ps, v :: vs => bindParams (.bound activation p.lexeme v :: past) activation ps vs
  | _, _ => past

end Past

structure Tape where
  machine : Machine
  past : Past

abbrev Told (α : Type) := EStateM Stop Tape α

namespace Told

variable {α : Type}

def lift (act : Eval α) : Told α := fun t =>
  match act t.machine with
  | .ok a m => .ok a { t with machine := m }
  | .error e m => .error e { t with machine := m }

def tell (f : Machine → Past → Past) : Told Unit := fun t =>
  .ok () { t with past := f t.machine t.past }

def note (event : Machine → Event) : Told Unit := tell fun m past => event m :: past

/-- The scope of a function that was made before. -/
def scopeOf (function : Nat) : Told Path := fun t =>
  .ok ((t.past.maker? function).map Prod.fst |>.getD []) t

/-! ### What is told of -/

def read (a id : Nat) (name : Token) : Told Value := do
  note (.read a id name)
  lift (readVariable id name)

def assign (a id : Nat) (name : Token) (v : Value) : Told Unit := do
  note (.assigned a id name v)
  lift (assignVariable id name v)

def define (a : Nat) (x : String) (v : Value) : Told Unit := do
  note fun _ => .bound a x v
  lift (defineHere x v)

def declare (a : Nat) (path : Path) (decl : Function) : Told Unit := do
  tell fun m past =>
    .bound a decl.name.lexeme (.closure ⟨m.nextClosure, decl, m.current⟩) ::
      .made m.nextClosure path a :: past
  lift (declareFunction decl)

/-- Starts a block at a place, in a frame of its own. -/
def enterBlock (a : Nat) (path : Path) : Told Nat := do
  let frame ← lift (do openFrame (← get).current)
  note fun _ => .entered frame path (.block a)
  return frame

/-- Starts a call. Its scope is that of the function, which was made before. -/
def enterCall (c : Closure) (args : List Value) : Told (Path × Nat) := do
  let scope ← scopeOf c.id
  let frame ← lift (openCall c args)
  tell fun _ past =>
    Past.bindParams (.entered frame scope (.call c.id) :: past) frame c.decl.params args
  return (scope, frame)

/-! ### Runs inside runs -/

def within (frame : Nat) (run : Told α) : Told α := fun t =>
  let outer := t.machine.current
  match run { t with machine := { t.machine with current := frame } } with
  | .ok a t => .ok a { t with machine := { t.machine with current := outer } }
  | .error e t => .error e { t with machine := { t.machine with current := outer } }

def asCall (line : Nat) (run : Told α) : Told α := fun t =>
  if maxCallDepth ≤ t.machine.callDepth then lift (raise line .stackOverflow) t
  else
    match run { t with machine := { t.machine with callDepth := t.machine.callDepth + 1 } } with
    | .ok a t => .ok a { t with machine := { t.machine with callDepth := t.machine.callDepth - 1 } }
    | .error e t =>
      .error e { t with machine := { t.machine with callDepth := t.machine.callDepth - 1 } }

section

variable (host : Host)

mutual

def eval : (fuel : Nat) → (activation : Nat) → Expr → Told Value
  | 0, _, _ => throw .outOfFuel
  | fuel + 1, a, e =>
    match e with
    | .literal l => return .ofLiteral l
    | .grouping e => eval fuel a e
    | .unary op e => do
      let v ← eval fuel a e
      lift (orRaise (applyUnary op v))
    | .binary l op r => do
      let v ← eval fuel a l
      let w ← eval fuel a r
      lift (orRaise (applyBinary op v w))
    | .logical l op r => do
      let v ← eval fuel a l
      if decides op v then return v else eval fuel a r
    | .read id name => read a id name
    | .assign id name e => do
      let v ← eval fuel a e
      assign a id name v
      return v
    | .call callee paren args => do
      let v ← eval fuel a callee
      let vs ← evalAll fuel a args
      let c ← lift (orRaise (calleeOf paren.line v vs.length))
      asCall paren.line (apply fuel c vs paren.line)

def evalAll : (fuel : Nat) → (activation : Nat) → List Expr → Told (List Value)
  | 0, _, _ => throw .outOfFuel
  | _ + 1, _, [] => return []
  | fuel + 1, a, e :: es => do
    let v ← eval fuel a e
    let vs ← evalAll fuel a es
    return v :: vs

def apply : (fuel : Nat) → Callable → List Value → (line : Nat) → Told Value
  | 0, _, _, _ => throw .outOfFuel
  | _ + 1, .native n, args, line => lift (callNative host n args line)
  | fuel + 1, .closure c, args, _ => do
    let (scope, frame) ← enterCall c args
    match ← within frame (execAll fuel frame scope 0 c.decl.body) with
    | .returned v => return v
    | .normal => return .nil

/-- Executes the statement at a place. -/
def exec : (fuel : Nat) → (activation : Nat) → Path → Stmt → Told Flow
  | 0, _, _, _ => throw .outOfFuel
  | fuel + 1, a, path, s =>
    match s with
    | .expression e => do
      let v ← eval fuel a e
      lift (see v)
      return .normal
    | .print e => do
      let v ← eval fuel a e
      lift (printLine v)
      return .normal
    | .var name none => do
      define a name.lexeme .nil
      return .normal
    | .var name (some e) => do
      let v ← eval fuel a e
      lift (see v)
      define a name.lexeme v
      return .normal
    | .block body => do
      let frame ← enterBlock a path
      within frame (execAll fuel frame path 0 body)
    | .conditional c yes no => do
      let v ← eval fuel a c
      lift (see v)
      if v.truthy then exec fuel a (0 :: path) yes
      else
        match no with
        | some no => exec fuel a (1 :: path) no
        | none => return .normal
    | .whileLoop c body => do
      let v ← eval fuel a c
      lift (see v)
      if v.truthy then
        match ← exec fuel a (0 :: path) body with
        | .returned v => return .returned v
        | .normal => exec fuel a path s
      else return .normal
    | .function decl => do
      declare a path decl
      return .normal
    | .returning _ none => return .returned .nil
    | .returning _ (some e) => do
      let v ← eval fuel a e
      lift (see v)
      return .returned v
    | .classDecl name _ => lift (raise name.line (.classUnsupported name.lexeme))

def execAll : (fuel : Nat) → (activation : Nat) → Path → (index : Nat) → List Stmt → Told Flow
  | 0, _, _, _, _ => throw .outOfFuel
  | _ + 1, _, _, _, [] => return .normal
  | fuel + 1, a, path, i, s :: ss => do
    match ← exec fuel a (i :: path) s with
    | .returned v => return .returned v
    | .normal => execAll fuel a path (i + 1) ss

end

/-- Runs the statements of a program at a place. -/
def runAll (fuel : Nat) (path : Path) (i : Nat) : List Stmt → Told Unit
  | [] => return ()
  | s :: ss => do
    let _ ← exec host fuel globals (i :: path) s
    runAll fuel path (i + 1) ss

end

/-! ### What is told does not change what is done -/

/-- A run on tapes does to the machine what a run on machines does. -/
def Tells (x : Told α) (y : Eval α) : Prop := ∀ t, match x t with
  | .ok a t' => y t.machine = .ok a t'.machine
  | .error e t' => y t.machine = .error e t'.machine

namespace Tells

variable {β : Type} {x : Told α} {y : Eval α}

theorem pure (a : α) : Tells (pure a) (pure a) := fun _ => rfl

theorem outOfFuel : Tells (throw .outOfFuel : Told α) (throw .outOfFuel) := fun _ => rfl

theorem lift (y : Eval α) : Tells (lift y) y := by
  intro t
  rw [Told.lift]
  cases h : y t.machine <;> rfl

theorem bind {f : α → Told β} {g : α → Eval β} (hx : Tells x y) (hf : ∀ a, Tells (f a) (g a)) :
    Tells (x >>= f) (y >>= g) := by
  intro t
  have ht := hx t
  simp only [Bind.bind, EStateM.bind]
  cases hr : x t with
  | error e t' =>
      rw [hr] at ht
      simp only [ht]
  | ok a t' =>
      rw [hr] at ht
      simp only [ht]
      exact hf a t'

theorem tell {f : Machine → Past → Past} {r : Unit → Told α} (h : Tells (r ()) y) :
    Tells (Told.tell f >>= r) y := fun t => h { t with past := f t.machine t.past }

theorem scopeOf {function : Nat} {f : Path → Told α} (h : ∀ scope, Tells (f scope) y) :
    Tells (Told.scopeOf function >>= f) y := fun t => h _ t

theorem enterBlock {a : Nat} {path : Path} {f : Nat → Told α} {g : Nat → Eval α}
    (h : ∀ frame, Tells (f frame) (g frame)) :
    Tells (Told.enterBlock a path >>= f) (get >>= fun m => openFrame m.current >>= g) := by
  rw [Told.enterBlock]
  simp only [bind_assoc, pure_bind]
  rw [← bind_assoc get]
  exact bind (lift _) fun frame => tell (h frame)

theorem enterCall {c : Closure} {args : List Value} {f : Path × Nat → Told α} {g : Nat → Eval α}
    (h : ∀ scope frame, Tells (f (scope, frame)) (g frame)) :
    Tells (Told.enterCall c args >>= f) (openCall c args >>= g) := by
  rw [Told.enterCall]
  simp only [bind_assoc, pure_bind]
  exact scopeOf fun scope => bind (lift _) fun frame => tell (h scope frame)

theorem within (frame : Nat) (h : Tells x y) : Tells (within frame x) (Lox.within frame y) := by
  intro t
  have ht := h { t with machine := { t.machine with current := frame } }
  rw [Told.within, Lox.within]
  cases hr : x { t with machine := { t.machine with current := frame } } <;> rw [hr] at ht <;>
    simp only [ht]

theorem asCall (line : Nat) (h : Tells x y) : Tells (asCall line x) (Lox.asCall line y) := by
  intro t
  have ht := h { t with machine := { t.machine with callDepth := t.machine.callDepth + 1 } }
  rw [Told.asCall, Lox.asCall]
  by_cases hd : maxCallDepth ≤ t.machine.callDepth
  · simp only [if_pos hd]
    rfl
  · simp only [if_neg hd]
    cases hr : x { t with machine := { t.machine with callDepth := t.machine.callDepth + 1 } } <;>
      rw [hr] at ht <;> simp only [ht]

end Tells

variable (host : Host)

/-- What the evaluator does with so much fuel on machines, it does on tapes. -/
structure AllTell (fuel : Nat) : Prop where
  eval : ∀ a e, Tells (eval host fuel a e) (Lox.eval host fuel e)
  evalAll : ∀ a es, Tells (evalAll host fuel a es) (Lox.evalAll host fuel es)
  apply : ∀ c args line, Tells (apply host fuel c args line) (Lox.apply host fuel c args line)
  exec : ∀ a path s, Tells (exec host fuel a path s) (Lox.exec host fuel s)
  execAll : ∀ a path i ss, Tells (execAll host fuel a path i ss) (Lox.execAll host fuel ss)

variable {host} {fuel : Nat}

theorem AllTell.eval_succ (h : AllTell host fuel) (a : Nat) (e : Expr) :
    Tells (Told.eval host (fuel + 1) a e) (Lox.eval host (fuel + 1) e) := by
  unfold Told.eval Lox.eval
  cases e with
  | literal l => exact .pure _
  | grouping e => exact h.eval a e
  | unary op e => exact .bind (h.eval a e) fun v => .lift _
  | binary l op r => exact .bind (h.eval a l) fun v => .bind (h.eval a r) fun w => .lift _
  | logical l op r =>
      refine .bind (h.eval a l) fun v => ?_
      split
      · exact .pure _
      · exact h.eval a r
  | read id name => exact .tell (.lift _)
  | assign id name e =>
      exact .bind (h.eval a e) fun v => .bind (.tell (.lift _)) fun _ => .pure _
  | call callee paren args =>
      refine .bind (h.eval a callee) fun v => .bind (h.evalAll a args) fun vs => ?_
      exact .bind (.lift _) fun c => .asCall _ (h.apply c vs _)

theorem AllTell.evalAll_succ (h : AllTell host fuel) (a : Nat) (es : List Expr) :
    Tells (Told.evalAll host (fuel + 1) a es) (Lox.evalAll host (fuel + 1) es) := by
  unfold Told.evalAll Lox.evalAll
  cases es with
  | nil => exact .pure _
  | cons e es => exact .bind (h.eval a e) fun v => .bind (h.evalAll a es) fun vs => .pure _

theorem AllTell.apply_succ (h : AllTell host fuel) (c : Callable) (args : List Value)
    (line : Nat) :
    Tells (Told.apply host (fuel + 1) c args line) (Lox.apply host (fuel + 1) c args line) := by
  unfold Told.apply Lox.apply
  cases c with
  | native n => exact .lift _
  | closure c =>
      refine .enterCall fun scope frame => ?_
      refine .bind (.within frame (h.execAll frame scope 0 _)) fun flow => ?_
      cases flow <;> exact .pure _

theorem AllTell.exec_succ (h : AllTell host fuel) (a : Nat) (path : Path) (s : Stmt) :
    Tells (Told.exec host (fuel + 1) a path s) (Lox.exec host (fuel + 1) s) := by
  unfold Told.exec Lox.exec
  cases s with
  | expression e => exact .bind (h.eval a e) fun v => .bind (.lift _) fun _ => .pure _
  | print e => exact .bind (h.eval a e) fun v => .bind (.lift _) fun _ => .pure _
  | var name initial =>
      cases initial with
      | none => exact .bind (.tell (.lift _)) fun _ => .pure _
      | some e =>
          exact .bind (h.eval a e) fun v => .bind (.lift _) fun _ =>
            .bind (.tell (.lift _)) fun _ => .pure _
  | block body =>
      exact .enterBlock fun frame => .within frame (h.execAll frame path 0 body)
  | conditional c yes no =>
      refine .bind (h.eval a c) fun v => .bind (.lift _) fun _ => ?_
      split
      · exact h.exec a _ yes
      · cases no with
        | none => exact .pure _
        | some no => exact h.exec a _ no
  | whileLoop c body =>
      refine .bind (h.eval a c) fun v => .bind (.lift _) fun _ => ?_
      split
      · refine .bind (h.exec a _ body) fun flow => ?_
        cases flow with
        | normal => exact h.exec a path _
        | returned v => exact .pure _
      · exact .pure _
  | function decl => exact .bind (.tell (.lift _)) fun _ => .pure _
  | returning keyword value =>
      cases value with
      | none => exact .pure _
      | some e => exact .bind (h.eval a e) fun v => .bind (.lift _) fun _ => .pure _
  | classDecl name methods => exact .lift _

theorem AllTell.execAll_succ (h : AllTell host fuel) (a : Nat) (path : Path) (i : Nat)
    (ss : List Stmt) :
    Tells (Told.execAll host (fuel + 1) a path i ss) (Lox.execAll host (fuel + 1) ss) := by
  unfold Told.execAll Lox.execAll
  cases ss with
  | nil => exact .pure _
  | cons s ss =>
      refine .bind (h.exec a _ s) fun flow => ?_
      cases flow with
      | normal => exact h.execAll a path (i + 1) ss
      | returned v => exact .pure _

variable (host)

theorem allTell (fuel : Nat) : AllTell host fuel := by
  induction fuel with
  | zero =>
      refine ⟨fun _ _ => ?_, fun _ _ => ?_, fun _ _ _ => ?_, fun _ _ _ => ?_, fun _ _ _ _ => ?_⟩
      · rw [Told.eval, Lox.eval]
        exact .outOfFuel
      · rw [Told.evalAll, Lox.evalAll]
        exact .outOfFuel
      · rw [Told.apply, Lox.apply]
        exact .outOfFuel
      · rw [Told.exec, Lox.exec]
        exact .outOfFuel
      · rw [Told.execAll, Lox.execAll]
        exact .outOfFuel
  | succ fuel ih =>
      exact ⟨ih.eval_succ, ih.evalAll_succ, ih.apply_succ, ih.exec_succ, ih.execAll_succ⟩

theorem runAll_tells (fuel : Nat) (path : Path) (i : Nat) (ss : List Stmt) :
    Tells (runAll host fuel path i ss) (Lox.runAll host fuel ss) := by
  induction ss generalizing i with
  | nil => exact .pure _
  | cons s ss ih => exact .bind ((allTell host fuel).exec _ _ s) fun _ => ih (i + 1)

end Told

end Lox
