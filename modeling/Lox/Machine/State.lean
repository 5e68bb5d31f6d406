import Lox.Machine.Operator
import Lox.Machine.Store
import Lox.Scope.Hops

/-!
The machine that runs programs: its store, the frame it is in, the calls that are active, the lines
it has printed and the value it saw last.
-/

namespace Lox

/-- The most calls that may be active inside one another. -/
def maxCallDepth : Nat := 1024

/-- What a program reaches outside itself: a clock, read after a number of steps, and further
functions by name. -/
structure Host where
  clock : Nat → Float
  native : String → List Value → Except String Value

structure Machine where
  store : Store
  current : Nat
  hops : Hops
  callDepth : Nat
  printed : Array String
  last : Option Value
  nextClosure : Nat
  /-- How long the machine has been at work: the values it has seen and the calls it has made. -/
  steps : Nat

/-- The frame of the global variables. -/
def globals : Nat := 0

def clock : Native := ⟨"clock", 0⟩

/-- A machine that has run nothing yet knows the clock. -/
def Machine.start : Machine where
  store := (({} : Store).push none).define globals clock.name (.native clock)
  current := globals
  hops := ∅
  callDepth := 0
  printed := #[]
  last := none
  nextClosure := 0
  steps := 0

/-- A run stops at a fault, or because it has used up its steps. -/
inductive Stop
  | fault (f : RuntimeFault)
  | outOfFuel

abbrev Eval (α : Type) := EStateM Stop Machine α

/-- How a statement ends: by itself, or with a value for the call it is in. -/
inductive Flow
  | normal
  | returned (v : Value)

def raise {α : Type} (line : Nat) (cause : RuntimeCause) : Eval α := fun m =>
  .error (.fault ⟨line, cause⟩) m

def orRaise {α : Type} : Except RuntimeFault α → Eval α
  | .ok a => fun m => .ok a m
  | .error f => fun m => .error (.fault f) m

/-- The text of the value seen last. -/
def Machine.result (m : Machine) : String := (m.last.map Value.text).getD ""

/-- Keeps a value as the one seen last. -/
def see (v : Value) : Eval Unit := fun m =>
  .ok () { m with last := some v, steps := m.steps + 1 }

def printLine (v : Value) : Eval Unit := fun m =>
  .ok () { m with last := some v, printed := m.printed.push v.text, steps := m.steps + 1 }

def defineHere (name : String) (v : Value) : Eval Unit := fun m =>
  .ok () { m with store := m.store.define m.current name v }

/-- The frame in which the variable of an occurrence is looked for. -/
def Machine.frameOf? (m : Machine) (id : Nat) (name : String) : Option Nat :=
  match m.hops[id]? with
  | some hops => m.store.ancestor? hops m.current
  | none => m.store.binder? globals name

@[noinline] def readVariable (id : Nat) (name : Token) : Eval Value := fun m =>
  match (m.frameOf? id name.lexeme).bind (m.store.here? · name.lexeme) with
  | some v => .ok v m
  | none => .error (.fault ⟨name.line, .undefinedVariable name.lexeme⟩) m

@[noinline] def assignVariable (id : Nat) (name : Token) (v : Value) : Eval Unit := fun m =>
  match m.frameOf? id name.lexeme with
  | some frame => .ok () { m with store := m.store.define frame name.lexeme v }
  | none => .error (.fault ⟨name.line, .undefinedVariable name.lexeme⟩) m

/-- Adds a frame inside another and gives its place. -/
@[noinline] def openFrame (enclosing : Nat) : Eval Nat := fun m =>
  .ok m.store.size { m with store := m.store.push (some enclosing) }

/-- Runs in another frame and comes back, however the run ends. -/
@[inline] def within {α : Type} (frame : Nat) (run : Eval α) : Eval α := fun m =>
  let outer := m.current
  match run { m with current := frame } with
  | .ok a m => .ok a { m with current := outer }
  | .error e m => .error e { m with current := outer }

/-- Runs as one more active call, unless there are too many. -/
@[inline] def asCall {α : Type} (line : Nat) (run : Eval α) : Eval α := fun m =>
  if maxCallDepth ≤ m.callDepth then raise line .stackOverflow m
  else
    match run { m with callDepth := m.callDepth + 1 } with
    | .ok a m => .ok a { m with callDepth := m.callDepth - 1 }
    | .error e m => .error e { m with callDepth := m.callDepth - 1 }

/-- Declares a function of the program in the current frame. -/
@[noinline] def declareFunction (decl : Function) : Eval Unit := fun m =>
  let c : Closure := ⟨m.nextClosure, decl, m.current⟩
  .ok () { m with
    nextClosure := m.nextClosure + 1
    store := m.store.define m.current decl.name.lexeme (.closure c) }

/-- Binds parameters to arguments as far as there are both. -/
def Store.bindParams (s : Store) (frame : Nat) : List Token → List Value → Store
  | p :: ps, v :: vs => Store.bindParams (s.define frame p.lexeme v) frame ps vs
  | _, _ => s

@[noinline] def openCall (c : Closure) (args : List Value) : Eval Nat := fun m =>
  let frame := m.store.size
  .ok frame { m with
    store := (m.store.push (some c.frame)).bindParams frame c.decl.params args
    steps := m.steps + 1 }

@[noinline] def callNative (host : Host) (n : Native) (args : List Value) (line : Nat) :
    Eval Value := fun m =>
  let after := { m with steps := m.steps + 1 }
  if n = clock then .ok (.number (host.clock m.steps)) after
  else
    match host.native n.name args with
    | .ok v => .ok v after
    | .error message => .error (.fault ⟨line, .native message⟩) after

inductive Callable
  | native (n : Native)
  | closure (c : Closure)

def Callable.arity : Callable → Nat
  | .native n => n.arity
  | .closure c => c.decl.params.length

def Callable.name : Callable → String
  | .native n => n.name
  | .closure c => c.decl.name.lexeme

def Value.callable? : Value → Option Callable
  | .native n => some (.native n)
  | .closure c => some (.closure c)
  | _ => none

/-- The callee of a call, if it may be called with so many arguments. -/
@[noinline] def calleeOf (line : Nat) (v : Value) (given : Nat) : Except RuntimeFault Callable :=
  match v.callable? with
  | none => .error ⟨line, .notCallable v.type⟩
  | some c => if c.arity = given then .ok c else .error ⟨line, .wrongArity c.arity given⟩

end Lox
