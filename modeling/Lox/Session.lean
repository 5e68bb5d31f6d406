import Lox.Diagnostic
import Lox.Machine.Run
import Lox.Program
import Lox.Scope.Hops

/-!
A session runs one program after another on the same machine. Global variables, functions and the
table of hops last from one program to the next.

`run` looks at a source text stage by stage and runs it only if no stage finds a fault. The table of
hops is written before the last of these stages is known to be free of faults; as identities are
never given twice, entries for a program that does not run are never asked for.
-/

namespace Lox

structure Session where
  machine : Machine
  nextId : Nat
  /-- The fault that ended the program run last, if one did. -/
  lastFault : Option RuntimeFault

/-- How running a source text ends. A run without end is cut off for want of fuel. -/
inductive Outcome
  | done (result : String)
  | failed (f : Failure)
  | unfinished
  deriving DecidableEq, Repr

namespace Session

def start : Session := ⟨.start, 0, none⟩

def result (s : Session) : String := s.machine.result

def global? (s : Session) (name : String) : Option Value := s.machine.store.get? globals name

/-- The lines printed since they were taken last. -/
def takeLines (s : Session) : List String × Session :=
  (s.machine.printed.toList, { s with machine := { s.machine with printed := #[] } })

/-- The machine as it starts a program: among the global variables, with no call active. -/
def ready (s : Session) : Machine := { s.machine with current := globals, callDepth := 0 }

/-- Runs statements up to their end or the first fault. -/
def interpret (host : Host) (fuel : Nat) (body : List Stmt) (s : Session) : Outcome × Session :=
  match runAll host fuel body s.ready with
  | .ok _ m => (.done m.result, { s with machine := m, lastFault := none })
  | .error (.fault f) m => (.failed (.runtime f), { s with machine := m, lastFault := some f })
  | .error .outOfFuel m => (.unfinished, { s with machine := m, lastFault := none })

def recordAll (fs : List Finding) (s : Session) : Session :=
  { s with machine := { s.machine with hops := s.machine.hops.recordAll fs } }

/-- Settles the variables of a program that was read with the identities of the session. -/
def settle (p : Program) (s : Session) : List (Fault ScopeCause) × Session :=
  let fs := Stmt.listFindings false [] p.statements
  (fs.filterMap Finding.fault?, s.recordAll fs)

/-- Reads a program with fresh identities. -/
def read? (tokens : List Token) (s : Session) : Option (Program × Session) :=
  (Program.ofTokens? tokens s.nextId).map fun p => (p, { s with nextId := p.nextId })

/-- A list of tokens as a program that may be run, or how it fails before it is. -/
def accept (tokens : List Token) (s : Session) : Except Outcome (List Stmt) × Session :=
  match s.read? tokens with
  | none => (.error .unfinished, s)
  | some (p, s) =>
    match p.faults with
    | f :: fs => (.error (.failed (.parse (f :: fs))), s)
    | [] =>
      match s.settle p with
      | (f :: fs, s) => (.error (.failed (.resolve (f :: fs))), s)
      | ([], s) => (.ok p.statements, s)

def runTokens (host : Host) (fuel : Nat) (tokens : List Token) (s : Session) : Outcome × Session :=
  match s.accept tokens with
  | (.error o, s) => (o, s)
  | (.ok body, s) => s.interpret host fuel body

def run (host : Host) (fuel : Nat) (source : String) (s : Session) : Outcome × Session :=
  let items := Source.items source
  match items.filterMap Source.Item.fault? with
  | f :: fs => (.failed (.lex (f :: fs)), s)
  | [] => s.runTokens host fuel (items.filterMap Source.Item.token?)

/-- What an evaluation or a call by hand comes to. -/
inductive Answer
  | value (v : Value)
  | fault (f : RuntimeFault)
  | unfinished

def perform (act : Eval Value) (s : Session) : Answer × Session :=
  match act s.machine with
  | .ok v m => (.value v, { s with machine := m })
  | .error (.fault f) m => (.fault f, { s with machine := m })
  | .error .outOfFuel m => (.unfinished, { s with machine := m })

/-- Evaluates an expression where the session stands. -/
def evaluate (host : Host) (fuel : Nat) (e : Expr) (s : Session) : Answer × Session :=
  s.perform (eval host fuel e)

/-- Calls a function without a look at the number of its arguments or of the active calls. -/
def call (host : Host) (fuel : Nat) (c : Callable) (args : List Value) (line : Nat) (s : Session) :
    Answer × Session :=
  s.perform (apply host fuel c args line)

end Session

end Lox
