import Lox.Grammar.Cause
import Lox.Tree.Basic

/-!
A rule of the grammar reads tokens off the front of those still ahead. It succeeds with what it has
read, or it is refused at a token. Between rules goes the state: the tokens ahead, how many were
read, how many rules are open inside one another, the faults noted so far and the next identity.
-/

namespace Lox.Grammar

structure State where
  rest : List Token
  position : Nat
  endLine : Nat
  depth : Nat
  faults : Array (Fault SyntaxCause)
  nextId : Nat

/-- A rule fails with a fault, or because reading on would change nothing for ever. -/
inductive Halt
  | refused (f : Fault SyntaxCause)
  | endless

abbrev Rule (α : Type) := EStateM Halt State α

def State.found (s : State) : Found :=
  match s.rest with
  | t :: _ => .token t.lexeme
  | [] => .endOfInput

/-- The line of the next token, or that of the end. -/
def State.line (s : State) : Nat :=
  match s.rest with
  | t :: _ => t.line
  | [] => s.endLine

def State.drop (n : Nat) (s : State) : State :=
  { s with rest := s.rest.drop n, position := s.position + n }

def State.note (line : Nat) (cause : SyntaxCause) (s : State) : State :=
  { s with faults := s.faults.push ⟨line, cause⟩ }

def refuse {α : Type} (cause : Found → SyntaxCause) : Rule α := fun s =>
  .error (.refused ⟨s.line, cause s.found⟩) s

/-- Whether the next token is of the given kind. -/
def ahead (k : Kind) : Rule Bool := fun s =>
  match s.rest with
  | t :: _ => .ok (t.kind = k) s
  | [] => .ok false s

def atEnd : Rule Bool := fun s => .ok s.rest.isEmpty s

/-- Reads the next token if `f` makes something of it. -/
def acceptMap {α : Type} (f : Token → Option α) : Rule (Option α) := fun s =>
  match s.rest with
  | t :: _ =>
    match f t with
    | some a => .ok (some a) (s.drop 1)
    | none => .ok none s
  | [] => .ok none s

def acceptIf (p : Kind → Bool) : Rule (Option Token) :=
  acceptMap fun t => if p t.kind then some t else none

def accept (k : Kind) : Rule (Option Token) := acceptIf (· = k)

def expect (k : Kind) (wanted : Wanted) : Rule Token := do
  match ← accept k with
  | some t => return t
  | none => refuse (.missing wanted)

def expectSymbol (s : Symbol) (place : Place) : Rule Token := expect (.symbol s) (.symbol s place)

def expectName (of : Named) : Rule Token := expect .identifier (.name of)

def freshId : Rule Nat := fun s => .ok s.nextId { s with nextId := s.nextId + 1 }

/-- Notes a fault at the next token and reads on. -/
def noteHere (cause : SyntaxCause) : Rule Unit := fun s => .ok () (s.note s.line cause)

def noteAt (line : Nat) (cause : SyntaxCause) : Rule Unit := fun s => .ok () (s.note line cause)

/-- Runs a rule one level further in, unless all levels are taken. -/
def nested {α : Type} (what : Nesting) (rule : Rule α) : Rule α := fun s =>
  if maxDepth ≤ s.depth then refuse (.tooDeep what) s
  else
    match rule { s with depth := s.depth + 1 } with
    | .ok a t => .ok a { t with depth := t.depth - 1 }
    | .error e t => .error e { t with depth := t.depth - 1 }

/-- Repeats a step until it has nothing to add. A step that adds something has read a token, so the
tokens ahead bound the number of steps. -/
def repeatedly {α : Type} (a : α) (step : α → Rule (Option α)) : Rule α := do
  go (← get).rest a
where
  go : List Token → α → Rule α
    | [], a => pure a
    | _ :: bound, a => do
      match ← step a with
      | some b => go bound b
      | none => return a

end Lox.Grammar
