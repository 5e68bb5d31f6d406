import Lox.Fault
import Lox.Token.Basic

/-!
The scopes around a place in a program, the innermost one first. The outermost level of a program
is no scope: its names may be declared again and are found when the program runs.
-/

namespace Lox

/-- A name is declared before its initial value is looked at and defined behind it. -/
inductive Status
  | declared
  | defined
  deriving DecidableEq, Repr

abbrev Scope := List (String × Status)

abbrev Scopes := List Scope

def Scope.status? (s : Scope) (name : String) : Option Status := s.lookup name

/-- Gives a name of the innermost scope a new status. -/
def Scopes.mark (name : String) (status : Status) : Scopes → Scopes
  | [] => []
  | s :: ss => ((name, status) :: s) :: ss

def Scopes.declare (ss : Scopes) (name : Token) : Scopes := ss.mark name.lexeme .declared

def Scopes.define (ss : Scopes) (name : Token) : Scopes := ss.mark name.lexeme .defined

/-- The status of a name in the innermost scope. -/
def Scopes.here? (ss : Scopes) (name : Token) : Option Status :=
  ss.head?.bind (·.status? name.lexeme)

/-- How many scopes out the innermost one stands that has the name. -/
def Scopes.depth? (ss : Scopes) (name : Token) : Option Nat :=
  ss.findIdx? fun s => (s.status? name.lexeme).isSome

inductive ScopeCause
  | redeclared (name : String)
  | ownInitializer (name : String)
  | returnOutside
  deriving DecidableEq, Repr

def ScopeCause.message : ScopeCause → String
  | .redeclared name => "Variable '" ++ name ++ "' is already declared in this scope"
  | .ownInitializer name => "Can't read local variable '" ++ name ++ "' in its own initializer"
  | .returnOutside => "Can't return from top-level code"

end Lox
