import Lox.Decimal.Text
import Lox.Tree.Basic

/-!
The values that a program computes with.
-/

namespace Lox

/-- A function of the host. -/
structure Native where
  name : String
  arity : Nat
  deriving DecidableEq, Repr

/-- A function of the program with the frame in which it was declared. Every execution of a
declaration gives a function with an identity of its own. -/
structure Closure where
  id : Nat
  decl : Function
  frame : Nat

inductive Value
  | nil
  | boolean (b : Bool)
  | number (x : Float)
  | string (s : String)
  | native (n : Native)
  | closure (c : Closure)

instance : Inhabited Value := ⟨.nil⟩

inductive ValueType
  | nil
  | boolean
  | number
  | string
  | function
  deriving DecidableEq, Repr

def ValueType.text : ValueType → String
  | .nil => "nil"
  | .boolean => "boolean"
  | .number => "number"
  | .string => "string"
  | .function => "function"

namespace Value

def ofLiteral : Literal → Value
  | .nil => .nil
  | .boolean b => .boolean b
  | .number x => .number x
  | .string s => .string s

def type : Value → ValueType
  | .nil => .nil
  | .boolean _ => .boolean
  | .number _ => .number
  | .string _ => .string
  | .native _ => .function
  | .closure _ => .function

/-- Everything counts as true but nil and false. -/
def truthy : Value → Bool
  | .nil => false
  | .boolean b => b
  | _ => true

def text : Value → String
  | .nil => "nil"
  | .boolean b => toString b
  | .number x => Decimal.plainText x
  | .string s => s
  | .native n => "<native fn " ++ n.name ++ ">"
  | .closure c => "<fn " ++ c.decl.name.lexeme ++ ">"

/-- Equality as a program sees it: numbers as numbers, functions of the host by name and functions
of the program by identity. -/
def same : Value → Value → Bool
  | .nil, .nil => true
  | .boolean a, .boolean b => a == b
  | .number x, .number y => x == y
  | .string s, .string t => s == t
  | .native m, .native n => m.name == n.name
  | .closure c, .closure d => c.id == d.id
  | _, _ => false

end Value

end Lox
