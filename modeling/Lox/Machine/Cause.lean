import Lox.Fault
import Lox.Value

/-!
Why a program stops while it runs.
-/

namespace Lox

inductive RuntimeCause
  | undefinedVariable (name : String)
  | negatedNonNumber (operand : ValueType)
  | invalidUnary (lexeme : String)
  | invalidBinary (lexeme : String)
  | notAddable (left right : ValueType)
  | notNumbers (lexeme : String) (left right : ValueType)
  | divisionByZero
  | notCallable (callee : ValueType)
  | wrongArity (expected given : Nat)
  | stackOverflow
  | classUnsupported (name : String)
  | native (message : String)
  deriving DecidableEq, Repr

def RuntimeCause.message : RuntimeCause → String
  | .undefinedVariable name => "Undefined variable '" ++ name ++ "'."
  | .negatedNonNumber t => "Operand of '-' must be a number, got " ++ t.text ++ "."
  | .invalidUnary lexeme => "Invalid unary operator '" ++ lexeme ++ "'."
  | .invalidBinary lexeme => "Invalid binary operator '" ++ lexeme ++ "'."
  | .notAddable l r =>
    "Operands of '+' must be two numbers or include a string, got " ++ l.text ++ " and " ++
      r.text ++ "."
  | .notNumbers lexeme l r =>
    "Operands of '" ++ lexeme ++ "' must be numbers, got " ++ l.text ++ " and " ++ r.text ++ "."
  | .divisionByZero => "Division by zero."
  | .notCallable t => "Can only call functions, not " ++ t.text ++ "."
  | .wrongArity expected given =>
    "Expected " ++ toString expected ++ " arguments but got " ++ toString given ++ "."
  | .stackOverflow => "Stack overflow."
  | .classUnsupported name => "Classes are not supported (class '" ++ name ++ "')."
  | .native message => message

abbrev RuntimeFault := Fault RuntimeCause

end Lox
