import Lox.Fault
import Lox.Token.Basic

/-!
Why a list of tokens is no program: something else was wanted, something is nested too deeply, a
list is too long, or the left side of an assignment is no name.
-/

namespace Lox.Grammar

/-- The most arguments of a call and the most parameters of a function. -/
def maxArity : Nat := 254

/-- The most statements, blocks and expressions open at once, counted together. -/
def maxDepth : Nat := 256

/-- The token at which a rule failed. -/
inductive Found
  | token (lexeme : String)
  | endOfInput
  deriving DecidableEq, Repr

inductive Callee
  | function
  | method
  deriving DecidableEq, Repr

inductive Named
  | klass
  | callee (c : Callee)
  | parameter
  | variable
  deriving DecidableEq, Repr

/-- Where a symbol is wanted. -/
inductive Place
  | beforeClassBody
  | afterClassBody
  | afterName (c : Callee)
  | afterParameters
  | beforeBody (c : Callee)
  | afterVariable
  | afterKeyword (k : Keyword)
  | afterLoopCondition
  | afterForClauses
  | afterIfCondition
  | afterWhileCondition
  | afterPrinted
  | afterReturned
  | afterExpression
  | afterBlock
  | afterArguments
  deriving DecidableEq, Repr

inductive Wanted
  | name (of : Named)
  | symbol (s : Symbol) (place : Place)
  | expression
  deriving DecidableEq, Repr

inductive Nesting
  | statement
  | block
  | expression
  deriving DecidableEq, Repr

inductive Listed
  | parameters
  | arguments
  deriving DecidableEq, Repr

inductive SyntaxCause
  | missing (wanted : Wanted) (found : Found)
  | tooDeep (what : Nesting) (found : Found)
  | tooMany (what : Listed)
  | invalidTarget
  deriving DecidableEq, Repr

def Found.text : Found → String
  | .token lexeme => "found '" ++ lexeme ++ "'"
  | .endOfInput => "found end of input"

def Callee.text : Callee → String
  | .function => "function"
  | .method => "method"

def Named.text : Named → String
  | .klass => "class"
  | .callee c => c.text
  | .parameter => "parameter"
  | .variable => "variable"

def Place.text : Place → String
  | .beforeClassBody => "before class body"
  | .afterClassBody => "after class body"
  | .afterName c => "after " ++ c.text ++ " name"
  | .afterParameters => "after parameters"
  | .beforeBody c => "before " ++ c.text ++ " body"
  | .afterVariable => "after variable declaration"
  | .afterKeyword k => "after '" ++ k.text ++ "'"
  | .afterLoopCondition => "after loop condition"
  | .afterForClauses => "after for clauses"
  | .afterIfCondition => "after if condition"
  | .afterWhileCondition => "after while condition"
  | .afterPrinted => "after value"
  | .afterReturned => "after return value"
  | .afterExpression => "after expression"
  | .afterBlock => "after block"
  | .afterArguments => "after arguments"

def Wanted.text : Wanted → String
  | .name of => of.text ++ " name"
  | .symbol s place => "'" ++ s.text ++ "' " ++ place.text
  | .expression => "expression"

def Nesting.text : Nesting → String
  | .statement => "Statement"
  | .block => "Block"
  | .expression => "Expression"

def Listed.text : Listed → String
  | .parameters => "parameters"
  | .arguments => "arguments"

def SyntaxCause.message : SyntaxCause → String
  | .missing wanted found => "Expected " ++ wanted.text ++ ", " ++ found.text
  | .tooDeep what found => what.text ++ " nests too deeply, " ++ found.text
  | .tooMany what => "Can't have more than " ++ toString maxArity ++ " " ++ what.text
  | .invalidTarget => "Invalid assignment target"

end Lox.Grammar
