import Lox.Token.Basic

/-!
The tree of a program. Every read of a variable and every assignment carries an identity, so that
two occurrences of one name can be told apart.
-/

namespace Lox

inductive Literal
  | nil
  | boolean (value : Bool)
  | number (value : Float)
  | string (value : String)
  deriving DecidableEq

inductive Expr
  | literal (value : Literal)
  | grouping (inner : Expr)
  | unary (operator : Token) (operand : Expr)
  | binary (left : Expr) (operator : Token) (right : Expr)
  | logical (left : Expr) (operator : Token) (right : Expr)
  | read (id : Nat) (name : Token)
  | assign (id : Nat) (name : Token) (value : Expr)
  | call (callee : Expr) (paren : Token) (arguments : List Expr)

/-- A function or a method over statements of type `σ`. -/
structure FunctionDecl (σ : Type) where
  name : Token
  params : List Token
  body : List σ

inductive Stmt
  | expression (value : Expr)
  | print (value : Expr)
  | var (name : Token) (initial : Option Expr)
  | block (body : List Stmt)
  | conditional (condition : Expr) (yes : Stmt) (no : Option Stmt)
  | whileLoop (condition : Expr) (body : Stmt)
  | function (decl : FunctionDecl Stmt)
  | returning (keyword : Token) (value : Option Expr)
  | classDecl (name : Token) (methods : List (FunctionDecl Stmt))

abbrev Function := FunctionDecl Stmt

instance : Inhabited Expr := ⟨.literal .nil⟩
instance : Inhabited Stmt := ⟨.block []⟩

end Lox
