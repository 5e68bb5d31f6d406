import Lox.Decimal.Text
import Lox.Tree.Basic

/-!
The text of a tree: every node in brackets, its head first and its parts behind it.
-/

namespace Lox

def Literal.text : Literal → String
  | .nil => "nil"
  | .boolean b => toString b
  | .number x => Decimal.markedText x
  | .string s => s

mutual

def Expr.text : Expr → String
  | .literal l => l.text
  | .grouping e => "(group " ++ e.text ++ ")"
  | .unary op e => "(" ++ op.lexeme ++ " " ++ e.text ++ ")"
  | .binary l op r => "(" ++ op.lexeme ++ " " ++ l.text ++ " " ++ r.text ++ ")"
  | .logical l op r => "(" ++ op.lexeme ++ " " ++ l.text ++ " " ++ r.text ++ ")"
  | .read _ name => name.lexeme
  | .assign _ name e => "(= " ++ name.lexeme ++ " " ++ e.text ++ ")"
  | .call callee _ args => "(call " ++ callee.text ++ Expr.spaced args ++ ")"

/-- Each text behind a blank. -/
def Expr.spaced : List Expr → String
  | [] => ""
  | e :: es => " " ++ e.text ++ Expr.spaced es

end

mutual

def Stmt.text : Stmt → String
  | .expression e => "(; " ++ e.text ++ ")"
  | .print e => "(print " ++ e.text ++ ")"
  | .var name none => "(var " ++ name.lexeme ++ ")"
  | .var name (some e) => "(var " ++ name.lexeme ++ " " ++ e.text ++ ")"
  | .block body => "(block" ++ Stmt.spaced body ++ ")"
  | .conditional c yes none => "(if " ++ c.text ++ " " ++ yes.text ++ ")"
  | .conditional c yes (some no) => "(if " ++ c.text ++ " " ++ yes.text ++ " " ++ no.text ++ ")"
  | .whileLoop c body => "(while " ++ c.text ++ " " ++ body.text ++ ")"
  | .function decl => Stmt.functionText decl
  | .returning _ none => "(return)"
  | .returning _ (some e) => "(return " ++ e.text ++ ")"
  | .classDecl name methods => "(class " ++ name.lexeme ++ Stmt.methodTexts methods ++ ")"

def Stmt.spaced : List Stmt → String
  | [] => ""
  | s :: ss => " " ++ s.text ++ Stmt.spaced ss

def Stmt.functionText : Function → String
  | ⟨name, params, body⟩ =>
    "(fun " ++ name.lexeme ++ " (" ++ " ".intercalate (params.map Token.lexeme) ++ ")" ++
      Stmt.spaced body ++ ")"

def Stmt.methodTexts : List Function → String
  | [] => ""
  | f :: fs => " " ++ Stmt.functionText f ++ Stmt.methodTexts fs

end

end Lox
