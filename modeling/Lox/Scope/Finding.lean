import Lox.Scope.Basic
import Lox.Tree.Basic

/-!
What is found on a walk through a program: where each occurrence of a variable is bound, and which
declarations, reads and returns are at fault. The walk goes through the program in reading order,
save that an assignment is settled after its value.
-/

namespace Lox

inductive Finding
  /-- The occurrence is bound so many scopes out, or in none. -/
  | settled (id : Nat) (name : String) (depth : Option Nat)
  | fault (f : Fault ScopeCause)
  deriving DecidableEq, Repr

def Finding.fault? : Finding → Option (Fault ScopeCause)
  | .settled .. => none
  | .fault f => some f

/-- A line that says where an occurrence was found. -/
def Finding.resolution? : Finding → Option String
  | .settled _ name (some depth) =>
    some ("Resolved '" ++ name ++ "' at depth " ++ toString depth)
  | .settled _ name none => some ("Resolved '" ++ name ++ "' as global")
  | .fault _ => none

def settle (ss : Scopes) (id : Nat) (name : Token) : Finding :=
  .settled id name.lexeme (ss.depth? name)

/-- A declaration is at fault when its scope has the name already. -/
def declareFault (ss : Scopes) (name : Token) : List Finding :=
  if (ss.here? name).isSome then [.fault ⟨name.line, .redeclared name.lexeme⟩] else []

/-- A read is at fault when the innermost scope has the name declared but not defined. -/
def readFault (ss : Scopes) (name : Token) : List Finding :=
  if ss.here? name = some .declared then [.fault ⟨name.line, .ownInitializer name.lexeme⟩] else []

/-- A return is at fault outside functions and methods. -/
def returnFault (inFunction : Bool) (keyword : Token) : List Finding :=
  if inFunction then [] else [.fault ⟨keyword.line, .returnOutside⟩]

mutual

def Expr.findings (ss : Scopes) : Expr → List Finding
  | .literal _ => []
  | .grouping e => e.findings ss
  | .unary _ e => e.findings ss
  | .binary l _ r => l.findings ss ++ r.findings ss
  | .logical l _ r => l.findings ss ++ r.findings ss
  | .read id name => readFault ss name ++ [settle ss id name]
  | .assign id name e => e.findings ss ++ [settle ss id name]
  | .call callee _ args => callee.findings ss ++ Expr.listFindings ss args

def Expr.listFindings (ss : Scopes) : List Expr → List Finding
  | [] => []
  | e :: es => e.findings ss ++ Expr.listFindings ss es

end

/-- The scopes behind a statement: it may have declared names in the innermost one, itself or, where
a declaration stands alone as the body of a conditional or a loop, through a part. -/
def Scopes.after (ss : Scopes) : Stmt → Scopes
  | .var name _ => (ss.declare name).define name
  | .function decl => (ss.declare decl.name).define decl.name
  | .classDecl name _ => (ss.declare name).define name
  | .conditional _ yes none => Scopes.after ss yes
  | .conditional _ yes (some no) => Scopes.after (Scopes.after ss yes) no
  | .whileLoop _ body => Scopes.after ss body
  | _ => ss

/-- Parameters are declared and defined one by one. -/
def Scopes.bindParams (ss : Scopes) : List Token → Scopes
  | [] => ss
  | p :: ps => Scopes.bindParams ((ss.declare p).define p) ps

def paramFindings (ss : Scopes) : List Token → List Finding
  | [] => []
  | p :: ps => declareFault ss p ++ paramFindings ((ss.declare p).define p) ps

mutual

def Stmt.findings (inFunction : Bool) (ss : Scopes) : Stmt → List Finding
  | .expression e => e.findings ss
  | .print e => e.findings ss
  | .var name none => declareFault ss name
  | .var name (some e) => declareFault ss name ++ e.findings (ss.declare name)
  | .block body => Stmt.listFindings inFunction ([] :: ss) body
  | .conditional c yes none => c.findings ss ++ yes.findings inFunction ss
  | .conditional c yes (some no) =>
    c.findings ss ++ yes.findings inFunction ss ++ no.findings inFunction (ss.after yes)
  | .whileLoop c body => c.findings ss ++ body.findings inFunction ss
  | .function decl =>
    declareFault ss decl.name ++ Stmt.functionFindings ((ss.declare decl.name).define decl.name) decl
  | .returning keyword none => returnFault inFunction keyword
  | .returning keyword (some e) => returnFault inFunction keyword ++ e.findings ss
  | .classDecl name methods =>
    declareFault ss name ++ Stmt.methodFindings ((ss.declare name).define name) methods

def Stmt.listFindings (inFunction : Bool) (ss : Scopes) : List Stmt → List Finding
  | [] => []
  | s :: rest => s.findings inFunction ss ++ Stmt.listFindings inFunction (ss.after s) rest

/-- The parameters share one scope with the body. -/
def Stmt.functionFindings (ss : Scopes) : Function → List Finding
  | ⟨_, params, body⟩ =>
    paramFindings ([] :: ss) params ++
      Stmt.listFindings true (Scopes.bindParams ([] :: ss) params) body

def Stmt.methodFindings (ss : Scopes) : List Function → List Finding
  | [] => []
  | f :: fs => Stmt.functionFindings ss f ++ Stmt.methodFindings ss fs

end

end Lox
