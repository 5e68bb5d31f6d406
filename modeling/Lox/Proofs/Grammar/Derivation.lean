import Lox.Grammar.Cause
import Lox.Tree.Basic

/-!
The grammar as a relation between tokens and trees, without regard to how a tree is found.

Every relation has the number of things that may still be opened as its first index: statements,
blocks, expressions, right sides of assignments and operands of unary operators, counted together
along a path. Identities are not part of the grammar, so a tree may bear any.
-/

namespace Lox.Grammar

/-- The operators that stand between two operands, from the ones that bind loosest. -/
inductive Binary
  | disjunction
  | conjunction
  | equality
  | comparison
  | term
  | factor
  deriving DecidableEq, Repr

inductive Form
  | expression
  | assignment
  | binary (b : Binary)
  | unary
  | call
  | primary
  deriving DecidableEq, Repr

namespace Binary

def operators : Binary → List Kind
  | .disjunction => [.keyword .kwOr]
  | .conjunction => [.keyword .kwAnd]
  | .equality => [.symbol .bangEqual, .symbol .equalEqual]
  | .comparison => [.symbol .greater, .symbol .greaterEqual, .symbol .less, .symbol .lessEqual]
  | .term => [.symbol .minus, .symbol .plus]
  | .factor => [.symbol .slash, .symbol .star]

/-- What an operator stands between. -/
def operand : Binary → Form
  | .disjunction => .binary .conjunction
  | .conjunction => .binary .equality
  | .equality => .binary .comparison
  | .comparison => .binary .term
  | .term => .binary .factor
  | .factor => .unary

def join : Binary → Expr → Token → Expr → Expr
  | .disjunction | .conjunction => .logical
  | _ => .binary

end Binary

/-- The form that a form may consist of alone. -/
def Form.tighter? : Form → Option Form
  | .assignment => some (.binary .disjunction)
  | .binary b => some b.operand
  | .unary => some .call
  | .call => some .primary
  | _ => none

inductive Denotes : Kind → Literal → Prop
  | no : Denotes (.keyword .kwFalse) (.boolean false)
  | yes : Denotes (.keyword .kwTrue) (.boolean true)
  | nil : Denotes (.keyword .kwNil) .nil
  | number (x : Float) : Denotes (.number x) (.number x)
  | string (s : String) : Denotes (.string s) (.string s)

/-- Parts with commas between them. -/
inductive Separated : List (List Token) → List Token → Prop
  | none : Separated [] []
  | one (ts : List Token) : Separated [ts] ts
  | more {ts us vs : List Token} {parts : List (List Token)} {comma : Token}
      (hc : comma.kind = .symbol .comma) (h : Separated (us :: parts) vs) :
      Separated (ts :: us :: parts) (ts ++ comma :: vs)

inductive Derives : Nat → Form → List Token → Expr → Prop
  | expression {n : Nat} {ts : List Token} {e : Expr} (h : Derives n .assignment ts e) :
      Derives (n + 1) .expression ts e
  | assign {n : Nat} {ts : List Token} {e : Expr} {name equal : Token} (id : Nat)
      (hn : name.kind = .identifier) (he : equal.kind = .symbol .equal)
      (h : Derives n .assignment ts e) :
      Derives (n + 1) .assignment (name :: equal :: ts) (.assign id name e)
  | join {n : Nat} {ts us : List Token} {l r : Expr} {b : Binary} {op : Token}
      (hl : Derives n (.binary b) ts l) (ho : op.kind ∈ b.operators)
      (hr : Derives n b.operand us r) :
      Derives n (.binary b) (ts ++ op :: us) (b.join l op r)
  | unary {n : Nat} {ts : List Token} {e : Expr} {op : Token}
      (ho : op.kind = .symbol .bang ∨ op.kind = .symbol .minus) (h : Derives n .unary ts e) :
      Derives (n + 1) .unary (op :: ts) (.unary op e)
  | call {n : Nat} {ts us : List Token} {callee : Expr} {args : List (List Token × Expr)}
      {lparen rparen : Token} (hc : Derives n .call ts callee)
      (hl : lparen.kind = .symbol .leftParen) (hs : Separated (args.map Prod.fst) us)
      (ha : ∀ a ∈ args, Derives n .expression a.1 a.2) (hm : args.length ≤ maxArity)
      (hr : rparen.kind = .symbol .rightParen) :
      Derives n .call (ts ++ lparen :: (us ++ [rparen])) (.call callee rparen (args.map Prod.snd))
  | alone {n : Nat} {ts : List Token} {e : Expr} {f g : Form} (hf : f.tighter? = some g)
      (h : Derives n g ts e) : Derives n f ts e
  | literal {n : Nat} {t : Token} {l : Literal} (h : Denotes t.kind l) :
      Derives n .primary [t] (.literal l)
  | read {n : Nat} {name : Token} (id : Nat) (hn : name.kind = .identifier) :
      Derives n .primary [name] (.read id name)
  | grouping {n : Nat} {ts : List Token} {e : Expr} {lparen rparen : Token}
      (hl : lparen.kind = .symbol .leftParen) (h : Derives n .expression ts e)
      (hr : rparen.kind = .symbol .rightParen) :
      Derives n .primary (lparen :: (ts ++ [rparen])) (.grouping e)

/-- An expression that may be left out. -/
inductive Optionally (n : Nat) : List Token → Option Expr → Prop
  | none : Optionally n [] none
  | some {ts : List Token} {e : Expr} (h : Derives n .expression ts e) : Optionally n ts (some e)

inductive Initializer (n : Nat) : List Token → Option Expr → Prop
  | none : Initializer n [] none
  | some {ts : List Token} {e : Expr} {equal : Token} (he : equal.kind = .symbol .equal)
      (h : Derives n .expression ts e) : Initializer n (equal :: ts) (some e)

inductive VarDerives (n : Nat) : List Token → Stmt → Prop
  | intro {ts : List Token} {initial : Option Expr} {kw name semicolon : Token}
      (hk : kw.kind = .keyword .kwVar) (hn : name.kind = .identifier)
      (hi : Initializer n ts initial) (hs : semicolon.kind = .symbol .semicolon) :
      VarDerives n (kw :: name :: (ts ++ [semicolon])) (.var name initial)

inductive ExpressionDerives (n : Nat) : List Token → Stmt → Prop
  | intro {ts : List Token} {e : Expr} {semicolon : Token} (h : Derives n .expression ts e)
      (hs : semicolon.kind = .symbol .semicolon) :
      ExpressionDerives n (ts ++ [semicolon]) (.expression e)

/-- The first clause of a loop with clauses. -/
inductive ClauseDerives (n : Nat) : List Token → Option Stmt → Prop
  | none {semicolon : Token} (hs : semicolon.kind = .symbol .semicolon) :
      ClauseDerives n [semicolon] none
  | var {ts : List Token} {s : Stmt} (h : VarDerives n ts s) : ClauseDerives n ts (some s)
  | expression {ts : List Token} {s : Stmt} (h : ExpressionDerives n ts s) :
      ClauseDerives n ts (some s)

/-- A loop's body with the clause that is evaluated behind it. -/
def withIncrement (body : Stmt) : Option Expr → Stmt
  | none => body
  | some e => .block [body, .expression e]

/-- A loop with the clause that stands in front of it. -/
def withInitial (loop : Stmt) : Option Stmt → Stmt
  | none => loop
  | some s => .block [s, loop]

mutual

/-- A statement, told apart by whether an `else` behind it would belong to it. -/
inductive StatementDerives : Nat → Bool → List Token → Stmt → Prop
  | expression {n : Nat} {ts : List Token} {s : Stmt} (h : ExpressionDerives n ts s) :
      StatementDerives (n + 1) false ts s
  | print {n : Nat} {ts : List Token} {e : Expr} {kw semicolon : Token}
      (hk : kw.kind = .keyword .kwPrint) (h : Derives n .expression ts e)
      (hs : semicolon.kind = .symbol .semicolon) :
      StatementDerives (n + 1) false (kw :: (ts ++ [semicolon])) (.print e)
  | returning {n : Nat} {ts : List Token} {value : Option Expr} {kw semicolon : Token}
      (hk : kw.kind = .keyword .kwReturn) (h : Optionally n ts value)
      (hs : semicolon.kind = .symbol .semicolon) :
      StatementDerives (n + 1) false (kw :: (ts ++ [semicolon])) (.returning kw value)
  | block {n : Nat} {ts : List Token} {body : List Stmt} {lbrace : Token}
      (hl : lbrace.kind = .symbol .leftBrace) (h : BlockDerives n ts body) :
      StatementDerives (n + 1) false (lbrace :: ts) (.block body)
  | conditional {n : Nat} {o : Bool} {ts us : List Token} {c : Expr} {yes : Stmt}
      {kw lparen rparen : Token} (hk : kw.kind = .keyword .kwIf)
      (hl : lparen.kind = .symbol .leftParen) (hc : Derives n .expression ts c)
      (hr : rparen.kind = .symbol .rightParen) (hy : StatementDerives n o us yes) :
      StatementDerives (n + 1) true (kw :: lparen :: (ts ++ rparen :: us)) (.conditional c yes none)
  | alternative {n : Nat} {o : Bool} {ts us vs : List Token} {c : Expr} {yes no : Stmt}
      {kw lparen rparen other : Token} (hk : kw.kind = .keyword .kwIf)
      (hl : lparen.kind = .symbol .leftParen) (hc : Derives n .expression ts c)
      (hr : rparen.kind = .symbol .rightParen) (hy : StatementDerives n false us yes)
      (ho : other.kind = .keyword .kwElse) (hn : StatementDerives n o vs no) :
      StatementDerives (n + 1) o (kw :: lparen :: (ts ++ rparen :: (us ++ other :: vs)))
        (.conditional c yes (some no))
  | whileLoop {n : Nat} {o : Bool} {ts us : List Token} {c : Expr} {body : Stmt}
      {kw lparen rparen : Token} (hk : kw.kind = .keyword .kwWhile)
      (hl : lparen.kind = .symbol .leftParen) (hc : Derives n .expression ts c)
      (hr : rparen.kind = .symbol .rightParen) (hb : StatementDerives n o us body) :
      StatementDerives (n + 1) o (kw :: lparen :: (ts ++ rparen :: us)) (.whileLoop c body)
  | forLoop {n : Nat} {o : Bool} {ts us vs ws : List Token} {initial : Option Stmt}
      {condition increment : Option Expr} {body : Stmt} {kw lparen semicolon rparen : Token}
      (hk : kw.kind = .keyword .kwFor) (hl : lparen.kind = .symbol .leftParen)
      (hi : ClauseDerives n ts initial) (hc : Optionally n us condition)
      (hs : semicolon.kind = .symbol .semicolon) (hn : Optionally n vs increment)
      (hr : rparen.kind = .symbol .rightParen) (hb : StatementDerives n o ws body) :
      StatementDerives (n + 1) o
        (kw :: lparen :: (ts ++ (us ++ semicolon :: (vs ++ rparen :: ws))))
        (withInitial (.whileLoop (condition.getD (.literal (.boolean true)))
          (withIncrement body increment)) initial)

/-- A block behind its opening brace. -/
inductive BlockDerives : Nat → List Token → List Stmt → Prop
  | intro {n : Nat} {parts : List (List Token × Stmt)} {rbrace : Token}
      (hp : ∀ p ∈ parts, DeclarationDerives n p.1 p.2) (hr : rbrace.kind = .symbol .rightBrace) :
      BlockDerives (n + 1) ((parts.map Prod.fst).flatten ++ [rbrace]) (parts.map Prod.snd)

inductive FunctionDerives : Nat → List Token → Function → Prop
  | intro {n : Nat} {ts us : List Token} {params : List Token} {body : List Stmt}
      {name lparen rparen lbrace : Token} (hn : name.kind = .identifier)
      (hl : lparen.kind = .symbol .leftParen) (hs : Separated (params.map ([·])) ts)
      (hp : ∀ p ∈ params, p.kind = .identifier) (hm : params.length ≤ maxArity)
      (hr : rparen.kind = .symbol .rightParen) (hb : lbrace.kind = .symbol .leftBrace)
      (h : BlockDerives n us body) :
      FunctionDerives n (name :: lparen :: (ts ++ rparen :: lbrace :: us)) ⟨name, params, body⟩

inductive DeclarationDerives : Nat → List Token → Stmt → Prop
  | klass {n : Nat} {methods : List (List Token × Function)} {kw name lbrace rbrace : Token}
      (hk : kw.kind = .keyword .kwClass) (hn : name.kind = .identifier)
      (hl : lbrace.kind = .symbol .leftBrace) (hm : ∀ m ∈ methods, FunctionDerives n m.1 m.2)
      (hr : rbrace.kind = .symbol .rightBrace) :
      DeclarationDerives n
        (kw :: name :: lbrace :: ((methods.map Prod.fst).flatten ++ [rbrace]))
        (.classDecl name (methods.map Prod.snd))
  | function {n : Nat} {ts : List Token} {f : Function} {kw : Token}
      (hk : kw.kind = .keyword .kwFun) (h : FunctionDerives n ts f) :
      DeclarationDerives n (kw :: ts) (.function f)
  | var {n : Nat} {ts : List Token} {s : Stmt} (h : VarDerives n ts s) : DeclarationDerives n ts s
  | statement {n : Nat} {o : Bool} {ts : List Token} {s : Stmt} (h : StatementDerives n o ts s) :
      DeclarationDerives n ts s

end

def ProgramDerives (n : Nat) (ts : List Token) (body : List Stmt) : Prop :=
  ∃ parts : List (List Token × Stmt), (∀ p ∈ parts, DeclarationDerives n p.1 p.2) ∧
    ts = (parts.map Prod.fst).flatten ∧ body = parts.map Prod.snd

end Lox.Grammar
