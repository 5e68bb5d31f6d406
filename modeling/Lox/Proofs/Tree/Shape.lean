import Lox.Proofs.Tree.Placement

/-!
Which tokens stand in a tree: operators that can be applied, and names.
-/

namespace Lox

def unaryOperators : List Kind := [.symbol .bang, .symbol .minus]

def binaryOperators : List Kind :=
  [.symbol .plus, .symbol .minus, .symbol .star, .symbol .slash, .symbol .greater,
    .symbol .greaterEqual, .symbol .less, .symbol .lessEqual, .symbol .equalEqual,
    .symbol .bangEqual]

def logicalOperators : List Kind := [.keyword .kwAnd, .keyword .kwOr]

mutual

/-- All operators in an expression can be applied, and all names in it are names. -/
def Expr.Shaped : Expr → Prop
  | .literal _ => True
  | .grouping e => e.Shaped
  | .unary op e => op.kind ∈ unaryOperators ∧ e.Shaped
  | .binary l op r => op.kind ∈ binaryOperators ∧ l.Shaped ∧ r.Shaped
  | .logical l op r => op.kind ∈ logicalOperators ∧ l.Shaped ∧ r.Shaped
  | .read _ name => name.kind = .identifier
  | .assign _ name e => name.kind = .identifier ∧ e.Shaped
  | .call callee _ args => callee.Shaped ∧ Expr.ListShaped args

def Expr.ListShaped : List Expr → Prop
  | [] => True
  | e :: es => e.Shaped ∧ Expr.ListShaped es

end

mutual

def Stmt.Shaped : Stmt → Prop
  | .expression e => e.Shaped
  | .print e => e.Shaped
  | .var name none => name.kind = .identifier
  | .var name (some e) => name.kind = .identifier ∧ e.Shaped
  | .block body => Stmt.ListShaped body
  | .conditional c yes none => c.Shaped ∧ yes.Shaped
  | .conditional c yes (some no) => c.Shaped ∧ yes.Shaped ∧ no.Shaped
  | .whileLoop c body => c.Shaped ∧ body.Shaped
  | .function f => Stmt.FunctionShaped f
  | .returning _ none => True
  | .returning _ (some e) => e.Shaped
  | .classDecl name methods => name.kind = .identifier ∧ Stmt.MethodsShaped methods

def Stmt.ListShaped : List Stmt → Prop
  | [] => True
  | s :: ss => s.Shaped ∧ Stmt.ListShaped ss

def Stmt.FunctionShaped : Function → Prop
  | ⟨name, params, body⟩ =>
    name.kind = .identifier ∧ (∀ p ∈ params, p.kind = .identifier) ∧ Stmt.ListShaped body

def Stmt.MethodsShaped : List Function → Prop
  | [] => True
  | f :: fs => Stmt.FunctionShaped f ∧ Stmt.MethodsShaped fs

end

theorem Expr.listShaped_iff {es : List Expr} : Expr.ListShaped es ↔ ∀ e ∈ es, e.Shaped := by
  induction es with
  | nil => simp [Expr.ListShaped]
  | cons e es ih => simp [Expr.ListShaped, ih]

theorem Stmt.listShaped_iff {ss : List Stmt} : Stmt.ListShaped ss ↔ ∀ s ∈ ss, s.Shaped := by
  induction ss with
  | nil => simp [Stmt.ListShaped]
  | cons s ss ih => simp [Stmt.ListShaped, ih]

theorem Stmt.methodsShaped_iff {fs : List Function} :
    Stmt.MethodsShaped fs ↔ ∀ f ∈ fs, Stmt.FunctionShaped f := by
  induction fs with
  | nil => simp [Stmt.MethodsShaped]
  | cons f fs ih => simp [Stmt.MethodsShaped, ih]

theorem Stmt.listShaped_of_function {f : Function} (h : Stmt.FunctionShaped f) :
    Stmt.ListShaped f.body := by
  cases f
  exact h.2.2

/-- Well formed: the right tokens, and declarations only in lists. -/
def Stmt.Formed (s : Stmt) : Prop := s.Placed ∧ s.Shaped

def Stmt.FunctionFormed (f : Function) : Prop := Stmt.FunctionPlaced f ∧ Stmt.FunctionShaped f

theorem Stmt.formed_block {body : List Stmt} (h : ∀ s ∈ body, s.Formed) :
    (Stmt.block body).Formed :=
  ⟨Stmt.listPlaced_iff.mpr fun s hs => (h s hs).1, Stmt.listShaped_iff.mpr fun s hs => (h s hs).2⟩

theorem Stmt.functionFormed {name : Token} {params : List Token} {body : List Stmt}
    (hn : name.kind = .identifier) (hp : ∀ p ∈ params, p.kind = .identifier)
    (h : ∀ s ∈ body, s.Formed) : Stmt.FunctionFormed ⟨name, params, body⟩ :=
  ⟨(formed_block h).1, hn, hp, (formed_block h).2⟩

theorem Stmt.formed_classDecl {name : Token} {methods : List Function}
    (hn : name.kind = .identifier) (h : ∀ f ∈ methods, Stmt.FunctionFormed f) :
    (Stmt.classDecl name methods).Formed :=
  ⟨Stmt.methodsPlaced_iff.mpr fun f hf => (h f hf).1, hn,
    Stmt.methodsShaped_iff.mpr fun f hf => (h f hf).2⟩

end Lox
