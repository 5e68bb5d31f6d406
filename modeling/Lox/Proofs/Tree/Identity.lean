import Lox.Tree.Basic

/-!
Trees up to identities, and the identities of the occurrences in a tree.
-/

namespace Lox

mutual

/-- An expression with all identities made alike. -/
def Expr.unnumbered : Expr → Expr
  | .literal l => .literal l
  | .grouping e => .grouping e.unnumbered
  | .unary op e => .unary op e.unnumbered
  | .binary l op r => .binary l.unnumbered op r.unnumbered
  | .logical l op r => .logical l.unnumbered op r.unnumbered
  | .read _ name => .read 0 name
  | .assign _ name e => .assign 0 name e.unnumbered
  | .call callee paren args => .call callee.unnumbered paren (Expr.listUnnumbered args)

def Expr.listUnnumbered : List Expr → List Expr
  | [] => []
  | e :: es => e.unnumbered :: Expr.listUnnumbered es

end

mutual

def Stmt.unnumbered : Stmt → Stmt
  | .expression e => .expression e.unnumbered
  | .print e => .print e.unnumbered
  | .var name none => .var name none
  | .var name (some e) => .var name (some e.unnumbered)
  | .block body => .block (Stmt.listUnnumbered body)
  | .conditional c yes none => .conditional c.unnumbered yes.unnumbered none
  | .conditional c yes (some no) => .conditional c.unnumbered yes.unnumbered (some no.unnumbered)
  | .whileLoop c body => .whileLoop c.unnumbered body.unnumbered
  | .function f => .function (Stmt.functionUnnumbered f)
  | .returning keyword none => .returning keyword none
  | .returning keyword (some e) => .returning keyword (some e.unnumbered)
  | .classDecl name methods => .classDecl name (Stmt.methodsUnnumbered methods)

def Stmt.listUnnumbered : List Stmt → List Stmt
  | [] => []
  | s :: ss => s.unnumbered :: Stmt.listUnnumbered ss

def Stmt.functionUnnumbered : Function → Function
  | ⟨name, params, body⟩ => ⟨name, params, Stmt.listUnnumbered body⟩

def Stmt.methodsUnnumbered : List Function → List Function
  | [] => []
  | f :: fs => Stmt.functionUnnumbered f :: Stmt.methodsUnnumbered fs

end

theorem Expr.listUnnumbered_eq_map (es : List Expr) :
    Expr.listUnnumbered es = es.map Expr.unnumbered := by
  induction es with
  | nil => rfl
  | cons e es ih => rw [Expr.listUnnumbered, ih, List.map_cons]

theorem Stmt.listUnnumbered_eq_map (ss : List Stmt) :
    Stmt.listUnnumbered ss = ss.map Stmt.unnumbered := by
  induction ss with
  | nil => rfl
  | cons s ss ih => rw [Stmt.listUnnumbered, ih, List.map_cons]

theorem Stmt.methodsUnnumbered_eq_map (fs : List Function) :
    Stmt.methodsUnnumbered fs = fs.map Stmt.functionUnnumbered := by
  induction fs with
  | nil => rfl
  | cons f fs ih => rw [Stmt.methodsUnnumbered, ih, List.map_cons]

/-- What is alike up to identities has the same form. -/
theorem Expr.of_unnumbered {e u : Expr} (h : e.unnumbered = u) :
    match u with
    | .literal l => e = .literal l
    | .grouping x => ∃ x', e = .grouping x' ∧ x'.unnumbered = x
    | .unary op x => ∃ x', e = .unary op x' ∧ x'.unnumbered = x
    | .binary l op r => ∃ l' r', e = .binary l' op r' ∧ l'.unnumbered = l ∧ r'.unnumbered = r
    | .logical l op r => ∃ l' r', e = .logical l' op r' ∧ l'.unnumbered = l ∧ r'.unnumbered = r
    | .read _ name => ∃ id, e = .read id name
    | .assign _ name x => ∃ id x', e = .assign id name x' ∧ x'.unnumbered = x
    | .call callee paren args => ∃ callee' args', e = .call callee' paren args' ∧
        callee'.unnumbered = callee ∧ Expr.listUnnumbered args' = args := by
  subst h
  cases e <;> simp [Expr.unnumbered, and_assoc]

theorem Stmt.of_unnumbered {s u : Stmt} (h : s.unnumbered = u) :
    match u with
    | .expression e => ∃ e', s = .expression e' ∧ e'.unnumbered = e
    | .print e => ∃ e', s = .print e' ∧ e'.unnumbered = e
    | .var name none => s = .var name none
    | .var name (some e) => ∃ e', s = .var name (some e') ∧ e'.unnumbered = e
    | .block body => ∃ body', s = .block body' ∧ Stmt.listUnnumbered body' = body
    | .conditional c yes none => ∃ c' yes', s = .conditional c' yes' none ∧
        c'.unnumbered = c ∧ yes'.unnumbered = yes
    | .conditional c yes (some no) => ∃ c' yes' no', s = .conditional c' yes' (some no') ∧
        c'.unnumbered = c ∧ yes'.unnumbered = yes ∧ no'.unnumbered = no
    | .whileLoop c body => ∃ c' body', s = .whileLoop c' body' ∧
        c'.unnumbered = c ∧ body'.unnumbered = body
    | .function f => ∃ f', s = .function f' ∧ Stmt.functionUnnumbered f' = f
    | .returning keyword none => s = .returning keyword none
    | .returning keyword (some e) => ∃ e', s = .returning keyword (some e') ∧ e'.unnumbered = e
    | .classDecl name methods => ∃ methods', s = .classDecl name methods' ∧
        Stmt.methodsUnnumbered methods' = methods := by
  subst h
  rcases s with _ | _ | ⟨_, _ | _⟩ | _ | ⟨_, _, _ | _⟩ | _ | _ | ⟨_, _ | _⟩ | _ <;>
    simp [Stmt.unnumbered, and_assoc]

theorem Stmt.of_functionUnnumbered {f : Function} {name : Token} {params : List Token}
    {body : List Stmt} (h : Stmt.functionUnnumbered f = ⟨name, params, body⟩) :
    ∃ body', f = ⟨name, params, body'⟩ ∧ Stmt.listUnnumbered body' = body := by
  cases f
  simpa [Stmt.functionUnnumbered, and_assoc] using h

mutual

/-- The identities in an expression. That of an assignment stands behind those of its value. -/
def Expr.ids : Expr → List Nat
  | .literal _ => []
  | .grouping e => e.ids
  | .unary _ e => e.ids
  | .binary l _ r => l.ids ++ r.ids
  | .logical l _ r => l.ids ++ r.ids
  | .read id _ => [id]
  | .assign id _ e => e.ids ++ [id]
  | .call callee _ args => callee.ids ++ Expr.listIds args

def Expr.listIds : List Expr → List Nat
  | [] => []
  | e :: es => e.ids ++ Expr.listIds es

end

mutual

def Stmt.ids : Stmt → List Nat
  | .expression e => e.ids
  | .print e => e.ids
  | .var _ none => []
  | .var _ (some e) => e.ids
  | .block body => Stmt.listIds body
  | .conditional c yes none => c.ids ++ yes.ids
  | .conditional c yes (some no) => c.ids ++ yes.ids ++ no.ids
  | .whileLoop c body => c.ids ++ body.ids
  | .function f => Stmt.functionIds f
  | .returning _ none => []
  | .returning _ (some e) => e.ids
  | .classDecl _ methods => Stmt.methodIds methods

def Stmt.listIds : List Stmt → List Nat
  | [] => []
  | s :: ss => s.ids ++ Stmt.listIds ss

def Stmt.functionIds : Function → List Nat
  | ⟨_, _, body⟩ => Stmt.listIds body

def Stmt.methodIds : List Function → List Nat
  | [] => []
  | f :: fs => Stmt.functionIds f ++ Stmt.methodIds fs

end

theorem Expr.listIds_eq_flatMap (es : List Expr) : Expr.listIds es = es.flatMap Expr.ids := by
  induction es with
  | nil => rfl
  | cons e es ih => rw [Expr.listIds, ih, List.flatMap_cons]

theorem Stmt.listIds_eq_flatMap (ss : List Stmt) : Stmt.listIds ss = ss.flatMap Stmt.ids := by
  induction ss with
  | nil => rfl
  | cons s ss ih => rw [Stmt.listIds, ih, List.flatMap_cons]

theorem Stmt.methodIds_eq_flatMap (fs : List Function) :
    Stmt.methodIds fs = fs.flatMap Stmt.functionIds := by
  induction fs with
  | nil => rfl
  | cons f fs ih => rw [Stmt.methodIds, ih, List.flatMap_cons]

end Lox
