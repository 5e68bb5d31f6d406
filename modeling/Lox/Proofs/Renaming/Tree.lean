import Lox.Proofs.Scope.Site

/-!
Trees with other names for what their scopes declare. A name is changed where it is declared and in
the occurrences that are bound to its scope.
-/

namespace Lox

/-- What the names of each scope are to be called. -/
abbrev Naming := Path → String → String

/-- A name of a scope. The outermost level, which is no scope, keeps its names. -/
def Naming.token (θ : Naming) (scope : Option Path) (name : Token) : Token :=
  scope.elim name fun p => { name with lexeme := θ p name.lexeme }

mutual

def Expr.renamed (θ : Naming) (ss : Scopes) (around : List Path) : Expr → Expr
  | .literal l => .literal l
  | .grouping e => .grouping (e.renamed θ ss around)
  | .unary op e => .unary op (e.renamed θ ss around)
  | .binary l op r => .binary (l.renamed θ ss around) op (r.renamed θ ss around)
  | .logical l op r => .logical (l.renamed θ ss around) op (r.renamed θ ss around)
  | .read id name => .read id (θ.token ((ss.depth? name).bind (around[·]?)) name)
  | .assign id name e =>
    .assign id (θ.token ((ss.depth? name).bind (around[·]?)) name) (e.renamed θ ss around)
  | .call callee paren args =>
    .call (callee.renamed θ ss around) paren (Expr.listRenamed θ ss around args)

def Expr.listRenamed (θ : Naming) (ss : Scopes) (around : List Path) : List Expr → List Expr
  | [] => []
  | e :: es => e.renamed θ ss around :: Expr.listRenamed θ ss around es

end

mutual

/-- Variables and parameters are renamed. Functions and classes keep their names, which a program
can show. -/
def Stmt.renamed (θ : Naming) (ss : Scopes) (around : List Path) (path : Path) : Stmt → Stmt
  | .expression e => .expression (e.renamed θ ss around)
  | .print e => .print (e.renamed θ ss around)
  | .var name none => .var (θ.token around.head? name) none
  | .var name (some e) =>
    .var (θ.token around.head? name) (some (e.renamed θ (ss.declare name) around))
  | .block body => .block (Stmt.listRenamed θ ([] :: ss) (path :: around) path 0 body)
  | .conditional c yes none =>
    .conditional (c.renamed θ ss around) (yes.renamed θ ss around (0 :: path)) none
  | .conditional c yes (some no) =>
    .conditional (c.renamed θ ss around) (yes.renamed θ ss around (0 :: path))
      (some (no.renamed θ (ss.after yes) around (1 :: path)))
  | .whileLoop c body => .whileLoop (c.renamed θ ss around) (body.renamed θ ss around (0 :: path))
  | .function f =>
    .function (Stmt.functionRenamed θ ((ss.declare f.name).define f.name) around path f)
  | .returning keyword none => .returning keyword none
  | .returning keyword (some e) => .returning keyword (some (e.renamed θ ss around))
  | .classDecl name methods =>
    .classDecl name (Stmt.methodsRenamed θ ((ss.declare name).define name) around path 0 methods)

def Stmt.listRenamed (θ : Naming) (ss : Scopes) (around : List Path) (path : Path) (i : Nat) :
    List Stmt → List Stmt
  | [] => []
  | s :: rest =>
    s.renamed θ ss around (i :: path) :: Stmt.listRenamed θ (ss.after s) around path (i + 1) rest

def Stmt.functionRenamed (θ : Naming) (ss : Scopes) (around : List Path) (path : Path) :
    Function → Function
  | ⟨name, params, body⟩ =>
    ⟨name, params.map (θ.token (some path)),
      Stmt.listRenamed θ (Scopes.bindParams ([] :: ss) params) (path :: around) path 0 body⟩

def Stmt.methodsRenamed (θ : Naming) (ss : Scopes) (around : List Path) (path : Path) (i : Nat) :
    List Function → List Function
  | [] => []
  | f :: fs =>
    Stmt.functionRenamed θ ss around (i :: path) f ::
      Stmt.methodsRenamed θ ss around path (i + 1) fs

end

theorem Stmt.functionRenamed_eq (θ : Naming) (ss : Scopes) (around : List Path) (path : Path)
    (f : Function) : Stmt.functionRenamed θ ss around path f = ⟨f.name,
      f.params.map (θ.token (some path)),
      Stmt.listRenamed θ (Scopes.bindParams ([] :: ss) f.params) (path :: around) path 0 f.body⟩ := by
  cases f
  rfl

/-! ### Occurrences in trees with other names -/

/-- An occurrence by its identity, with its name. -/
def Site.named (s : Site) : Nat × Token := (s.id, s.name)

/-- An occurrence by its identity, with the name that its scope has for it. -/
def Site.renamed (θ : Naming) (s : Site) : Nat × Token := (s.id, θ.token s.scope? s.name)

mutual

theorem Expr.named_sites (θ : Naming) (ss ss' : Scopes) (around : List Path) :
    (e : Expr) → ((e.renamed θ ss around).sites ss' around).map Site.named =
      (e.sites ss around).map (Site.renamed θ)
  | .literal _ | .read _ _ => rfl
  | .grouping e | .unary _ e => Expr.named_sites θ ss ss' around e
  | .binary l _ r | .logical l _ r => by
      rw [Expr.renamed, Expr.sites, Expr.sites, List.map_append, List.map_append,
        Expr.named_sites θ ss ss' around l, Expr.named_sites θ ss ss' around r]
  | .assign _ _ e => by
      rw [Expr.renamed, Expr.sites, Expr.sites, List.map_append, List.map_append,
        Expr.named_sites θ ss ss' around e]
      rfl
  | .call callee _ args => by
      rw [Expr.renamed, Expr.sites, Expr.sites, List.map_append, List.map_append,
        Expr.named_sites θ ss ss' around callee, Expr.named_listSites θ ss ss' around args]

theorem Expr.named_listSites (θ : Naming) (ss ss' : Scopes) (around : List Path) :
    (es : List Expr) → (Expr.listSites ss' around (Expr.listRenamed θ ss around es)).map Site.named =
      (Expr.listSites ss around es).map (Site.renamed θ)
  | [] => rfl
  | e :: es => by
      rw [Expr.listRenamed, Expr.listSites, Expr.listSites, List.map_append, List.map_append,
        Expr.named_sites θ ss ss' around e, Expr.named_listSites θ ss ss' around es]

end

mutual

theorem Stmt.named_sites (θ : Naming) (ss ss' : Scopes) (around : List Path) (path : Path) :
    (s : Stmt) → ((s.renamed θ ss around path).sites ss' around path).map Site.named =
      (s.sites ss around path).map (Site.renamed θ)
  | .expression e | .print e | .returning _ (some e) => Expr.named_sites θ ss ss' around e
  | .var _ none | .returning _ none => rfl
  | .var name (some e) => Expr.named_sites θ (ss.declare name) _ around e
  | .block body => Stmt.named_listSites θ ([] :: ss) ([] :: ss') (path :: around) path 0 body
  | .conditional c yes none => by
      rw [Stmt.renamed, Stmt.sites, Stmt.sites, List.map_append, List.map_append,
        Expr.named_sites θ ss ss' around c, Stmt.named_sites θ ss ss' around (0 :: path) yes]
  | .conditional c yes (some no) => by
      rw [Stmt.renamed, Stmt.sites, Stmt.sites, List.map_append, List.map_append, List.map_append,
        List.map_append, Expr.named_sites θ ss ss' around c,
        Stmt.named_sites θ ss ss' around (0 :: path) yes,
        Stmt.named_sites θ (ss.after yes) _ around (1 :: path) no]
  | .whileLoop c body => by
      rw [Stmt.renamed, Stmt.sites, Stmt.sites, List.map_append, List.map_append,
        Expr.named_sites θ ss ss' around c, Stmt.named_sites θ ss ss' around (0 :: path) body]
  | .function f => Stmt.named_functionSites θ ((ss.declare f.name).define f.name) _ around path f
  | .classDecl name methods =>
      Stmt.named_methodSites θ ((ss.declare name).define name) _ around path 0 methods

theorem Stmt.named_listSites (θ : Naming) (ss ss' : Scopes) (around : List Path) (path : Path)
    (i : Nat) : (body : List Stmt) →
      (Stmt.listSites ss' around path i (Stmt.listRenamed θ ss around path i body)).map Site.named =
        (Stmt.listSites ss around path i body).map (Site.renamed θ)
  | [] => rfl
  | s :: rest => by
      rw [Stmt.listRenamed, Stmt.listSites, Stmt.listSites, List.map_append, List.map_append,
        Stmt.named_sites θ ss ss' around (i :: path) s,
        Stmt.named_listSites θ (ss.after s) _ around path (i + 1) rest]

theorem Stmt.named_functionSites (θ : Naming) (ss ss' : Scopes) (around : List Path)
    (path : Path) : (f : Function) →
      (Stmt.functionSites ss' around path (Stmt.functionRenamed θ ss around path f)).map Site.named =
        (Stmt.functionSites ss around path f).map (Site.renamed θ)
  | ⟨_, params, body⟩ =>
      Stmt.named_listSites θ (Scopes.bindParams ([] :: ss) params) _ (path :: around) path 0 body

theorem Stmt.named_methodSites (θ : Naming) (ss ss' : Scopes) (around : List Path) (path : Path)
    (i : Nat) : (fs : List Function) →
      (Stmt.methodSites ss' around path i (Stmt.methodsRenamed θ ss around path i fs)).map
        Site.named = (Stmt.methodSites ss around path i fs).map (Site.renamed θ)
  | [] => rfl
  | f :: fs => by
      rw [Stmt.methodsRenamed, Stmt.methodSites, Stmt.methodSites, List.map_append,
        List.map_append, Stmt.named_functionSites θ ss ss' around (i :: path) f,
        Stmt.named_methodSites θ ss ss' around path (i + 1) fs]

end

/-! ### One name for another -/

/-- A name that a scope declares, and another one for it. -/
structure Renaming where
  scope : Path
  old : String
  new : String

/-- The names change places in the scope, so that no two names of it become one. Where the new one
does not occur, this gives the old one up for it. -/
def Renaming.naming (r : Renaming) : Naming := fun p x =>
  if p = r.scope then (if x = r.old then r.new else if x = r.new then r.old else x) else x

/-- A program in which one name of one scope is changed. -/
def Renaming.program (r : Renaming) (body : List Stmt) : List Stmt :=
  Stmt.listRenamed r.naming [] [] [] 0 body

/-! ### Trees that keep their names -/

/-- The naming that changes nothing. -/
def Naming.id : Naming := fun _ x => x

theorem Naming.token_id (scope : Option Path) (name : Token) : Naming.id.token scope name = name := by
  cases scope <;> rfl

mutual

theorem Expr.renamed_id (ss : Scopes) (around : List Path) :
    (e : Expr) → e.renamed .id ss around = e
  | .literal _ => rfl
  | .grouping e | .unary _ e => by rw [Expr.renamed, Expr.renamed_id ss around e]
  | .binary l _ r | .logical l _ r => by
      rw [Expr.renamed, Expr.renamed_id ss around l, Expr.renamed_id ss around r]
  | .read _ _ => by rw [Expr.renamed, Naming.token_id]
  | .assign _ _ e => by rw [Expr.renamed, Naming.token_id, Expr.renamed_id ss around e]
  | .call callee _ args => by
      rw [Expr.renamed, Expr.renamed_id ss around callee, Expr.listRenamed_id ss around args]

theorem Expr.listRenamed_id (ss : Scopes) (around : List Path) :
    (es : List Expr) → Expr.listRenamed .id ss around es = es
  | [] => rfl
  | e :: es => by rw [Expr.listRenamed, Expr.renamed_id ss around e, Expr.listRenamed_id ss around es]

end

mutual

theorem Stmt.renamed_id (ss : Scopes) (around : List Path) (path : Path) :
    (s : Stmt) → s.renamed .id ss around path = s
  | .expression e | .print e | .returning _ (some e) => by
      rw [Stmt.renamed, Expr.renamed_id ss around e]
  | .var _ none => by rw [Stmt.renamed, Naming.token_id]
  | .var name (some e) => by
      rw [Stmt.renamed, Naming.token_id, Expr.renamed_id (ss.declare name) around e]
  | .returning _ none => rfl
  | .block body => by
      rw [Stmt.renamed, Stmt.listRenamed_id ([] :: ss) (path :: around) path 0 body]
  | .conditional c yes none => by
      rw [Stmt.renamed, Expr.renamed_id ss around c, Stmt.renamed_id ss around (0 :: path) yes]
  | .conditional c yes (some no) => by
      rw [Stmt.renamed, Expr.renamed_id ss around c, Stmt.renamed_id ss around (0 :: path) yes,
        Stmt.renamed_id (ss.after yes) around (1 :: path) no]
  | .whileLoop c body => by
      rw [Stmt.renamed, Expr.renamed_id ss around c, Stmt.renamed_id ss around (0 :: path) body]
  | .function f => by
      rw [Stmt.renamed, Stmt.functionRenamed_id ((ss.declare f.name).define f.name) around path f]
  | .classDecl name methods => by
      rw [Stmt.renamed,
        Stmt.methodsRenamed_id ((ss.declare name).define name) around path 0 methods]

theorem Stmt.listRenamed_id (ss : Scopes) (around : List Path) (path : Path) (i : Nat) :
    (body : List Stmt) → Stmt.listRenamed .id ss around path i body = body
  | [] => rfl
  | s :: rest => by
      rw [Stmt.listRenamed, Stmt.renamed_id ss around (i :: path) s,
        Stmt.listRenamed_id (ss.after s) around path (i + 1) rest]

theorem Stmt.functionRenamed_id (ss : Scopes) (around : List Path) (path : Path) :
    (f : Function) → Stmt.functionRenamed .id ss around path f = f
  | ⟨_, params, body⟩ => by
      rw [Stmt.functionRenamed,
        Stmt.listRenamed_id (Scopes.bindParams ([] :: ss) params) (path :: around) path 0 body,
        List.map_congr_left fun p _ => Naming.token_id (some path) p, List.map_id']

theorem Stmt.methodsRenamed_id (ss : Scopes) (around : List Path) (path : Path) (i : Nat) :
    (fs : List Function) → Stmt.methodsRenamed .id ss around path i fs = fs
  | [] => rfl
  | f :: fs => by
      rw [Stmt.methodsRenamed, Stmt.functionRenamed_id ss around (i :: path) f,
        Stmt.methodsRenamed_id ss around path (i + 1) fs]

end

end Lox
