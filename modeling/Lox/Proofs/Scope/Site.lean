import Lox.Proofs.Tree.Identity
import Lox.Proofs.Tree.Placement
import Lox.Scope.Hops

/-!
The occurrences of variables in a program, each with the scopes that are open where it is settled.
-/

namespace Lox

/-- A place in the programs of a session: the part of the part of a program, innermost first. -/
abbrev Path := List Nat

section

variable {path p : Path} {i j : Nat}

theorem eq_of_suffix (hi : i :: path <:+ p) (hj : j :: path <:+ p) : i = j := by
  have h := (List.suffix_of_suffix_length_le hi hj (Nat.le_refl _)).eq_of_length rfl
  exact (List.cons.inj h).1

theorem ne_of_suffix (h : j :: path <:+ p) : p ≠ path := by
  rintro rfl
  exact absurd h.length_le (Nat.not_succ_le_self _)

end

/-- An occurrence of a variable. The scopes around it are given twice, by what they hold and by the
places of the blocks and functions they belong to. -/
structure Site where
  id : Nat
  name : Token
  reads : Bool
  scopes : Scopes
  around : List Path

namespace Site

def depth? (s : Site) : Option Nat := s.scopes.depth? s.name

/-- The scope that an occurrence is bound to, if it does not mean a global variable. -/
def scope? (s : Site) : Option Path := s.depth?.bind (s.around[·]?)

def settled (s : Site) : Finding := settle s.scopes s.id s.name

def findings (s : Site) : List Finding :=
  (if s.reads then readFault s.scopes s.name else []) ++ [s.settled]

end Site

/-- Findings that tell of an occurrence, not of a declaration or a return. -/
def Finding.ofOccurrence : Finding → Bool
  | .settled .. => true
  | .fault ⟨_, .ownInitializer _⟩ => true
  | .fault _ => false

mutual

def Expr.sites (ss : Scopes) (around : List Path) : Expr → List Site
  | .literal _ => []
  | .grouping e => e.sites ss around
  | .unary _ e => e.sites ss around
  | .binary l _ r => l.sites ss around ++ r.sites ss around
  | .logical l _ r => l.sites ss around ++ r.sites ss around
  | .read id name => [⟨id, name, true, ss, around⟩]
  | .assign id name e => e.sites ss around ++ [⟨id, name, false, ss, around⟩]
  | .call callee _ args => callee.sites ss around ++ Expr.listSites ss around args

def Expr.listSites (ss : Scopes) (around : List Path) : List Expr → List Site
  | [] => []
  | e :: es => e.sites ss around ++ Expr.listSites ss around es

end

mutual

/-- The occurrences in the statement at a place. -/
def Stmt.sites (ss : Scopes) (around : List Path) (path : Path) : Stmt → List Site
  | .expression e => e.sites ss around
  | .print e => e.sites ss around
  | .var _ none => []
  | .var name (some e) => e.sites (ss.declare name) around
  | .block body => Stmt.listSites ([] :: ss) (path :: around) path 0 body
  | .conditional c yes none => c.sites ss around ++ yes.sites ss around (0 :: path)
  | .conditional c yes (some no) =>
    c.sites ss around ++ yes.sites ss around (0 :: path) ++ no.sites (ss.after yes) around (1 :: path)
  | .whileLoop c body => c.sites ss around ++ body.sites ss around (0 :: path)
  | .function decl =>
    Stmt.functionSites ((ss.declare decl.name).define decl.name) around path decl
  | .returning _ none => []
  | .returning _ (some e) => e.sites ss around
  | .classDecl name methods =>
    Stmt.methodSites ((ss.declare name).define name) around path 0 methods

def Stmt.listSites (ss : Scopes) (around : List Path) (path : Path) (i : Nat) :
    List Stmt → List Site
  | [] => []
  | s :: rest =>
    s.sites ss around (i :: path) ++ Stmt.listSites (ss.after s) around path (i + 1) rest

def Stmt.functionSites (ss : Scopes) (around : List Path) (path : Path) : Function → List Site
  | ⟨_, params, body⟩ =>
    Stmt.listSites (Scopes.bindParams ([] :: ss) params) (path :: around) path 0 body

def Stmt.methodSites (ss : Scopes) (around : List Path) (path : Path) (i : Nat) :
    List Function → List Site
  | [] => []
  | f :: fs => Stmt.functionSites ss around (i :: path) f ++ Stmt.methodSites ss around path (i + 1) fs

end

/-! ### Sites and identities -/

mutual

theorem Expr.map_id_sites (ss : Scopes) (around : List Path) :
    (e : Expr) → (e.sites ss around).map Site.id = e.ids
  | .literal _ => rfl
  | .grouping e => Expr.map_id_sites ss around e
  | .unary _ e => Expr.map_id_sites ss around e
  | .binary l _ r | .logical l _ r => by
      simp only [Expr.sites, Expr.ids, List.map_append, Expr.map_id_sites ss around l,
        Expr.map_id_sites ss around r]
  | .read _ _ => rfl
  | .assign _ _ e => by
      simp only [Expr.sites, Expr.ids, List.map_append, Expr.map_id_sites ss around e]
      rfl
  | .call callee _ args => by
      simp only [Expr.sites, Expr.ids, List.map_append, Expr.map_id_sites ss around callee,
        Expr.map_id_listSites ss around args]

theorem Expr.map_id_listSites (ss : Scopes) (around : List Path) :
    (es : List Expr) → (Expr.listSites ss around es).map Site.id = Expr.listIds es
  | [] => rfl
  | e :: es => by
      simp only [Expr.listSites, Expr.listIds, List.map_append, Expr.map_id_sites ss around e,
        Expr.map_id_listSites ss around es]

end

mutual

theorem Stmt.map_id_sites (ss : Scopes) (around : List Path) (path : Path) :
    (s : Stmt) → (s.sites ss around path).map Site.id = s.ids
  | .expression e | .print e | .returning _ (some e) => Expr.map_id_sites ss around e
  | .var _ none | .returning _ none => rfl
  | .var name (some e) => Expr.map_id_sites (ss.declare name) around e
  | .block body => Stmt.map_id_listSites ([] :: ss) (path :: around) path 0 body
  | .conditional c yes none => by
      simp only [Stmt.sites, Stmt.ids, List.map_append, Expr.map_id_sites ss around c,
        Stmt.map_id_sites ss around (0 :: path) yes]
  | .conditional c yes (some no) => by
      simp only [Stmt.sites, Stmt.ids, List.map_append, Expr.map_id_sites ss around c,
        Stmt.map_id_sites ss around (0 :: path) yes,
        Stmt.map_id_sites (ss.after yes) around (1 :: path) no]
  | .whileLoop c body => by
      simp only [Stmt.sites, Stmt.ids, List.map_append, Expr.map_id_sites ss around c,
        Stmt.map_id_sites ss around (0 :: path) body]
  | .function decl =>
      Stmt.map_id_functionSites ((ss.declare decl.name).define decl.name) around path decl
  | .classDecl name methods =>
      Stmt.map_id_methodSites ((ss.declare name).define name) around path 0 methods

theorem Stmt.map_id_listSites (ss : Scopes) (around : List Path) (path : Path) (i : Nat) :
    (body : List Stmt) → (Stmt.listSites ss around path i body).map Site.id = Stmt.listIds body
  | [] => rfl
  | s :: rest => by
      simp only [Stmt.listSites, Stmt.listIds, List.map_append,
        Stmt.map_id_sites ss around (i :: path) s,
        Stmt.map_id_listSites (ss.after s) around path (i + 1) rest]

theorem Stmt.map_id_functionSites (ss : Scopes) (around : List Path) (path : Path) :
    (f : Function) → (Stmt.functionSites ss around path f).map Site.id = Stmt.functionIds f
  | ⟨_, params, body⟩ =>
      Stmt.map_id_listSites (Scopes.bindParams ([] :: ss) params) (path :: around) path 0 body

theorem Stmt.map_id_methodSites (ss : Scopes) (around : List Path) (path : Path) (i : Nat) :
    (fs : List Function) →
      (Stmt.methodSites ss around path i fs).map Site.id = Stmt.methodIds fs
  | [] => rfl
  | f :: fs => by
      simp only [Stmt.methodSites, Stmt.methodIds, List.map_append,
        Stmt.map_id_functionSites ss around (i :: path) f,
        Stmt.map_id_methodSites ss around path (i + 1) fs]

end

/-! ### Sites and findings -/

mutual

theorem Expr.findings_eq (ss : Scopes) (around : List Path) :
    (e : Expr) → e.findings ss = (e.sites ss around).flatMap Site.findings
  | .literal _ => rfl
  | .grouping e | .unary _ e => Expr.findings_eq ss around e
  | .binary l _ r | .logical l _ r => by
      simp only [Expr.sites, Expr.findings, List.flatMap_append, Expr.findings_eq ss around l,
        Expr.findings_eq ss around r]
  | .read _ _ => by simp [Expr.findings, Expr.sites, Site.findings, Site.settled]
  | .assign _ _ e => by
      simp [Expr.findings, Expr.sites, Site.findings, Site.settled, Expr.findings_eq ss around e]
  | .call callee _ args => by
      simp only [Expr.sites, Expr.findings, List.flatMap_append, Expr.findings_eq ss around callee,
        Expr.listFindings_eq ss around args]

theorem Expr.listFindings_eq (ss : Scopes) (around : List Path) :
    (es : List Expr) →
      Expr.listFindings ss es = (Expr.listSites ss around es).flatMap Site.findings
  | [] => rfl
  | e :: es => by
      simp only [Expr.listSites, Expr.listFindings, List.flatMap_append,
        Expr.findings_eq ss around e, Expr.listFindings_eq ss around es]

end

theorem Site.filter_findings (sites : List Site) :
    (sites.flatMap Site.findings).filter Finding.ofOccurrence = sites.flatMap Site.findings := by
  refine List.filter_eq_self.mpr fun f hf => ?_
  obtain ⟨s, -, hs⟩ := List.mem_flatMap.mp hf
  rw [Site.findings, readFault] at hs
  split at hs
  · split at hs <;> simp only [List.cons_append, List.nil_append, List.mem_cons,
      List.not_mem_nil, or_false] at hs
    · rcases hs with rfl | rfl <;> rfl
    · rw [hs]; rfl
  · simp only [List.nil_append, List.mem_cons, List.not_mem_nil, or_false] at hs
    rw [hs]; rfl

theorem filter_declareFault (ss : Scopes) (name : Token) :
    (declareFault ss name).filter Finding.ofOccurrence = [] := by
  rw [declareFault]
  split <;> rfl

theorem filter_returnFault (inFunction : Bool) (keyword : Token) :
    (returnFault inFunction keyword).filter Finding.ofOccurrence = [] := by
  cases inFunction <;> rfl

theorem filter_paramFindings (ss : Scopes) (params : List Token) :
    (paramFindings ss params).filter Finding.ofOccurrence = [] := by
  induction params generalizing ss with
  | nil => rfl
  | cons p ps ih => rw [paramFindings, List.filter_append, filter_declareFault, ih]; rfl

theorem Expr.filter_findings (ss : Scopes) (around : List Path) (e : Expr) :
    (e.findings ss).filter Finding.ofOccurrence = (e.sites ss around).flatMap Site.findings := by
  rw [Expr.findings_eq ss around, Site.filter_findings]

mutual

theorem Stmt.filter_findings (inFunction : Bool) (ss : Scopes) (around : List Path) (path : Path) :
    (s : Stmt) → (s.findings inFunction ss).filter Finding.ofOccurrence =
      (s.sites ss around path).flatMap Site.findings
  | .expression e | .print e => Expr.filter_findings ss around e
  | .var name none => filter_declareFault ss name
  | .var name (some e) => by
      rw [Stmt.findings, List.filter_append, filter_declareFault, List.nil_append]
      exact Expr.filter_findings (ss.declare name) around e
  | .block body =>
      Stmt.filter_listFindings inFunction ([] :: ss) (path :: around) path 0 body
  | .conditional c yes none => by
      simp only [Stmt.findings, Stmt.sites, List.filter_append, List.flatMap_append,
        Expr.filter_findings ss around c,
        Stmt.filter_findings inFunction ss around (0 :: path) yes]
  | .conditional c yes (some no) => by
      simp only [Stmt.findings, Stmt.sites, List.filter_append, List.flatMap_append,
        Expr.filter_findings ss around c,
        Stmt.filter_findings inFunction ss around (0 :: path) yes,
        Stmt.filter_findings inFunction (ss.after yes) around (1 :: path) no]
  | .whileLoop c body => by
      simp only [Stmt.findings, Stmt.sites, List.filter_append, List.flatMap_append,
        Expr.filter_findings ss around c,
        Stmt.filter_findings inFunction ss around (0 :: path) body]
  | .function decl => by
      rw [Stmt.findings, List.filter_append, filter_declareFault, List.nil_append]
      exact Stmt.filter_functionFindings ((ss.declare decl.name).define decl.name) around path decl
  | .returning keyword none => filter_returnFault inFunction keyword
  | .returning keyword (some e) => by
      rw [Stmt.findings, List.filter_append, filter_returnFault, List.nil_append]
      exact Expr.filter_findings ss around e
  | .classDecl name methods => by
      rw [Stmt.findings, List.filter_append, filter_declareFault, List.nil_append]
      exact Stmt.filter_methodFindings ((ss.declare name).define name) around path 0 methods

theorem Stmt.filter_listFindings (inFunction : Bool) (ss : Scopes) (around : List Path)
    (path : Path) (i : Nat) :
    (body : List Stmt) → (Stmt.listFindings inFunction ss body).filter Finding.ofOccurrence =
      (Stmt.listSites ss around path i body).flatMap Site.findings
  | [] => rfl
  | s :: rest => by
      simp only [Stmt.listFindings, Stmt.listSites, List.filter_append, List.flatMap_append,
        Stmt.filter_findings inFunction ss around (i :: path) s,
        Stmt.filter_listFindings inFunction (ss.after s) around path (i + 1) rest]

theorem Stmt.filter_functionFindings (ss : Scopes) (around : List Path) (path : Path) :
    (f : Function) → (Stmt.functionFindings ss f).filter Finding.ofOccurrence =
      (Stmt.functionSites ss around path f).flatMap Site.findings
  | ⟨_, params, body⟩ => by
      rw [Stmt.functionFindings, List.filter_append, filter_paramFindings, List.nil_append]
      exact Stmt.filter_listFindings true (Scopes.bindParams ([] :: ss) params) (path :: around)
        path 0 body

theorem Stmt.filter_methodFindings (ss : Scopes) (around : List Path) (path : Path) (i : Nat) :
    (fs : List Function) → (Stmt.methodFindings ss fs).filter Finding.ofOccurrence =
      (Stmt.methodSites ss around path i fs).flatMap Site.findings
  | [] => rfl
  | f :: fs => by
      simp only [Stmt.methodFindings, Stmt.methodSites, List.filter_append, List.flatMap_append,
        Stmt.filter_functionFindings ss around (i :: path) f,
        Stmt.filter_methodFindings ss around path (i + 1) fs]

end

end Lox
