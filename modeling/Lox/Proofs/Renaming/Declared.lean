import Mathlib.Data.List.Nodup
import Lox.Proofs.Scope.Covers
import Lox.Proofs.Scope.Site

/-!
What the scopes of a program declare. In a program without faults no scope declares a name twice, so
a declaration is known by its scope and its name.
-/

namespace Lox

/-- A name that is declared, and whether it is that of a variable or a parameter. -/
structure Declared where
  name : Token
  isVariable : Bool

/-- A scope and what it declares. -/
structure Roster where
  scope : Path
  entries : List Declared

def Stmt.declares : Stmt → List Declared
  | .var name _ => [⟨name, true⟩]
  | .function f => [⟨f.name, false⟩]
  | .classDecl name _ => [⟨name, false⟩]
  | _ => []

mutual

/-- The scopes in the statement at a place. -/
def Stmt.rosters (path : Path) : Stmt → List Roster
  | .block body => ⟨path, body.flatMap Stmt.declares⟩ :: Stmt.listRosters path 0 body
  | .conditional _ yes none => yes.rosters (0 :: path)
  | .conditional _ yes (some no) => yes.rosters (0 :: path) ++ no.rosters (1 :: path)
  | .whileLoop _ body => body.rosters (0 :: path)
  | .function f => Stmt.functionRosters path f
  | .classDecl _ methods => Stmt.methodRosters path 0 methods
  | _ => []

def Stmt.listRosters (path : Path) (i : Nat) : List Stmt → List Roster
  | [] => []
  | s :: rest => s.rosters (i :: path) ++ Stmt.listRosters path (i + 1) rest

def Stmt.functionRosters (path : Path) : Function → List Roster
  | ⟨_, params, body⟩ =>
    ⟨path, params.map (⟨·, true⟩) ++ body.flatMap Stmt.declares⟩ :: Stmt.listRosters path 0 body

def Stmt.methodRosters (path : Path) (i : Nat) : List Function → List Roster
  | [] => []
  | f :: fs => Stmt.functionRosters (i :: path) f ++ Stmt.methodRosters path (i + 1) fs

end

mutual

theorem Stmt.rosters_within (path : Path) : (s : Stmt) → ∀ r ∈ s.rosters path, path <:+ r.scope
  | .block body => by
      rintro r (_ | ⟨_, hr⟩)
      · exact List.suffix_refl path
      · obtain ⟨j, -, h⟩ := Stmt.listRosters_within path 0 body r hr
        exact (List.suffix_cons j path).trans h
  | .conditional _ yes none => fun r hr =>
      (List.suffix_cons 0 path).trans (Stmt.rosters_within (0 :: path) yes r hr)
  | .conditional _ yes (some no) => fun r hr => by
      rcases List.mem_append.mp hr with hr | hr
      · exact (List.suffix_cons 0 path).trans (Stmt.rosters_within (0 :: path) yes r hr)
      · exact (List.suffix_cons 1 path).trans (Stmt.rosters_within (1 :: path) no r hr)
  | .whileLoop _ body => fun r hr =>
      (List.suffix_cons 0 path).trans (Stmt.rosters_within (0 :: path) body r hr)
  | .function f => Stmt.functionRosters_within path f
  | .classDecl _ methods => fun r hr => by
      obtain ⟨j, -, h⟩ := Stmt.methodRosters_within path 0 methods r hr
      exact (List.suffix_cons j path).trans h
  | .expression _ | .print _ | .var .. | .returning .. => fun r hr => by cases hr

theorem Stmt.listRosters_within (path : Path) (i : Nat) :
    (body : List Stmt) → ∀ r ∈ Stmt.listRosters path i body, ∃ j, i ≤ j ∧ j :: path <:+ r.scope
  | [] => fun r hr => by cases hr
  | s :: rest => fun r hr => by
      rcases List.mem_append.mp hr with hr | hr
      · exact ⟨i, Nat.le_refl i, Stmt.rosters_within (i :: path) s r hr⟩
      · obtain ⟨j, hj, h⟩ := Stmt.listRosters_within path (i + 1) rest r hr
        exact ⟨j, Nat.le_of_succ_le hj, h⟩

theorem Stmt.functionRosters_within (path : Path) :
    (f : Function) → ∀ r ∈ Stmt.functionRosters path f, path <:+ r.scope
  | ⟨_, _, body⟩ => by
      rintro r (_ | ⟨_, hr⟩)
      · exact List.suffix_refl path
      · obtain ⟨j, -, h⟩ := Stmt.listRosters_within path 0 body r hr
        exact (List.suffix_cons j path).trans h

theorem Stmt.methodRosters_within (path : Path) (i : Nat) :
    (fs : List Function) →
      ∀ r ∈ Stmt.methodRosters path i fs, ∃ j, i ≤ j ∧ j :: path <:+ r.scope
  | [] => fun r hr => by cases hr
  | f :: fs => fun r hr => by
      rcases List.mem_append.mp hr with hr | hr
      · exact ⟨i, Nat.le_refl i, Stmt.functionRosters_within (i :: path) f r hr⟩
      · obtain ⟨j, hj, h⟩ := Stmt.methodRosters_within path (i + 1) fs r hr
        exact ⟨j, Nat.le_of_succ_le hj, h⟩

end

/-- Scopes of one part of a program and of the parts behind it are not the same. -/
theorem nodup_append_rosters {path : Path} {i : Nat} {here behind : List Roster}
    (hh : ∀ r ∈ here, i :: path <:+ r.scope)
    (hb : ∀ r ∈ behind, ∃ j, i + 1 ≤ j ∧ j :: path <:+ r.scope)
    (hn : (here.map Roster.scope).Nodup) (hn' : (behind.map Roster.scope).Nodup) :
    ((here ++ behind).map Roster.scope).Nodup := by
  rw [List.map_append]
  refine List.nodup_append.mpr ⟨hn, hn', fun p hp q hq => ?_⟩
  obtain ⟨r, hr, rfl⟩ := List.mem_map.mp hp
  obtain ⟨r', hr', rfl⟩ := List.mem_map.mp hq
  obtain ⟨j, hj, h⟩ := hb r' hr'
  intro he
  have := eq_of_suffix (hh r hr) (he ▸ h)
  omega

theorem nodup_cons_rosters {path : Path} {entries : List Declared} {inner : List Roster}
    (hi : ∀ r ∈ inner, ∃ j, 0 ≤ j ∧ j :: path <:+ r.scope)
    (hn : (inner.map Roster.scope).Nodup) :
    ((⟨path, entries⟩ :: inner : List Roster).map Roster.scope).Nodup := by
  refine List.nodup_cons.mpr ⟨fun hm => ?_, hn⟩
  obtain ⟨r, hr, he⟩ := List.mem_map.mp hm
  obtain ⟨j, -, h⟩ := hi r hr
  exact ne_of_suffix h he

mutual

theorem Stmt.nodup_rosters (path : Path) : (s : Stmt) → ((s.rosters path).map Roster.scope).Nodup
  | .block body =>
      nodup_cons_rosters (Stmt.listRosters_within path 0 body) (Stmt.nodup_listRosters path 0 body)
  | .conditional _ yes none => Stmt.nodup_rosters (0 :: path) yes
  | .conditional _ yes (some no) =>
      nodup_append_rosters (Stmt.rosters_within (0 :: path) yes)
        (fun r hr => ⟨1, Nat.le_refl 1, Stmt.rosters_within (1 :: path) no r hr⟩)
        (Stmt.nodup_rosters (0 :: path) yes) (Stmt.nodup_rosters (1 :: path) no)
  | .whileLoop _ body => Stmt.nodup_rosters (0 :: path) body
  | .function f => Stmt.nodup_functionRosters path f
  | .classDecl _ methods => Stmt.nodup_methodRosters path 0 methods
  | .expression _ | .print _ | .var .. | .returning .. => List.nodup_nil

theorem Stmt.nodup_listRosters (path : Path) (i : Nat) :
    (body : List Stmt) → ((Stmt.listRosters path i body).map Roster.scope).Nodup
  | [] => List.nodup_nil
  | s :: rest =>
      nodup_append_rosters (Stmt.rosters_within (i :: path) s)
        (Stmt.listRosters_within path (i + 1) rest) (Stmt.nodup_rosters (i :: path) s)
        (Stmt.nodup_listRosters path (i + 1) rest)

theorem Stmt.nodup_functionRosters (path : Path) :
    (f : Function) → ((Stmt.functionRosters path f).map Roster.scope).Nodup
  | ⟨_, _, body⟩ =>
      nodup_cons_rosters (Stmt.listRosters_within path 0 body) (Stmt.nodup_listRosters path 0 body)

theorem Stmt.nodup_methodRosters (path : Path) (i : Nat) :
    (fs : List Function) → ((Stmt.methodRosters path i fs).map Roster.scope).Nodup
  | [] => List.nodup_nil
  | f :: fs =>
      nodup_append_rosters (Stmt.functionRosters_within (i :: path) f)
        (Stmt.methodRosters_within path (i + 1) fs) (Stmt.nodup_functionRosters (i :: path) f)
        (Stmt.nodup_methodRosters path (i + 1) fs)

end

/-! ### Names -/

/-- The names are told apart, and none of them is in the scope yet. -/
def Scope.Lacks (s : Scope) (entries : List Declared) : Prop :=
  (entries.map (·.name.lexeme)).Nodup ∧ ∀ e ∈ entries, s.status? e.name.lexeme = none

section

variable {s : Scope} {ss : Scopes} {name : Token} {entries : List Declared}

/-- A name that may be declared is not in the scope. -/
theorem Scope.status?_of_declareFault
    (h : (declareFault (s :: ss) name).filterMap Finding.fault? = []) :
    s.status? name.lexeme = none := by
  rw [declareFault] at h
  split at h
  · cases h
  · next hs => simpa [Scopes.here?] using hs

/-- A name that is declared is none of those that may be declared behind it. -/
theorem Scope.Lacks.cons {isVariable : Bool} (hn : s.status? name.lexeme = none)
    (h : Scope.Lacks ((name.lexeme, .defined) :: (name.lexeme, .declared) :: s) entries) :
    s.Lacks (⟨name, isVariable⟩ :: entries) := by
  have hother {e : Declared} (he : e ∈ entries) :
      e.name.lexeme ≠ name.lexeme ∧ s.status? e.name.lexeme = none := by
    have := h.2 e he
    rw [Scope.status?_cons, Scope.status?_cons] at this
    split at this
    · cases this
    · next hne => exact ⟨hne, this⟩
  refine ⟨List.nodup_cons.mpr ⟨fun hm => ?_, h.1⟩, ?_⟩
  · obtain ⟨e, he, hx⟩ := List.mem_map.mp hm
    exact (hother he).1 hx
  · rintro e (_ | ⟨_, he⟩)
    · exact hn
    · exact (hother he).2

/-- A list of statements in which no name is declared twice. -/
theorem Stmt.lacks_declares {inFunction : Bool} {body : List Stmt} (hp : Stmt.ListPlaced body)
    (hf : (Stmt.listFindings inFunction (s :: ss) body).filterMap Finding.fault? = []) :
    s.Lacks (body.flatMap Stmt.declares) := by
  induction body generalizing s with
  | nil => exact ⟨List.nodup_nil, fun e he => by cases he⟩
  | cons first rest ih =>
      rw [Stmt.listFindings, List.filterMap_append, List.append_eq_nil_iff] at hf
      cases first with
      | var name initial =>
          have hname : (declareFault (s :: ss) name).filterMap Finding.fault? = [] := by
            cases initial with
            | none => exact hf.1
            | some e => exact (List.append_eq_nil_iff.mp (List.filterMap_append ▸ hf.1)).1
          exact .cons (Scope.status?_of_declareFault hname) (ih hp.2 hf.2)
      | function f =>
          have hname : (declareFault (s :: ss) f.name).filterMap Finding.fault? = [] :=
            (List.append_eq_nil_iff.mp (List.filterMap_append ▸ hf.1)).1
          exact .cons (Scope.status?_of_declareFault hname) (ih hp.2 hf.2)
      | classDecl name methods =>
          have hname : (declareFault (s :: ss) name).filterMap Finding.fault? = [] :=
            (List.append_eq_nil_iff.mp (List.filterMap_append ▸ hf.1)).1
          exact .cons (Scope.status?_of_declareFault hname) (ih hp.2 hf.2)
      | _ =>
          rw [Scopes.after_eq _ _ hp.1 rfl] at hf
          exact ih hp.2 hf.2

/-- Parameters and what is declared behind them. -/
theorem lacks_params {params : List Token}
    (hf : (paramFindings (s :: ss) params).filterMap Finding.fault? = [])
    (hb : ∀ t, Scopes.bindParams (s :: ss) params = t :: ss → t.Lacks entries) :
    s.Lacks (params.map (⟨·, true⟩) ++ entries) := by
  induction params generalizing s with
  | nil => exact hb s rfl
  | cons p ps ih =>
      rw [paramFindings, List.filterMap_append, List.append_eq_nil_iff] at hf
      exact .cons (Scope.status?_of_declareFault hf.1) (ih hf.2 hb)

end

/-- No name of the scope is declared twice. -/
def Roster.Distinct (r : Roster) : Prop := (r.entries.map (·.name.lexeme)).Nodup

mutual

theorem Stmt.rosters_distinct (inFunction : Bool) (ss : Scopes) (path : Path) :
    (s : Stmt) → s.Placed → (s.findings inFunction ss).filterMap Finding.fault? = [] →
      ∀ r ∈ s.rosters path, r.Distinct
  | .block body, hp, hf => by
      rintro r (_ | ⟨_, hr⟩)
      · exact (Stmt.lacks_declares hp hf).1
      · exact Stmt.listRosters_distinct inFunction ([] :: ss) path 0 body hp hf r hr
  | .conditional c yes none, hp, hf => by
      rw [Stmt.findings, List.filterMap_append, List.append_eq_nil_iff] at hf
      exact Stmt.rosters_distinct inFunction ss (0 :: path) yes hp.1 hf.2
  | .conditional c yes (some no), hp, hf => by
      simp only [Stmt.findings, List.filterMap_append, List.append_eq_nil_iff] at hf
      intro r hr
      rcases List.mem_append.mp hr with hr | hr
      · exact Stmt.rosters_distinct inFunction ss (0 :: path) yes hp.1.1 hf.1.2 r hr
      · exact Stmt.rosters_distinct inFunction (ss.after yes) (1 :: path) no hp.2.1 hf.2 r hr
  | .whileLoop c body, hp, hf => by
      rw [Stmt.findings, List.filterMap_append, List.append_eq_nil_iff] at hf
      exact Stmt.rosters_distinct inFunction ss (0 :: path) body hp.1 hf.2
  | .function f, hp, hf => by
      rw [Stmt.findings, List.filterMap_append, List.append_eq_nil_iff] at hf
      exact Stmt.functionRosters_distinct ((ss.declare f.name).define f.name) path f hp hf.2
  | .classDecl name methods, hp, hf => by
      rw [Stmt.findings, List.filterMap_append, List.append_eq_nil_iff] at hf
      exact Stmt.methodRosters_distinct ((ss.declare name).define name) path 0 methods hp hf.2
  | .expression _, _, _ | .print _, _, _ | .var .., _, _ | .returning .., _, _ =>
      fun r hr => by cases hr

theorem Stmt.listRosters_distinct (inFunction : Bool) (ss : Scopes) (path : Path) (i : Nat) :
    (body : List Stmt) → Stmt.ListPlaced body →
      (Stmt.listFindings inFunction ss body).filterMap Finding.fault? = [] →
      ∀ r ∈ Stmt.listRosters path i body, r.Distinct
  | [], _, _ => fun r hr => by cases hr
  | s :: rest, hp, hf => fun r hr => by
      rw [Stmt.listFindings, List.filterMap_append, List.append_eq_nil_iff] at hf
      rcases List.mem_append.mp hr with hr | hr
      · exact Stmt.rosters_distinct inFunction ss (i :: path) s hp.1 hf.1 r hr
      · exact Stmt.listRosters_distinct inFunction (ss.after s) path (i + 1) rest hp.2 hf.2 r hr

theorem Stmt.functionRosters_distinct (ss : Scopes) (path : Path) :
    (f : Function) → Stmt.FunctionPlaced f →
      (Stmt.functionFindings ss f).filterMap Finding.fault? = [] →
      ∀ r ∈ Stmt.functionRosters path f, r.Distinct
  | ⟨_, params, body⟩, hp, hf => by
      rw [Stmt.functionFindings, List.filterMap_append, List.append_eq_nil_iff] at hf
      rintro r (_ | ⟨_, hr⟩)
      · exact (lacks_params hf.1 fun t ht => Stmt.lacks_declares hp (ht ▸ hf.2)).1
      · exact Stmt.listRosters_distinct true (Scopes.bindParams ([] :: ss) params) path 0 body hp
          hf.2 r hr

theorem Stmt.methodRosters_distinct (ss : Scopes) (path : Path) (i : Nat) :
    (fs : List Function) → Stmt.MethodsPlaced fs →
      (Stmt.methodFindings ss fs).filterMap Finding.fault? = [] →
      ∀ r ∈ Stmt.methodRosters path i fs, r.Distinct
  | [], _, _ => fun r hr => by cases hr
  | f :: fs, hp, hf => fun r hr => by
      rw [Stmt.methodFindings, List.filterMap_append, List.append_eq_nil_iff] at hf
      rcases List.mem_append.mp hr with hr | hr
      · exact Stmt.functionRosters_distinct ss (i :: path) f hp.1 hf.1 r hr
      · exact Stmt.methodRosters_distinct ss path (i + 1) fs hp.2 hf.2 r hr

end

/-- In a program without faults a scope has a declaration for no more than one use of a name. -/
theorem Roster.eq_of_lexeme {r : Roster} (h : r.Distinct) {d e : Declared} (hd : d ∈ r.entries)
    (he : e ∈ r.entries) (hx : d.name.lexeme = e.name.lexeme) : d = e :=
  List.inj_on_of_nodup_map h hd he hx

end Lox
