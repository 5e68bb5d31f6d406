import Lox.Proofs.Grammar.Derivation
import Lox.Scope.Finding

/-!
Where declarations stand. In the trees of the grammar they stand only in lists of statements, never
alone as the body of a conditional or a loop. So no statement but a declaration adds to the scopes
around it.
-/

namespace Lox

def Stmt.isDeclaration : Stmt → Bool
  | .var .. | .function _ | .classDecl .. => true
  | _ => false

mutual

/-- All declarations in a statement stand in lists. -/
def Stmt.Placed : Stmt → Prop
  | .block body => Stmt.ListPlaced body
  | .conditional _ yes none => yes.Placed ∧ yes.isDeclaration = false
  | .conditional _ yes (some no) =>
    (yes.Placed ∧ yes.isDeclaration = false) ∧ no.Placed ∧ no.isDeclaration = false
  | .whileLoop _ body => body.Placed ∧ body.isDeclaration = false
  | .function f => Stmt.FunctionPlaced f
  | .classDecl _ methods => Stmt.MethodsPlaced methods
  | _ => True

def Stmt.ListPlaced : List Stmt → Prop
  | [] => True
  | s :: ss => s.Placed ∧ Stmt.ListPlaced ss

def Stmt.FunctionPlaced : Function → Prop
  | ⟨_, _, body⟩ => Stmt.ListPlaced body

def Stmt.MethodsPlaced : List Function → Prop
  | [] => True
  | f :: fs => Stmt.FunctionPlaced f ∧ Stmt.MethodsPlaced fs

end

theorem Stmt.listPlaced_iff {ss : List Stmt} : Stmt.ListPlaced ss ↔ ∀ s ∈ ss, s.Placed := by
  induction ss with
  | nil => simp [Stmt.ListPlaced]
  | cons s ss ih => simp [Stmt.ListPlaced, ih]

theorem Stmt.functionPlaced_iff {f : Function} :
    Stmt.FunctionPlaced f ↔ Stmt.ListPlaced f.body := by
  cases f
  rfl

theorem Stmt.methodsPlaced_iff {fs : List Function} :
    Stmt.MethodsPlaced fs ↔ ∀ f ∈ fs, Stmt.FunctionPlaced f := by
  induction fs with
  | nil => simp [Stmt.MethodsPlaced]
  | cons f fs ih => simp [Stmt.MethodsPlaced, ih]

theorem Scopes.after_eq (ss : Scopes) :
    (s : Stmt) → s.Placed → s.isDeclaration = false → ss.after s = ss
  | .conditional _ yes none, hp, _ => ss.after_eq yes hp.1 hp.2
  | .conditional _ yes (some no), hp, _ => by
      rw [Scopes.after, ss.after_eq yes hp.1.1 hp.1.2]
      exact ss.after_eq no hp.2.1 hp.2.2
  | .whileLoop _ body, hp, _ => ss.after_eq body hp.1 hp.2
  | .expression _, _, _ | .print _, _, _ | .block _, _, _ | .returning .., _, _ => rfl

namespace Grammar

variable {n : Nat} {o : Bool} {ts : List Token} {s : Stmt}

theorem ExpressionDerives.placed (h : ExpressionDerives n ts s) :
    s.Placed ∧ s.isDeclaration = false := by
  cases h
  exact ⟨trivial, rfl⟩

theorem VarDerives.placed (h : VarDerives n ts s) : s.Placed := by
  cases h
  trivial

theorem ClauseDerives.placed {initial : Option Stmt} (h : ClauseDerives n ts initial) :
    ∀ s ∈ initial, s.Placed := by
  cases h with
  | none => exact fun _ h => by cases h
  | var h => rintro _ ⟨⟩; exact h.placed
  | expression h => rintro _ ⟨⟩; exact h.placed.1

theorem placed_withIncrement {body : Stmt} (increment : Option Expr)
    (h : body.Placed ∧ body.isDeclaration = false) :
    (withIncrement body increment).Placed ∧ (withIncrement body increment).isDeclaration = false := by
  cases increment with
  | none => exact h
  | some e => exact ⟨⟨h.1, trivial, trivial⟩, rfl⟩

theorem placed_withInitial {c : Expr} {body : Stmt} {initial : Option Stmt}
    (hi : ∀ s ∈ initial, s.Placed) (h : (Stmt.whileLoop c body).Placed) :
    (withInitial (.whileLoop c body) initial).Placed ∧
      (withInitial (.whileLoop c body) initial).isDeclaration = false := by
  cases initial with
  | none => exact ⟨h, rfl⟩
  | some s => exact ⟨⟨hi s rfl, h, trivial⟩, rfl⟩

mutual

theorem StatementDerives.placed {n : Nat} {o : Bool} {ts : List Token} {s : Stmt} :
    StatementDerives n o ts s → s.Placed ∧ s.isDeclaration = false
  | .expression h => h.placed
  | .print .. | .returning .. => ⟨trivial, rfl⟩
  | .block _ h => ⟨h.placed, rfl⟩
  | .conditional _ _ _ _ hy => ⟨hy.placed, rfl⟩
  | .alternative _ _ _ _ hy _ hn => ⟨⟨hy.placed, hn.placed⟩, rfl⟩
  | .whileLoop _ _ _ _ hb => ⟨hb.placed, rfl⟩
  | .forLoop _ _ hi _ _ _ _ hb => placed_withInitial hi.placed (placed_withIncrement _ hb.placed)

theorem BlockDerives.placed {n : Nat} {ts : List Token} {body : List Stmt} :
    BlockDerives n ts body → Stmt.ListPlaced body
  | .intro hp _ => Stmt.listPlaced_iff.mpr fun s hs => by
      obtain ⟨p, hp', rfl⟩ := List.mem_map.mp hs
      exact (hp p hp').placed

theorem FunctionDerives.placed {n : Nat} {ts : List Token} {f : Function} :
    FunctionDerives n ts f → Stmt.FunctionPlaced f
  | .intro _ _ _ _ _ _ _ h => Stmt.functionPlaced_iff.mpr h.placed

theorem DeclarationDerives.placed {n : Nat} {ts : List Token} {s : Stmt} :
    DeclarationDerives n ts s → s.Placed
  | .klass _ _ _ hm _ => Stmt.methodsPlaced_iff.mpr fun f hf => by
      obtain ⟨m, hm', rfl⟩ := List.mem_map.mp hf
      exact (hm m hm').placed
  | .function _ h => h.placed
  | .var h => h.placed
  | .statement h => h.placed.1

end

theorem ProgramDerives.placed {body : List Stmt} (h : ProgramDerives n ts body) :
    Stmt.ListPlaced body := by
  obtain ⟨parts, hp, -, rfl⟩ := h
  refine Stmt.listPlaced_iff.mpr fun s hs => ?_
  obtain ⟨p, hp', rfl⟩ := List.mem_map.mp hs
  exact (hp p hp').placed

end Grammar

end Lox
