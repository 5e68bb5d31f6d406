import Lox.Grammar.Rules

/-!
Trees as they are written: whatever stands to the left of an equal sign is kept, a loop with clauses
is one statement, and lists may have any length. `repaired` makes the tree that is read out of such
a one, and `faults` tells what is noted meanwhile.
-/

namespace Lox.Grammar

/-- What is noted at the entry of a list behind `k` others. -/
def overflow (what : Listed) (k : Nat) (first : Token) : List (Fault SyntaxCause) :=
  if k = maxArity then [⟨first.line, .tooMany what⟩] else []

/-- The same for all entries of a list behind `k` others. -/
def overflows (what : Listed) : Nat → List Token → List (Fault SyntaxCause)
  | _, [] => []
  | k, first :: firsts => overflow what k first ++ overflows what (k + 1) firsts

namespace Raw

/-- A name has no identity yet, and a token stays with what it opens. -/
inductive Expr
  | literal (token : Token) (value : Literal)
  | grouping (paren : Token) (inner : Expr)
  | unary (operator : Token) (operand : Expr)
  | binary (left : Expr) (operator : Token) (right : Expr)
  | logical (left : Expr) (operator : Token) (right : Expr)
  | read (name : Token)
  | assign (target : Expr) (equal : Token) (value : Expr)
  | call (callee : Expr) (paren : Token) (arguments : List Expr)

inductive Stmt
  | expression (value : Expr)
  | print (value : Expr)
  | var (name : Token) (initial : Option Expr)
  | block (body : List Stmt)
  | conditional (condition : Expr) (yes : Stmt) (no : Option Stmt)
  | whileLoop (condition : Expr) (body : Stmt)
  | forLoop (initial : Option Stmt) (condition increment : Option Expr) (body : Stmt)
  | function (decl : FunctionDecl Stmt)
  | returning (keyword : Token) (value : Option Expr)
  | classDecl (name : Token) (methods : List (FunctionDecl Stmt))

abbrev Function := FunctionDecl Stmt

instance : Inhabited Expr := ⟨.literal ⟨.eof, "", 0⟩ .nil⟩
instance : Inhabited Stmt := ⟨.block []⟩
instance : Inhabited Function := ⟨⟨⟨.eof, "", 0⟩, [], []⟩⟩

/-- The token an expression starts with. -/
def Expr.first : Expr → Token
  | .literal token _ => token
  | .grouping paren _ => paren
  | .unary op _ => op
  | .binary l _ _ | .logical l _ _ => l.first
  | .read name => name
  | .assign target _ _ => target.first
  | .call callee _ _ => callee.first

/-! ### What is read -/

mutual

/-- An assignment to anything but a name leaves its left side. All identities are alike. -/
def Expr.repaired : Expr → Lox.Expr
  | .literal _ l => .literal l
  | .grouping _ e => .grouping e.repaired
  | .unary op e => .unary op e.repaired
  | .binary l op r => .binary l.repaired op r.repaired
  | .logical l op r => .logical l.repaired op r.repaired
  | .read name => .read 0 name
  | .assign (.read name) _ value => .assign 0 name value.repaired
  | .assign target _ _ => target.repaired
  | .call callee paren args => .call callee.repaired paren (Expr.listRepaired args)

def Expr.listRepaired : List Expr → List Lox.Expr
  | [] => []
  | e :: es => e.repaired :: Expr.listRepaired es

end

mutual

def Stmt.repaired : Stmt → Lox.Stmt
  | .expression e => .expression e.repaired
  | .print e => .print e.repaired
  | .var name initial => .var name (initial.map Expr.repaired)
  | .block body => .block (Stmt.listRepaired body)
  | .conditional c yes none => .conditional c.repaired yes.repaired none
  | .conditional c yes (some no) => .conditional c.repaired yes.repaired (some no.repaired)
  | .whileLoop c body => .whileLoop c.repaired body.repaired
  | .forLoop none c increment body =>
      Grammar.forLoop none (c.map Expr.repaired) (increment.map Expr.repaired) body.repaired
  | .forLoop (some s) c increment body =>
      Grammar.forLoop (some s.repaired) (c.map Expr.repaired) (increment.map Expr.repaired)
        body.repaired
  | .function f => .function (Stmt.functionRepaired f)
  | .returning keyword value => .returning keyword (value.map Expr.repaired)
  | .classDecl name methods => .classDecl name (Stmt.methodsRepaired methods)

def Stmt.listRepaired : List Stmt → List Lox.Stmt
  | [] => []
  | s :: ss => s.repaired :: Stmt.listRepaired ss

def Stmt.functionRepaired : Function → Lox.Function
  | ⟨name, params, body⟩ => ⟨name, params, Stmt.listRepaired body⟩

def Stmt.methodsRepaired : List Function → List Lox.Function
  | [] => []
  | f :: fs => Stmt.functionRepaired f :: Stmt.methodsRepaired fs

end

/-! ### What is noted -/

def Expr.isName : Expr → Bool
  | .read _ => true
  | _ => false

mutual

/-- The faults noted while an expression is read, the first one first. Those of the right side of an
assignment come before the one of the assignment itself. -/
def Expr.faults : Expr → List (Fault SyntaxCause)
  | .literal _ _ | .read _ => []
  | .grouping _ e | .unary _ e => e.faults
  | .binary l _ r | .logical l _ r => l.faults ++ r.faults
  | .assign target equal value =>
      target.faults ++ (value.faults ++
        if target.isName then [] else [⟨equal.line, .invalidTarget⟩])
  | .call callee _ args => callee.faults ++ Expr.listFaults 0 args

/-- The same for arguments behind `k` others. -/
def Expr.listFaults : Nat → List Expr → List (Fault SyntaxCause)
  | _, [] => []
  | k, e :: es => (overflow .arguments k e.first ++ e.faults) ++ Expr.listFaults (k + 1) es

end

def optionFaults (e : Option Expr) : List (Fault SyntaxCause) := e.elim [] Expr.faults

mutual

def Stmt.faults : Stmt → List (Fault SyntaxCause)
  | .expression e | .print e => e.faults
  | .var _ initial => optionFaults initial
  | .block body => Stmt.listFaults body
  | .conditional c yes none => c.faults ++ yes.faults
  | .conditional c yes (some no) => c.faults ++ (yes.faults ++ no.faults)
  | .whileLoop c body => c.faults ++ body.faults
  | .forLoop none c increment body => optionFaults c ++ (optionFaults increment ++ body.faults)
  | .forLoop (some s) c increment body =>
      s.faults ++ (optionFaults c ++ (optionFaults increment ++ body.faults))
  | .function f => Stmt.functionFaults f
  | .returning _ value => optionFaults value
  | .classDecl _ methods => Stmt.methodsFaults methods

def Stmt.listFaults : List Stmt → List (Fault SyntaxCause)
  | [] => []
  | s :: ss => s.faults ++ Stmt.listFaults ss

def Stmt.functionFaults : Function → List (Fault SyntaxCause)
  | ⟨_, params, body⟩ => overflows .parameters 0 params ++ Stmt.listFaults body

def Stmt.methodsFaults : List Function → List (Fault SyntaxCause)
  | [] => []
  | f :: fs => Stmt.functionFaults f ++ Stmt.methodsFaults fs

end

/-! ### Where something is noted -/

/-- A place where a fault may be noted: the list of a call or a function, given by the tokens that
its entries start with, or an equal sign behind a left side. -/
inductive Check
  | list (what : Listed) (entries : List Token)
  | assignment (target : Expr) (equal : Token)

/-- A list is faulty if it has an entry too many, and then once, at the first such entry. -/
def Check.fault? : Check → Option (Fault SyntaxCause)
  | .list what entries => entries[maxArity]?.map fun first => ⟨first.line, .tooMany what⟩
  | .assignment target equal =>
      if target.isName then none else some ⟨equal.line, .invalidTarget⟩

mutual

/-- All the lists and all the equal signs in an expression. -/
def Expr.checks : Expr → List Check
  | .literal _ _ | .read _ => []
  | .grouping _ e | .unary _ e => e.checks
  | .binary l _ r | .logical l _ r => l.checks ++ r.checks
  | .assign target equal value => .assignment target equal :: (target.checks ++ value.checks)
  | .call callee _ args =>
      .list .arguments (args.map Expr.first) :: (callee.checks ++ Expr.listChecks args)

def Expr.listChecks : List Expr → List Check
  | [] => []
  | e :: es => e.checks ++ Expr.listChecks es

end

def optionChecks (e : Option Expr) : List Check := e.elim [] Expr.checks

mutual

def Stmt.checks : Stmt → List Check
  | .expression e | .print e => e.checks
  | .var _ initial => optionChecks initial
  | .block body => Stmt.listChecks body
  | .conditional c yes none => c.checks ++ yes.checks
  | .conditional c yes (some no) => c.checks ++ (yes.checks ++ no.checks)
  | .whileLoop c body => c.checks ++ body.checks
  | .forLoop none c increment body => optionChecks c ++ (optionChecks increment ++ body.checks)
  | .forLoop (some s) c increment body =>
      s.checks ++ (optionChecks c ++ (optionChecks increment ++ body.checks))
  | .function f => Stmt.functionChecks f
  | .returning _ value => optionChecks value
  | .classDecl _ methods => Stmt.methodsChecks methods

def Stmt.listChecks : List Stmt → List Check
  | [] => []
  | s :: ss => s.checks ++ Stmt.listChecks ss

def Stmt.functionChecks : Function → List Check
  | ⟨_, params, body⟩ => .list .parameters params :: Stmt.listChecks body

def Stmt.methodsChecks : List Function → List Check
  | [] => []
  | f :: fs => Stmt.functionChecks f ++ Stmt.methodsChecks fs

end

/-- The faults of a row of checks, one for each check that is not passed. -/
def failed (checks : List Check) : List (Fault SyntaxCause) := checks.filterMap Check.fault?

@[simp] theorem failed_nil : failed [] = [] := rfl

@[simp] theorem failed_cons (c : Check) (cs : List Check) :
    failed (c :: cs) = c.fault?.toList ++ failed cs := by
  rw [failed, failed, List.filterMap_cons]
  cases c.fault? <;> rfl

@[simp] theorem failed_append (cs ds : List Check) : failed (cs ++ ds) = failed cs ++ failed ds :=
  List.filterMap_append

theorem overflows_eq (what : Listed) (k : Nat) (entries : List Token) :
    overflows what k entries = if k ≤ maxArity then
      (entries[maxArity - k]?.map fun first => ⟨first.line, .tooMany what⟩).toList else [] := by
  induction entries generalizing k with
  | nil => simp [overflows]
  | cons p ps ih =>
      rw [overflows, ih, overflow]
      rcases Nat.lt_trichotomy k maxArity with hk | rfl | hk
      · have hstep : maxArity - k = (maxArity - (k + 1)) + 1 := by omega
        rw [if_neg (by omega), if_pos (by omega), if_pos (by omega), hstep]
        simp
      · rw [if_pos rfl, if_neg (by omega), if_pos (Nat.le_refl _), Nat.sub_self]
        rfl
      · rw [if_neg (by omega), if_neg (by omega), if_neg (by omega)]
        rfl

theorem overflows_eq_fault? (what : Listed) (entries : List Token) :
    overflows what 0 entries = (Check.list what entries).fault?.toList := by
  rw [overflows_eq, if_pos (Nat.zero_le _)]
  rfl

section

variable (f : Fault SyntaxCause)

mutual

theorem Expr.count_faults : (e : Expr) → e.faults.count f = (failed e.checks).count f
  | .literal _ _ | .read _ => rfl
  | .grouping _ e | .unary _ e => Expr.count_faults e
  | .binary l _ r | .logical l _ r => by
      simp only [Expr.faults, Expr.checks, failed_append, List.count_append,
        Expr.count_faults l, Expr.count_faults r]
  | .assign target equal value => by
      have hcheck : (Check.assignment target equal).fault?.toList =
          if target.isName then [] else [⟨equal.line, .invalidTarget⟩] := by
        rw [Check.fault?]
        split <;> rfl
      simp only [Expr.faults, Expr.checks, failed_cons, failed_append, List.count_append,
        Expr.count_faults target, Expr.count_faults value, hcheck]
      omega
  | .call callee _ args => by
      simp only [Expr.faults, Expr.checks, failed_cons, failed_append, List.count_append,
        Expr.count_faults callee, Expr.count_listFaults 0 args, overflows_eq_fault?]
      omega

theorem Expr.count_listFaults : (k : Nat) → (es : List Expr) → (Expr.listFaults k es).count f =
    (overflows .arguments k (es.map Expr.first)).count f + (failed (Expr.listChecks es)).count f
  | _, [] => rfl
  | k, e :: es => by
      simp only [Expr.listFaults, Expr.listChecks, List.map_cons, overflows, failed_append,
        List.count_append, Expr.count_faults e, Expr.count_listFaults (k + 1) es]
      omega

end

theorem count_optionFaults (e : Option Expr) :
    (optionFaults e).count f = (failed (optionChecks e)).count f := by
  cases e with
  | none => rfl
  | some e => exact e.count_faults f

mutual

theorem Stmt.count_faults : (s : Stmt) → s.faults.count f = (failed s.checks).count f
  | .expression e | .print e => e.count_faults f
  | .var _ initial => count_optionFaults f initial
  | .block body => Stmt.count_listFaults body
  | .conditional c yes none => by
      simp only [Stmt.faults, Stmt.checks, failed_append, List.count_append, c.count_faults f,
        Stmt.count_faults yes]
  | .conditional c yes (some no) => by
      simp only [Stmt.faults, Stmt.checks, failed_append, List.count_append, c.count_faults f,
        Stmt.count_faults yes, Stmt.count_faults no]
  | .whileLoop c body => by
      simp only [Stmt.faults, Stmt.checks, failed_append, List.count_append, c.count_faults f,
        Stmt.count_faults body]
  | .forLoop none c increment body => by
      simp only [Stmt.faults, Stmt.checks, failed_append, List.count_append,
        count_optionFaults f c, count_optionFaults f increment, Stmt.count_faults body]
  | .forLoop (some s) c increment body => by
      simp only [Stmt.faults, Stmt.checks, failed_append, List.count_append, Stmt.count_faults s,
        count_optionFaults f c, count_optionFaults f increment, Stmt.count_faults body]
  | .function g => Stmt.count_functionFaults g
  | .returning _ value => count_optionFaults f value
  | .classDecl _ methods => Stmt.count_methodsFaults methods

theorem Stmt.count_listFaults : (ss : List Stmt) →
    (Stmt.listFaults ss).count f = (failed (Stmt.listChecks ss)).count f
  | [] => rfl
  | s :: ss => by
      simp only [Stmt.listFaults, Stmt.listChecks, failed_append, List.count_append,
        Stmt.count_faults s, Stmt.count_listFaults ss]

theorem Stmt.count_functionFaults : (g : Function) →
    (Stmt.functionFaults g).count f = (failed (Stmt.functionChecks g)).count f
  | ⟨_, params, body⟩ => by
      simp only [Stmt.functionFaults, Stmt.functionChecks, failed_cons, List.count_append,
        Stmt.count_listFaults body, overflows_eq_fault?]

theorem Stmt.count_methodsFaults : (gs : List Function) →
    (Stmt.methodsFaults gs).count f = (failed (Stmt.methodsChecks gs)).count f
  | [] => rfl
  | g :: gs => by
      simp only [Stmt.methodsFaults, Stmt.methodsChecks, failed_append, List.count_append,
        Stmt.count_functionFaults g, Stmt.count_methodsFaults gs]

end

end

/-- Every check that is not passed is noted once, and nothing else is. -/
theorem Stmt.listFaults_perm (ss : List Stmt) :
    (Stmt.listFaults ss).Perm (failed (Stmt.listChecks ss)) :=
  List.perm_iff_count.mpr fun f => Stmt.count_listFaults f ss

end Raw

end Lox.Grammar
