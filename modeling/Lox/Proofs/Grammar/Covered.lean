import Lox.Proofs.Grammar.Pays

/-!
The rules for expressions, and the parts of statements and functions that hold no statement, pay for
the faults they note. Two faults are noted where nothing is read: that a list is too long, for which
the comma in front of the entry pays, and that the left side of an assignment is no name, for which
the equals sign pays.
-/

namespace Lox.Grammar

variable {α : Type} {inner : Rules} {s : State}

/-- The rules for expressions read a token more than they note faults. Where they are refused at
once, nothing is read. -/
structure ExpressionsPay (inner : Rules) : Prop where
  expression : ∀ (endless : Prop) (s : State), Pays 1 True endless inner.expression s
  operand : ∀ (endless : Prop) (s : State), Pays 1 True endless inner.operand s

/-! ### Lists -/

section

variable {endless : Prop} {what : Listed} {item : Rule α}

theorem entry_pays (h : ∀ s, Pays 1 True endless item s) (read : Array α) :
    Pays (-1) False endless (entry what item read) s := by
  have hpush (u : State) : Pays 0 False endless (do return read.push (← item)) u :=
    (h u).skip fun _ _ _ _ => Pays.pure
  rw [entry]
  split
  · exact Pays.noteHere.bind fun _ u _ _ => hpush u
  · exact (hpush s).meager (by decide) (by decide)

/-- The first entry of a list finds room. -/
theorem firstEntry_pays (h : ∀ s, Pays 1 True endless item s) :
    Pays 0 False endless (entry what item #[]) s := by
  rw [entry, if_neg (by simp [maxArity])]
  exact (h s).skip fun _ _ _ _ => Pays.pure

theorem listOf_pays (h : ∀ s, Pays 1 True endless item s) :
    Pays 0 False endless (listOf what item) s := by
  refine (firstEntry_pays h).bind fun first t _ _ => Pays.bind ?_ fun _ _ _ _ => Pays.pure
  refine Pays.loop fun read u => ?_
  refine Pays.acceptMap (k := -1) (fun _ => ?_) (fun _ => Pays.pure)
  exact (entry_pays h read).bind fun _ _ _ _ => Pays.pure

theorem listUpToParen_pays {place : Place} (h : ∀ s, Pays 1 True endless item s) :
    Pays 0 False endless (listUpToParen what item place) s := by
  have hend (entries : List α) (u : State) : Pays 0 False endless
      (do let paren ← expectSymbol .rightParen place; return (entries, paren)) u :=
    Pays.token.skip fun _ _ _ _ => Pays.pure
  refine Pays.look (ahead_apply _ s) ?_
  by_cases hs : s.At (.symbol .rightParen)
  · simpa [hs] using hend [] s
  · simpa [hs] using (listOf_pays h).bind fun entries u _ _ => hend entries u

end

/-! ### Expressions -/

section

variable (h : ExpressionsPay inner) {endless : Prop}

include h

theorem primary_pays : Pays 1 True endless (primary inner) s := by
  refine Pays.acceptMap (k := 0) (fun l => Pays.pure) (fun _ => ?_)
  refine Pays.accept (fun name _ => ?_) (fun _ => ?_)
  · exact Pays.freshId.bind fun i _ _ _ => Pays.pure
  refine Pays.accept (fun _ _ => ?_) (fun _ => Pays.refuse (.inr trivial))
  refine (h.expression endless _).skip fun e _ _ _ => ?_
  exact Pays.token.skip fun _ _ _ _ => Pays.pure

theorem call_pays : Pays 1 True endless (call inner) s := by
  refine (primary_pays h).bind fun callee t _ _ => ?_
  refine Pays.loop fun callee u => ?_
  refine Pays.accept (fun _ _ => ?_) (fun _ => Pays.pure)
  exact (listUpToParen_pays (h.expression endless)).bind fun _ _ _ _ => Pays.pure

theorem unary_pays : Pays 1 True endless (unary inner) s := by
  refine Pays.acceptMap (k := 0) (fun op => ?_) (fun _ => call_pays h)
  exact (h.operand endless _).skip fun _ _ _ _ => Pays.pure

omit h in
theorem chain_pays {p : Kind → Bool} {join : Expr → Token → Expr → Expr} {operand : Rule Expr}
    (ho : ∀ s, Pays 1 True endless operand s) (s : State) :
    Pays 1 True endless (chain p join operand) s := by
  refine (ho s).bind fun left t _ _ => ?_
  refine Pays.loop fun left u => ?_
  refine Pays.acceptMap (k := 0) (fun op => ?_) (fun _ => Pays.pure)
  exact (ho _).skip fun _ _ _ _ => Pays.pure

theorem disjunction_pays : Pays 1 True endless (disjunction inner) s := by
  have hcomparison (s : State) : Pays 1 True endless (comparison inner) s :=
    chain_pays (chain_pays (chain_pays fun _ => unary_pays h)) s
  exact chain_pays (chain_pays (chain_pays hcomparison)) s

theorem assignment_pays : Pays 1 True endless (assignment inner) s := by
  refine (disjunction_pays h).bind fun target t _ _ => ?_
  refine Pays.acceptMap (k := -1) (fun equals => ?_) fun _ => Pays.pure
  refine ((h.expression endless _).meager (by decide) (by decide)).lend (j := 0) (k := -1)
    (fun value u _ _ => ?_) (by decide) (by decide)
  have hkeep : Pays (-1) False endless (do noteAt equals.line .invalidTarget; return target) u :=
    Pays.noteAt.bind fun _ _ _ _ => Pays.pure
  have hassign (name : Token) :
      Pays 0 False endless (do return Expr.assign (← freshId) name value) u :=
    Pays.freshId.bind fun _ _ _ _ => Pays.pure
  cases target with
  | read id name => exact (hassign name).meager (by decide) (by decide)
  | _ => exact hkeep

/-! ### Parts of statements -/

theorem optional_pays (k : Kind) :
    Pays 0 False endless (optional (ahead k) inner.expression) s := by
  refine Pays.look (ahead_apply k s) ?_
  by_cases hs : s.At k
  · simpa [hs] using Pays.pure
  · simpa [hs] using (h.expression endless s).skip fun _ _ _ _ => Pays.pure

theorem varRest_pays : Pays 0 False endless (varRest inner) s := by
  have hend (name : Token) (initial : Option Expr) (u : State) : Pays 0 False endless
      (do let _ ← expectSymbol .semicolon .afterVariable; return Stmt.var name initial) u :=
    Pays.token.skip fun _ _ _ _ => Pays.pure
  refine Pays.token.skip fun name _ _ _ => ?_
  refine Pays.accept (fun _ _ => ?_) (fun _ => hend name none _)
  exact (h.expression endless _).skip fun e u _ _ => hend name (some e) u

theorem expressionStatement_pays : Pays 1 True endless (expressionStatement inner) s :=
  (h.expression endless s).bind fun _ _ _ _ => Pays.token.skip fun _ _ _ _ => Pays.pure

theorem printRest_pays : Pays 0 False endless (printRest inner) s :=
  (h.expression endless s).skip fun _ _ _ _ => Pays.token.skip fun _ _ _ _ => Pays.pure

theorem returnRest_pays (keyword : Token) : Pays 0 False endless (returnRest inner keyword) s :=
  (optional_pays h _).bind fun _ _ _ _ => Pays.token.skip fun _ _ _ _ => Pays.pure

theorem forInitial_pays : Pays 0 False endless (forInitial inner) s := by
  refine Pays.accept (fun _ _ => Pays.pure) (fun _ => ?_)
  refine Pays.accept (fun _ _ => ?_) (fun _ => ?_)
  · exact (varRest_pays h).bind fun _ _ _ _ => Pays.pure
  · exact (expressionStatement_pays h).skip fun _ _ _ _ => Pays.pure

end

/-! ### Heads

What stands in front of a statement that a keyword governs, in front of the body of a function and
in front of the methods of a class. -/

def conditionHead (inner : Rules) (k : Keyword) (place : Place) : Rule Expr := do
  let _ ← expectSymbol .leftParen (.afterKeyword k)
  let condition ← inner.expression
  let _ ← expectSymbol .rightParen place
  return condition

def forHead (inner : Rules) : Rule (Option Stmt × Option Expr × Option Expr) := do
  let _ ← expectSymbol .leftParen (.afterKeyword .kwFor)
  let initial ← forInitial inner
  let condition ← optional (ahead (.symbol .semicolon)) inner.expression
  let _ ← expectSymbol .semicolon .afterLoopCondition
  let increment ← optional (ahead (.symbol .rightParen)) inner.expression
  let _ ← expectSymbol .rightParen .afterForClauses
  return (initial, condition, increment)

def functionHead (c : Callee) : Rule (Token × List Token) := do
  let name ← expectName (.callee c)
  let _ ← expectSymbol .leftParen (.afterName c)
  let (params, _) ← listUpToParen .parameters (expectName .parameter) .afterParameters
  let _ ← expectSymbol .leftBrace (.beforeBody c)
  return (name, params)

def classHead : Rule Token := do
  let name ← expectName .klass
  let _ ← expectSymbol .leftBrace .beforeClassBody
  return name

theorem ifRest_eq (inner : Rules) : ifRest inner = do
    let condition ← conditionHead inner .kwIf .afterIfCondition
    let yes ← inner.statement
    match ← accept (.keyword .kwElse) with
    | some _ => return .conditional condition yes (some (← inner.statement))
    | none => return .conditional condition yes none := by
  symm
  simp only [conditionHead, bind_assoc, pure_bind]
  rfl

theorem whileRest_eq (inner : Rules) : whileRest inner = do
    let condition ← conditionHead inner .kwWhile .afterWhileCondition
    return .whileLoop condition (← inner.statement) := by
  simp [whileRest, conditionHead]

theorem forRest_eq (inner : Rules) : forRest inner = do
    let (initial, condition, increment) ← forHead inner
    return forLoop initial condition increment (← inner.statement) := by
  simp [forRest, forHead]

theorem function_eq (inner : Rules) (c : Callee) : function inner c = do
    let (name, params) ← functionHead c
    return ⟨name, params, ← inner.block⟩ := by
  simp [function, functionHead]

section

variable {endless : Prop}

theorem conditionHead_pays (h : ExpressionsPay inner) (k : Keyword) (place : Place) :
    Pays 0 False endless (conditionHead inner k place) s := by
  refine Pays.token.skip fun _ _ _ _ => ?_
  refine (h.expression endless _).skip fun condition _ _ _ => ?_
  exact Pays.token.skip fun _ _ _ _ => Pays.pure

theorem forHead_pays (h : ExpressionsPay inner) : Pays 0 False endless (forHead inner) s := by
  refine Pays.token.skip fun _ _ _ _ => ?_
  refine (forInitial_pays h).bind fun initial _ _ _ => ?_
  refine (optional_pays h _).bind fun condition _ _ _ => Pays.token.skip fun _ _ _ _ => ?_
  refine (optional_pays h _).bind fun increment _ _ _ => Pays.token.skip fun _ _ _ _ => ?_
  exact Pays.pure

/-- A function has a name, so that whoever reads a function reads on. -/
theorem functionHead_pays (c : Callee) : Pays 1 True endless (functionHead c) s := by
  refine Pays.token.bind fun name _ _ _ => ?_
  refine Pays.token.skip fun _ _ _ _ => ?_
  refine (listUpToParen_pays fun _ => Pays.token).bind fun out _ _ _ => ?_
  exact Pays.token.skip fun _ _ _ _ => Pays.pure

theorem classHead_pays : Pays 0 False endless classHead s := by
  refine Pays.token.skip fun name _ _ _ => ?_
  exact Pays.token.skip fun _ _ _ _ => Pays.pure

end

theorem expressions_pay (n : Nat) : ExpressionsPay (rules n) := by
  induction n with
  | zero => exact ⟨fun _ _ => Pays.refuse (.inr trivial), fun _ _ => Pays.refuse (.inr trivial)⟩
  | succ n ih =>
      exact ⟨fun _ _ => Pays.nested (fun _ => assignment_pays ih) id fun _ => .inr trivial,
        fun _ _ => Pays.nested (fun _ => unary_pays ih) id fun _ => .inr trivial⟩

end Lox.Grammar
