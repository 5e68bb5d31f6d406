import Lox.Program

/-!
Properties that all rules of the grammar have because single steps have them and because they are
kept in every way in which rules are put together.
-/

namespace Lox.Grammar

/-- A property of rules that single steps have and that putting rules together keeps. A fault is
noted at a token read before by an assignment only, so nothing is asked of that step alone. -/
structure Closed (C : {α : Type} → Rule α → Prop) : Prop where
  pure {α : Type} (a : α) : C (pure a)
  bind {α β : Type} {x : Rule α} {f : α → Rule β} (hx : C x) (hf : ∀ a, C (f a)) : C (x >>= f)
  get : C get
  refuse {α : Type} (cause : Found → SyntaxCause) : C (refuse cause : Rule α)
  endless {α : Type} : C (throw .endless : Rule α)
  acceptMap {α : Type} (f : Token → Option α) : C (acceptMap f)
  ahead (k : Kind) : C (ahead k)
  atEnd : C atEnd
  freshId : C freshId
  noteHere (cause : SyntaxCause) : C (noteHere cause)
  late {x : Rule Expr} (target : Expr) (hx : C x) : C do
    match ← accept (.symbol .equal) with
    | none => return target
    | some equals =>
      let _ ← x
      noteAt equals.line .invalidTarget
      return target
  nested {α : Type} {x : Rule α} (what : Nesting) (hx : C x) : C (nested what x)
  recovering {α : Type} {x : Rule α} (hx : C x) : C (recovering x)

namespace Closed

variable {C : {α : Type} → Rule α → Prop} {α β : Type} (hC : Closed C)

include hC

/-! ### Steps -/

theorem accept (k : Kind) : C (accept k) := hC.acceptMap _

theorem expect (k : Kind) (wanted : Wanted) : C (expect k wanted) := by
  refine hC.bind (hC.accept k) fun o => ?_
  cases o with
  | none => exact hC.refuse _
  | some t => exact hC.pure t

theorem atClose : C atClose := by
  refine hC.bind (hC.ahead _) fun b => ?_
  cases b with
  | true => exact hC.pure true
  | false => exact hC.atEnd

/-- Where a token may come, the rule goes on in one way or the other. -/
theorem choice {f : Option Token → Rule β} {k : Kind} (hs : ∀ t, C (f (some t))) (hn : C (f none)) :
    C (Grammar.accept k >>= f) := by
  refine hC.bind (hC.accept k) fun o => ?_
  cases o with
  | none => exact hn
  | some t => exact hs t

theorem repeatedly (a : α) {step : α → Rule (Option α)} (h : ∀ a, C (step a)) :
    C (repeatedly a step) := by
  have hgo (bound : List Token) : ∀ a, C (Grammar.repeatedly.go step bound a) := by
    induction bound with
    | nil => exact fun a => hC.pure a
    | cons t bound ih =>
        refine fun a => hC.bind (h a) fun o => ?_
        cases o with
        | none => exact hC.pure a
        | some b => exact ih b
  exact hC.bind hC.get fun s => hgo s.rest a

/-! ### Lists -/

theorem entry {what : Listed} {item : Rule α} (h : C item) (read : Array α) :
    C (entry what item read) := by
  have hpush : C (do return read.push (← item)) := hC.bind h fun a => hC.pure _
  rw [Grammar.entry]
  split
  · exact hC.bind (hC.noteHere _) fun _ => hpush
  · exact hpush

theorem listOf {what : Listed} {item : Rule α} (h : C item) : C (listOf what item) := by
  refine hC.bind (hC.entry h #[]) fun first => ?_
  refine hC.bind (hC.repeatedly first fun read => ?_) fun all => hC.pure _
  exact hC.choice (fun _ => hC.bind (hC.entry h read) fun all => hC.pure _) (hC.pure _)

theorem listUpToParen {what : Listed} {item : Rule α} {place : Place} (h : C item) :
    C (listUpToParen what item place) := by
  have hend (entries : List α) : C (do
      let paren ← expectSymbol .rightParen place
      return (entries, paren)) := hC.bind (hC.expect _ _) fun _ => hC.pure _
  refine hC.bind (hC.ahead _) fun b => ?_
  cases b with
  | true => exact hC.bind (hC.pure []) hend
  | false => exact hC.bind (hC.listOf h) hend

theorem optional {missing : Rule Bool} {item : Rule α} (hm : C missing) (h : C item) :
    C (optional missing item) := by
  refine hC.bind hm fun b => ?_
  cases b with
  | true => exact hC.pure none
  | false => exact hC.bind h fun a => hC.pure _

end Closed

/-- The rules one level further in have the property. -/
structure RulesIn (C : {α : Type} → Rule α → Prop) (inner : Rules) : Prop where
  expression : C inner.expression
  operand : C inner.operand
  statement : C inner.statement
  block : C inner.block

namespace Closed

variable {C : {α : Type} → Rule α → Prop} (hC : Closed C) {inner : Rules} (h : RulesIn C inner)

include hC h

/-! ### Expressions -/

theorem primary : C (primary inner) := by
  refine hC.bind (hC.acceptMap _) fun o => ?_
  cases o with
  | some l => exact hC.pure _
  | none =>
  refine hC.choice (fun name => hC.bind hC.freshId fun id => hC.pure _) ?_
  refine hC.choice (fun _ => ?_) (hC.refuse _)
  exact hC.bind h.expression fun e => hC.bind (hC.expect _ _) fun _ => hC.pure _

theorem call : C (call inner) := by
  refine hC.bind (hC.primary h) fun e => hC.repeatedly e fun callee => ?_
  refine hC.choice (fun _ => ?_) (hC.pure _)
  exact hC.bind (hC.listUpToParen h.expression) fun _ => hC.pure _

theorem unary : C (unary inner) := by
  refine hC.bind (hC.acceptMap _) fun o => ?_
  cases o with
  | none => exact hC.call h
  | some op => exact hC.bind h.operand fun e => hC.pure _

omit h in
theorem chain {p : Kind → Bool} {join : Expr → Token → Expr → Expr} {operand : Rule Expr}
    (ho : C operand) : C (chain p join operand) := by
  refine hC.bind ho fun e => hC.repeatedly e fun left => hC.bind (hC.acceptMap _) fun o => ?_
  cases o with
  | none => exact hC.pure _
  | some op => exact hC.bind ho fun r => hC.pure _

theorem disjunction : C (disjunction inner) :=
  hC.chain (hC.chain (hC.chain (hC.chain (hC.chain (hC.chain (hC.unary h))))))

theorem assignment : C (assignment inner) := by
  refine hC.bind (hC.disjunction h) fun target => ?_
  cases target with
  | read id name =>
      refine hC.choice (fun equals => ?_) (hC.pure _)
      exact hC.bind h.expression fun value => hC.bind hC.freshId fun id => hC.pure _
  | _ => exact hC.late _ h.expression

/-! ### Statements -/

theorem varRest : C (varRest inner) := by
  refine hC.bind (hC.expect _ _) fun name => ?_
  have hend (initial : Option Expr) : C (do
      let _ ← expectSymbol .semicolon .afterVariable
      return Stmt.var name initial) := hC.bind (hC.expect _ _) fun _ => hC.pure _
  refine hC.choice (fun _ => hC.bind h.expression fun e => ?_) ?_
  · exact hC.bind (hC.pure _) hend
  · exact hC.bind (hC.pure _) hend

theorem expressionStatement : C (expressionStatement inner) :=
  hC.bind h.expression fun _ => hC.bind (hC.expect _ _) fun _ => hC.pure _

theorem printRest : C (printRest inner) :=
  hC.bind h.expression fun _ => hC.bind (hC.expect _ _) fun _ => hC.pure _

theorem returnRest (kw : Token) : C (returnRest inner kw) :=
  hC.bind (hC.optional (hC.ahead _) h.expression) fun _ =>
    hC.bind (hC.expect _ _) fun _ => hC.pure _

theorem ifRest : C (ifRest inner) := by
  refine hC.bind (hC.expect _ _) fun _ => hC.bind h.expression fun c => ?_
  refine hC.bind (hC.expect _ _) fun _ => hC.bind h.statement fun yes => ?_
  exact hC.choice (fun _ => hC.bind h.statement fun no => hC.pure _) (hC.pure _)

theorem whileRest : C (whileRest inner) := by
  refine hC.bind (hC.expect _ _) fun _ => hC.bind h.expression fun c => ?_
  exact hC.bind (hC.expect _ _) fun _ => hC.bind h.statement fun body => hC.pure _

theorem forInitial : C (forInitial inner) := by
  refine hC.choice (fun _ => hC.pure _) (hC.choice (fun _ => ?_) ?_)
  · exact hC.bind (hC.varRest h) fun _ => hC.pure _
  · exact hC.bind (hC.expressionStatement h) fun _ => hC.pure _

theorem forRest : C (forRest inner) := by
  refine hC.bind (hC.expect _ _) fun _ => hC.bind (hC.forInitial h) fun initial => ?_
  refine hC.bind (hC.optional (hC.ahead _) h.expression) fun condition => ?_
  refine hC.bind (hC.expect _ _) fun _ => ?_
  refine hC.bind (hC.optional (hC.ahead _) h.expression) fun increment => ?_
  exact hC.bind (hC.expect _ _) fun _ => hC.bind h.statement fun body => hC.pure _

theorem statementRule : C (statementRule inner) := by
  refine hC.choice (fun _ => hC.forRest h) (hC.choice (fun _ => hC.ifRest h) ?_)
  refine hC.choice (fun _ => hC.whileRest h) (hC.choice (fun kw => hC.returnRest h kw) ?_)
  refine hC.choice (fun _ => hC.bind h.block fun _ => hC.pure _) ?_
  exact hC.choice (fun _ => hC.printRest h) (hC.expressionStatement h)

/-! ### Declarations -/

theorem function (c : Callee) : C (function inner c) := by
  refine hC.bind (hC.expect _ _) fun name => hC.bind (hC.expect _ _) fun _ => ?_
  refine hC.bind (hC.listUpToParen (hC.expect _ _)) fun _ => hC.bind (hC.expect _ _) fun _ => ?_
  exact hC.bind h.block fun body => hC.pure _

theorem classRest : C (classRest inner) := by
  refine hC.bind (hC.expect _ _) fun name => hC.bind (hC.expect _ _) fun _ => ?_
  refine hC.bind (hC.repeatedly #[] fun read => hC.bind hC.atClose fun b => ?_) fun methods =>
    hC.bind (hC.expect _ _) fun _ => hC.pure _
  cases b with
  | true => exact hC.pure _
  | false => exact hC.bind (hC.function h .method) fun f => hC.pure _

theorem declarationRule : C (declarationRule inner) := by
  refine hC.choice (fun _ => hC.classRest h) (hC.choice (fun _ => ?_) ?_)
  · exact hC.bind (hC.function h .function) fun f => hC.pure _
  · exact hC.choice (fun _ => hC.varRest h) h.statement

theorem nextDeclaration (read : Array Stmt) : C (nextDeclaration inner read) := by
  refine hC.bind hC.get fun s => ?_
  refine hC.bind (hC.recovering (hC.declarationRule h)) fun o => hC.bind hC.get fun t => ?_
  by_cases ht : t.position = s.position
  · simp only [if_pos ht]
    exact hC.bind hC.endless fun _ => hC.pure _
  · simp only [if_neg ht]
    exact hC.pure _

theorem declarations {closed : Rule Bool} (hc : C closed) :
    C (Grammar.repeatedly #[] fun read => do
      if ← closed then return none
      return some (← Grammar.nextDeclaration inner read)) := by
  refine hC.repeatedly #[] fun read => hC.bind hc fun b => ?_
  cases b with
  | true => exact hC.pure none
  | false => exact hC.bind (hC.nextDeclaration h read) fun all => hC.pure _

theorem blockRule : C (blockRule inner) :=
  hC.bind (hC.declarations h hC.atClose) fun _ => hC.bind (hC.expect _ _) fun _ => hC.pure _

theorem program : C (program inner) :=
  hC.bind (hC.declarations h hC.atEnd) fun _ => hC.pure _

omit h in
theorem rules (n : Nat) : RulesIn C (rules n) := by
  induction n with
  | zero => exact ⟨hC.refuse _, hC.refuse _, hC.refuse _, hC.refuse _⟩
  | succ n ih =>
      exact ⟨hC.nested _ (hC.assignment ih), hC.nested _ (hC.unary ih),
        hC.nested _ (hC.statementRule ih), hC.nested _ (hC.blockRule ih)⟩

end Closed

end Lox.Grammar
