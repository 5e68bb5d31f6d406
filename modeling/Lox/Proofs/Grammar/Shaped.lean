import Lox.Proofs.Grammar.Calls
import Lox.Proofs.Grammar.Soundness
import Lox.Proofs.Tree.Shape

/-!
Everything that the rules give is well formed, whether or not faults are noted on the way. What a
refused rule had read so far is dropped, and what is kept was given by a rule.
-/

namespace Lox.Grammar

variable {α β : Type} {P : α → Prop} {Q : β → Prop}

/-- Whatever the rule gives is as `P` says. -/
def Yields (P : α → Prop) (r : Rule α) : Prop := ∀ ⦃s t a⦄, r s = .ok a t → P a

namespace Yields

theorem any (r : Rule α) : Yields (fun _ => True) r := fun _ _ _ _ => trivial

theorem pure {a : α} (h : P a) : Yields P (pure a) := fun _ _ _ hr => by cases hr; exact h

/-- Nothing is made. -/
theorem nothing : Yields (fun o => ∀ a ∈ o, P a) (Pure.pure none) :=
  pure fun _ h => by cases h

theorem refuse (cause : Found → SyntaxCause) : Yields P (refuse cause) :=
  fun _ _ _ hr => by cases hr

theorem mono {P' : α → Prop} {r : Rule α} (h : Yields P r) (hP : ∀ a, P a → P' a) : Yields P' r :=
  fun _ _ _ hr => hP _ (h hr)

theorem bind {x : Rule α} {f : α → Rule β} (hx : Yields P x) (hf : ∀ a, P a → Yields Q (f a)) :
    Yields Q (x >>= f) := by
  intro s u b hr
  obtain ⟨a, t, ha, hb⟩ := bind_eq_ok hr
  exact hf a (hx ha) hb

/-- What comes first is not looked at. -/
theorem skip {x : Rule α} {f : α → Rule β} (hf : ∀ a, Yields Q (f a)) : Yields Q (x >>= f) :=
  bind (any x) fun a _ => hf a

theorem acceptMap (f : Token → Option α) :
    Yields (fun o => ∀ a ∈ o, ∃ t, f t = some a) (acceptMap f) := by
  intro s t o hr a ha
  cases ha
  rw [Grammar.acceptMap] at hr
  split at hr
  · next x xs hs =>
    split at hr
    · next b hb => cases hr; exact ⟨x, hb⟩
    · cases hr
  · cases hr

theorem acceptIf (p : Kind → Bool) :
    Yields (fun o => ∀ t ∈ o, p t.kind = true) (acceptIf p) := by
  refine (acceptMap _).mono fun o h t ht => ?_
  obtain ⟨x, hx⟩ := h t ht
  split at hx
  · next hp => cases hx; exact hp
  · cases hx

/-- Where a token may come, the rule goes on in one way or the other. -/
theorem choice {p : Kind → Bool} {f : Option Token → Rule β}
    (hs : ∀ t, p t.kind = true → Yields Q (f (some t))) (hn : Yields Q (f none)) :
    Yields Q (Grammar.acceptIf p >>= f) := by
  refine bind (acceptIf p) fun o ho => ?_
  cases o with
  | none => exact hn
  | some t => exact hs t (ho t rfl)

theorem expect (k : Kind) (wanted : Wanted) : Yields (fun t => t.kind = k) (expect k wanted) :=
  choice (p := (· = k)) (fun _ ht => pure (of_decide_eq_true ht)) (refuse _)

theorem repeatedly {a : α} {step : α → Rule (Option α)} (ha : P a)
    (h : ∀ a, P a → Yields (fun o => ∀ b ∈ o, P b) (step a)) : Yields P (repeatedly a step) := by
  have hgo (bound : List Token) : ∀ a, P a → Yields P (Grammar.repeatedly.go step bound a) := by
    induction bound with
    | nil => exact fun a ha => pure ha
    | cons t bound ih =>
        refine fun a ha => bind (h a ha) fun o ho => ?_
        cases o with
        | none => exact pure ha
        | some b => exact ih b (ho b rfl)
  exact skip fun s => hgo s.rest a ha

theorem nested {x : Rule α} (what : Nesting) (hx : Yields P x) : Yields P (nested what x) := by
  intro s t a hr
  obtain ⟨u, hu, -⟩ := nested_eq_ok hr
  exact hx hu

theorem recovering {x : Rule α} (hx : Yields P x) :
    Yields (fun o => ∀ a ∈ o, P a) (recovering x) := by
  intro s t o hr a ha
  rw [Grammar.recovering] at hr
  split at hr
  · next b u hb =>
    cases hr
    cases ha
    exact hx hb
  · cases hr
    cases ha
  · cases hr

end Yields

/-! ### Lists -/

theorem Yields.listUpToParen {what : Listed} {item : Rule α} {place : Place} (h : Yields P item) :
    Yields (fun r => ∀ a ∈ r.1, P a) (listUpToParen what item place) := by
  have hentry (read : Array α) (hread : ∀ a ∈ read, P a) :
      Yields (fun all => ∀ a ∈ all, P a) (entry what item read) := by
    have hpush : Yields (fun all => ∀ a ∈ all, P a) (do return read.push (← item)) :=
      .bind h fun a ha => .pure fun b hb => (Array.mem_push.mp hb).elim (hread b) fun hb => hb ▸ ha
    rw [entry]
    split
    · exact .skip fun _ => hpush
    · exact hpush
  have hend (entries : List α) (he : ∀ a ∈ entries, P a) : Yields (fun r => ∀ a ∈ r.1, P a) (do
      let paren ← expectSymbol .rightParen place
      return (entries, paren)) := .skip fun paren => .pure he
  have hlist : Yields (fun all => ∀ a ∈ all, P a) (listOf what item) := by
    refine .bind (hentry #[] (by simp)) fun first hfirst => ?_
    refine .bind (.repeatedly (P := fun all => ∀ a ∈ all, P a) hfirst fun read hread => ?_)
      fun all hall => .pure ?_
    · refine .choice (p := (· = .symbol .comma)) (fun _ _ => ?_) (.nothing)
      refine .bind (hentry read hread) fun all hall => .pure ?_
      rintro _ ⟨⟩
      exact hall
    · exact fun a ha => hall a (Array.mem_toList_iff.mp ha)
  refine .skip fun b => ?_
  cases b with
  | true => exact .bind (.pure (P := fun es => ∀ a ∈ es, P a) (by simp)) hend
  | false => exact .bind hlist hend

theorem Yields.optional {missing : Rule Bool} {item : Rule α} (h : Yields P item) :
    Yields (fun o => ∀ a ∈ o, P a) (optional missing item) := by
  refine .skip fun b => ?_
  cases b with
  | true => exact .nothing
  | false =>
      refine .bind h fun a ha => .pure ?_
      rintro _ ⟨⟩
      exact ha

/-- What a statement is that is no declaration. -/
def FormedStatement (s : Stmt) : Prop := s.Formed ∧ s.isDeclaration = false

theorem shaped_withIncrement {body : Stmt} {increment : Option Expr} (hb : body.Shaped)
    (hi : ∀ e ∈ increment, e.Shaped) : (withIncrement body increment).Shaped := by
  cases increment with
  | none => exact hb
  | some e => exact ⟨hb, hi e rfl, trivial⟩

theorem shaped_withInitial {loop : Stmt} {initial : Option Stmt} (hl : loop.Shaped)
    (hi : ∀ s ∈ initial, s.Shaped) : (withInitial loop initial).Shaped := by
  cases initial with
  | none => exact hl
  | some s => exact ⟨hi s rfl, hl, trivial⟩

theorem formed_forLoop {initial : Option Stmt} {condition increment : Option Expr} {body : Stmt}
    (hi : ∀ s ∈ initial, s.Formed) (hc : ∀ e ∈ condition, e.Shaped)
    (hn : ∀ e ∈ increment, e.Shaped) (hb : FormedStatement body) :
    FormedStatement (forLoop initial condition increment body) := by
  have hcondition : (condition.getD (.literal (.boolean true))).Shaped := by
    cases condition with
    | none => trivial
    | some e => exact hc e rfl
  have hplaced := placed_withInitial (c := condition.getD (.literal (.boolean true)))
    (fun s hs => (hi s hs).1) (placed_withIncrement increment ⟨hb.1.1, hb.2⟩)
  have hloop : (Stmt.whileLoop (condition.getD (.literal (.boolean true)))
      (withIncrement body increment)).Shaped := ⟨hcondition, shaped_withIncrement hb.1.2 hn⟩
  have hshaped := shaped_withInitial hloop fun s hs => (hi s hs).2
  rw [forLoop_eq]
  exact ⟨⟨hplaced.1, hshaped⟩, hplaced.2⟩

/-- The rules one level further in give what is well formed. -/
structure RulesYield (inner : Rules) : Prop where
  expression : Yields Expr.Shaped inner.expression
  operand : Yields Expr.Shaped inner.operand
  statement : Yields FormedStatement inner.statement
  block : Yields (fun body => ∀ s ∈ body, Stmt.Formed s) inner.block

namespace RulesYield

variable {inner : Rules} (h : RulesYield inner)

include h

/-! ### Expressions -/

theorem primary : Yields Expr.Shaped (primary inner) := by
  refine .skip fun o => ?_
  cases o with
  | some l => exact .pure trivial
  | none =>
  refine .choice (p := (· = .identifier)) (fun name hn => .skip fun id => ?_) ?_
  · exact .pure (show name.kind = .identifier from of_decide_eq_true hn)
  refine .choice (p := (· = .symbol .leftParen)) (fun _ _ => ?_) (.refuse _)
  exact .bind h.expression fun e he => .skip fun _ => .pure he

theorem call : Yields Expr.Shaped (call inner) := by
  refine .bind h.primary fun e he => .repeatedly he fun callee hcallee => ?_
  refine .choice (p := (· = .symbol .leftParen)) (fun _ _ => ?_) (.nothing)
  refine .bind (.listUpToParen h.expression) fun r hr => .pure ?_
  rintro _ ⟨⟩
  exact ⟨hcallee, Expr.listShaped_iff.mpr hr⟩

theorem unary : Yields Expr.Shaped (unary inner) := by
  refine .choice (p := isUnary) (fun op hop => ?_) h.call
  refine .bind h.operand fun e he => .pure ⟨?_, he⟩
  simpa [isUnary, unaryOperators] using hop

omit h in
theorem chain {p : Kind → Bool} {join : Expr → Token → Expr → Expr} {operand : Rule Expr}
    (ho : Yields Expr.Shaped operand)
    (hj : ∀ l op r, p op.kind = true → l.Shaped → r.Shaped → (join l op r).Shaped) :
    Yields Expr.Shaped (chain p join operand) := by
  refine .bind ho fun e he => .repeatedly he fun left hleft => ?_
  refine .choice (p := p) (fun op hop => ?_) (.nothing)
  refine .bind ho fun r hr => .pure ?_
  rintro _ ⟨⟩
  exact hj left op r hop hleft hr

omit h in
theorem binaryChain {p : Kind → Bool} {operand : Rule Expr} (ho : Yields Expr.Shaped operand)
    (hp : ∀ k, p k = true → k ∈ binaryOperators) :
    Yields Expr.Shaped (Grammar.chain p .binary operand) :=
  chain ho fun _ _ _ hop hl hr => ⟨hp _ hop, hl, hr⟩

omit h in
theorem logicalChain {k : Kind} {operand : Rule Expr} (ho : Yields Expr.Shaped operand)
    (hk : k ∈ logicalOperators) : Yields Expr.Shaped (Grammar.chain (· = k) .logical operand) :=
  chain ho fun _ _ _ hop hl hr => ⟨of_decide_eq_true hop ▸ hk, hl, hr⟩

theorem disjunction : Yields Expr.Shaped (disjunction inner) := by
  have hfactor : Yields Expr.Shaped (factor inner) :=
    binaryChain h.unary (by simp [isFactor, binaryOperators])
  have hterm : Yields Expr.Shaped (term inner) :=
    binaryChain hfactor (by simp [isTerm, binaryOperators])
  have hcomparison : Yields Expr.Shaped (comparison inner) :=
    binaryChain hterm (by simp +contextual [isComparison, binaryOperators, or_imp])
  have hequality : Yields Expr.Shaped (equality inner) :=
    binaryChain hcomparison (by simp [isEquality, binaryOperators])
  exact logicalChain (logicalChain hequality (by decide)) (by decide)

theorem assignment : Yields Expr.Shaped (assignment inner) := by
  refine .bind h.disjunction fun target htarget => ?_
  refine .choice (p := (· = .symbol .equal)) (fun equals _ => ?_) (.pure htarget)
  refine .bind h.expression fun value hvalue => ?_
  cases target with
  | read id name => exact .skip fun id => .pure ⟨htarget, hvalue⟩
  -- what is no name is left as it is, without the right side
  | _ => exact .skip fun _ => .pure htarget

/-! ### Statements -/

theorem varRest : Yields Stmt.Formed (varRest inner) := by
  refine .bind (.expect .identifier _) fun name hname => ?_
  have hend (initial : Option Expr) (hi : ∀ e ∈ initial, e.Shaped) : Yields Stmt.Formed (do
      let _ ← expectSymbol .semicolon .afterVariable
      return Stmt.var name initial) := by
    refine .skip fun _ => .pure ⟨trivial, ?_⟩
    cases initial with
    | none => exact hname
    | some e => exact ⟨hname, hi e rfl⟩
  refine .choice (p := (· = .symbol .equal)) (fun _ _ => .bind h.expression fun e he => ?_) ?_
  · exact hend (some e) fun _ he' => by cases he'; exact he
  · exact hend none nofun

theorem expressionStatement : Yields FormedStatement (expressionStatement inner) :=
  .bind h.expression fun _ he => .skip fun _ => .pure ⟨⟨trivial, he⟩, rfl⟩

theorem printRest : Yields FormedStatement (printRest inner) :=
  .bind h.expression fun _ he => .skip fun _ => .pure ⟨⟨trivial, he⟩, rfl⟩

theorem returnRest (kw : Token) : Yields FormedStatement (returnRest inner kw) := by
  refine .bind (.optional h.expression) fun value hv => .skip fun _ => .pure ⟨⟨trivial, ?_⟩, rfl⟩
  cases value with
  | none => trivial
  | some e => exact hv e rfl

theorem ifRest : Yields FormedStatement (ifRest inner) := by
  refine .skip fun _ => .bind h.expression fun c hc => .skip fun _ => ?_
  refine .bind h.statement fun yes hyes => ?_
  refine .choice (p := (· = .keyword .kwElse)) (fun _ _ => ?_) ?_
  · refine .bind h.statement fun no hno => .pure ?_
    exact ⟨⟨⟨⟨hyes.1.1, hyes.2⟩, hno.1.1, hno.2⟩, hc, hyes.1.2, hno.1.2⟩, rfl⟩
  · exact .pure ⟨⟨⟨hyes.1.1, hyes.2⟩, hc, hyes.1.2⟩, rfl⟩

theorem whileRest : Yields FormedStatement (whileRest inner) := by
  refine .skip fun _ => .bind h.expression fun c hc => .skip fun _ => ?_
  exact .bind h.statement fun body hb => .pure ⟨⟨⟨hb.1.1, hb.2⟩, hc, hb.1.2⟩, rfl⟩

theorem forInitial : Yields (fun o => ∀ s ∈ o, Stmt.Formed s) (forInitial inner) := by
  refine .choice (p := (· = .symbol .semicolon)) (fun _ _ => .nothing) ?_
  refine .choice (p := (· = .keyword .kwVar)) (fun _ _ => ?_) ?_
  · refine .bind h.varRest fun s hs => .pure ?_
    rintro _ ⟨⟩
    exact hs
  · refine .bind h.expressionStatement fun s hs => .pure ?_
    rintro _ ⟨⟩
    exact hs.1

theorem forRest : Yields FormedStatement (forRest inner) := by
  refine .skip fun _ => .bind h.forInitial fun initial hi => ?_
  refine .bind (.optional h.expression) fun condition hc => .skip fun _ => ?_
  refine .bind (.optional h.expression) fun increment hn => .skip fun _ => ?_
  exact .bind h.statement fun body hb => .pure (formed_forLoop hi hc hn hb)

theorem statementRule : Yields FormedStatement (statementRule inner) := by
  refine .choice (p := (· = .keyword .kwFor)) (fun _ _ => h.forRest) ?_
  refine .choice (p := (· = .keyword .kwIf)) (fun _ _ => h.ifRest) ?_
  refine .choice (p := (· = .keyword .kwWhile)) (fun _ _ => h.whileRest) ?_
  refine .choice (p := (· = .keyword .kwReturn)) (fun kw _ => h.returnRest kw) ?_
  refine .choice (p := (· = .symbol .leftBrace)) (fun _ _ => ?_) ?_
  · exact .bind h.block fun body hb => .pure ⟨Stmt.formed_block hb, rfl⟩
  · exact .choice (p := (· = .keyword .kwPrint)) (fun _ _ => h.printRest) h.expressionStatement

/-! ### Declarations -/

theorem function (c : Callee) : Yields Stmt.FunctionFormed (function inner c) := by
  refine .bind (.expect .identifier _) fun name hname => .skip fun _ => ?_
  refine .bind (.listUpToParen (.expect .identifier _)) fun params hparams => .skip fun _ => ?_
  exact .bind h.block fun body hb => .pure (Stmt.functionFormed hname hparams hb)

theorem classRest : Yields Stmt.Formed (classRest inner) := by
  refine .bind (.expect .identifier _) fun name hname => .skip fun _ => ?_
  have hmethods (read : Array Function) (hread : ∀ f ∈ read, Stmt.FunctionFormed f) :
      Yields (fun o => ∀ all ∈ o, ∀ f ∈ all, Stmt.FunctionFormed f) (do
        if ← atClose then return none
        return some (read.push (← Grammar.function inner .method))) := by
    refine .skip fun b => ?_
    cases b with
    | true => exact .nothing
    | false =>
        refine .bind (h.function .method) fun f hf => .pure ?_
        rintro _ ⟨⟩ g hg
        exact (Array.mem_push.mp hg).elim (hread g) fun hg => hg ▸ hf
  refine .bind (.repeatedly (P := fun all => ∀ f ∈ all, Stmt.FunctionFormed f) (by simp) hmethods)
    fun methods hall => .skip fun _ => .pure ?_
  exact Stmt.formed_classDecl hname fun f hf => hall f (Array.mem_toList_iff.mp hf)

theorem declarationRule : Yields Stmt.Formed (declarationRule inner) := by
  refine .choice (p := (· = .keyword .kwClass)) (fun _ _ => h.classRest) ?_
  refine .choice (p := (· = .keyword .kwFun)) (fun _ _ => ?_) ?_
  · exact .bind (h.function .function) fun f hf => .pure hf
  refine .choice (p := (· = .keyword .kwVar)) (fun _ _ => h.varRest) ?_
  exact h.statement.mono fun s hs => hs.1

theorem nextDeclaration {read : Array Stmt} (hread : ∀ s ∈ read, s.Formed) :
    Yields (fun all => ∀ s ∈ all, Stmt.Formed s) (nextDeclaration inner read) := by
  refine .skip fun s => .bind (.recovering h.declarationRule) fun o ho => .skip fun t => ?_
  -- nothing of a declaration that was refused is kept
  have hall : ∀ s ∈ o.elim read read.push, s.Formed := by
    cases o with
    | none => exact hread
    | some s => exact fun g hg => (Array.mem_push.mp hg).elim (hread g) fun hg => hg ▸ ho s rfl
  by_cases ht : t.position = s.position
  · simp only [if_pos ht]
    exact .skip fun _ => .pure hall
  · simp only [if_neg ht]
    exact .pure hall

theorem declarations (closed : Rule Bool) :
    Yields (fun all => ∀ s ∈ all, Stmt.Formed s) (Grammar.repeatedly #[] fun read => do
      if ← closed then return none
      return some (← Grammar.nextDeclaration inner read)) := by
  refine .repeatedly (by simp) fun read hread => .skip fun b => ?_
  cases b with
  | true => exact .nothing
  | false =>
      refine .bind (h.nextDeclaration hread) fun all hall => .pure ?_
      rintro _ ⟨⟩
      exact hall

theorem blockRule : Yields (fun body => ∀ s ∈ body, Stmt.Formed s) (blockRule inner) :=
  .bind (h.declarations _) fun _ hall => .skip fun _ =>
    .pure fun s hs => hall s (Array.mem_toList_iff.mp hs)

theorem program : Yields (fun body => ∀ s ∈ body, Stmt.Formed s) (program inner) :=
  .bind (h.declarations _) fun _ hall => .pure fun s hs => hall s (Array.mem_toList_iff.mp hs)

end RulesYield

theorem rulesYield (n : Nat) : RulesYield (rules n) := by
  induction n with
  | zero => exact ⟨.refuse _, .refuse _, .refuse _, .refuse _⟩
  | succ n ih =>
      exact ⟨.nested _ ih.assignment, .nested _ ih.unary, .nested _ ih.statementRule,
        .nested _ ih.blockRule⟩

/-- All statements of a program are well formed, whatever faults it has. -/
theorem formed_of_ofTokens? {tokens : List Token} {firstId : Nat} {p : Program}
    (hp : Program.ofTokens? tokens firstId = some p) : ∀ s ∈ p.statements, s.Formed := by
  rw [Program.ofTokens?] at hp
  split at hp
  · next body s hr =>
    cases hp
    exact (rulesYield maxDepth).program hr
  · cases hp

end Lox.Grammar
