import Mathlib.Data.List.Forall2
import Lox.Program
import Lox.Proofs.Copy.Tree
import Lox.Proofs.Grammar.Sound

/-!
Reading makes copies. Tokens at other lines, read with other identities, give a copy of the program
and the same faults at the other lines.
-/

namespace Lox.Grammar

variable {α β γ δ : Type}

/-- How a state is copied: what becomes of a line, how many tokens were read in front of the copy,
and which faults were noted there. -/
structure Shift where
  line : Nat → Nat
  passed : Nat
  noted : Array (Fault SyntaxCause)

variable {f : Shift}

/-- A state with the tokens of another one at other lines, and with its faults behind others. -/
structure State.Copy (f : Shift) (s s' : State) : Prop where
  rest : s'.rest = s.rest.map (Token.relined f.line)
  position : s'.position = f.passed + s.position
  endLine : s'.endLine = f.line s.endLine
  depth : s'.depth = s.depth
  faults : s'.faults = f.noted ++ s.faults.map (Fault.relined f.line)

namespace State.Copy

variable {s s' : State}

theorem found (h : s.Copy f s') : s'.found = s.found := by
  rw [State.found, State.found, h.rest]
  cases s.rest <;> rfl

theorem line (h : s.Copy f s') : s'.line = f.line s.line := by
  rw [State.line, State.line, h.rest, h.endLine]
  cases s.rest <;> rfl

theorem drop (h : s.Copy f s') (n : Nat) : (s.drop n).Copy f (s'.drop n) :=
  { h with
    rest := by simp only [State.drop, h.rest, List.map_drop]
    position := (congrArg (· + n) h.position).trans (Nat.add_assoc ..) }

theorem note (h : s.Copy f s') (line : Nat) (cause : SyntaxCause) :
    (s.note line cause).Copy f (s'.note (f.line line) cause) :=
  { h with faults := by simp [State.note, h.faults, Fault.relined] }

end State.Copy

def Halt.relined (f : Nat → Nat) : Halt → Halt
  | .refused e => .refused (e.relined f)
  | .endless => .endless

/-- What two rules come to that were started in a state and its copy. -/
inductive EndsAlike (f : Shift) (Q : α → β → Prop) :
    EStateM.Result Halt State α → EStateM.Result Halt State β → Prop
  | ok {a : α} {b : β} {t t' : State} (hq : Q a b) (ht : t.Copy f t') :
      EndsAlike f Q (.ok a t) (.ok b t')
  | error {e : Halt} {t t' : State} (ht : t.Copy f t') :
      EndsAlike f Q (.error e t) (.error (e.relined f.line) t')

/-- On the copy of a state the second rule does what the first one does on the state. -/
def Rereads (f : Shift) (Q : α → β → Prop) (x : Rule α) (y : Rule β) : Prop :=
  ∀ s s', s.Copy f s' → EndsAlike f Q (x s) (y s')

namespace Rereads

variable {Q : α → β → Prop} {R : γ → δ → Prop} {x : Rule α} {y : Rule β}

theorem pure {a : α} {b : β} (h : Q a b) : Rereads f Q (pure a) (pure b) := fun _ _ hs => .ok h hs

theorem bind {g : α → Rule γ} {g' : β → Rule δ} (h : Rereads f Q x y)
    (hg : ∀ a b, Q a b → Rereads f R (g a) (g' b)) : Rereads f R (x >>= g) (y >>= g') := by
  intro s s' hs
  rw [bind_apply, bind_apply]
  have hx := h s s' hs
  generalize x s = r, y s' = r' at hx ⊢
  cases hx with
  | ok hq ht => exact hg _ _ hq _ _ ht
  | error ht => exact .error ht

/-- Of a rule that comes to the same either way nothing has to be said. -/
theorem skip {x y : Rule α} {g : α → Rule γ} {g' : α → Rule δ} (h : Rereads f Eq x y)
    (hg : ∀ a, Rereads f R (g a) (g' a)) : Rereads f R (x >>= g) (y >>= g') :=
  bind h fun a _ hab => hab ▸ hg a

theorem refuse (cause : Found → SyntaxCause) : Rereads f Q (refuse cause) (refuse cause) := by
  intro s s' hs
  rw [Grammar.refuse, Grammar.refuse, hs.line, hs.found]
  exact .error (e := .refused ⟨s.line, cause s.found⟩) hs

theorem throw (e : Halt) : Rereads f Q (throw e) (throw (e.relined f.line)) :=
  fun _ _ hs => .error hs

/-- Rules that only look at the state. -/
theorem look (g : State → α) (h : ∀ s s' : State, s.Copy f s' → g s' = g s) :
    Rereads f Eq (fun s => .ok (g s) s) (fun s => .ok (g s) s) :=
  fun s s' hs => .ok (h s s' hs).symm hs

theorem get : Rereads f (State.Copy f) get get := fun _ _ hs => .ok hs hs

theorem ahead (k : Kind) : Rereads f Eq (ahead k) (ahead k) := by
  intro s s' hs
  rw [Grammar.ahead, Grammar.ahead, hs.rest]
  cases s.rest with
  | nil => exact .ok rfl hs
  | cons t ts => exact .ok rfl hs

theorem atEnd : Rereads f Eq atEnd atEnd :=
  look _ fun s s' hs => by rw [hs.rest, List.isEmpty_map]

theorem acceptMap {g : Token → Option α} {g' : Token → Option β}
    (h : ∀ t, Option.Rel Q (g t) (g' (t.relined f.line))) :
    Rereads f (Option.Rel Q) (acceptMap g) (acceptMap g') := by
  intro s s' hs
  rw [Grammar.acceptMap, Grammar.acceptMap, hs.rest]
  cases s.rest with
  | nil => exact .ok .none hs
  | cons t ts =>
      have ht := h t
      simp only [List.map_cons]
      generalize g t = o, g' (t.relined f.line) = o' at ht ⊢
      cases ht with
      | none => exact .ok .none hs
      | some hq => exact .ok (.some hq) (hs.drop 1)

/-- A token that was read, and the one at the other line. -/
abbrev Moved (f : Shift) (t t' : Token) : Prop := t' = t.relined f.line

theorem acceptIf (p : Kind → Bool) :
    Rereads f (Option.Rel (Moved f)) (acceptIf p) (acceptIf p) := by
  refine acceptMap (Q := Moved f) fun t => ?_
  rw [Token.kind_relined]
  cases p t.kind with
  | true => exact .some rfl
  | false => exact .none

theorem accept (k : Kind) : Rereads f (Option.Rel (Moved f)) (accept k) (accept k) := acceptIf _

theorem expect (k : Kind) (wanted : Wanted) :
    Rereads f (Moved f) (expect k wanted) (expect k wanted) := by
  refine bind (accept k) fun o o' h => ?_
  cases h with
  | none => exact refuse _
  | some h => exact pure h

theorem freshId : Rereads f (fun _ _ => True) freshId freshId :=
  fun _ _ hs => .ok trivial { hs with }

theorem noteHere (cause : SyntaxCause) : Rereads f Eq (noteHere cause) (noteHere cause) := by
  intro s s' hs
  rw [Grammar.noteHere, Grammar.noteHere, hs.line]
  exact .ok rfl (hs.note s.line cause)

theorem noteAt (line : Nat) (cause : SyntaxCause) :
    Rereads f Eq (noteAt line cause) (noteAt (f.line line) cause) :=
  fun _ _ hs => .ok rfl (hs.note line cause)

theorem nested {what : Nesting} (h : Rereads f Q x y) :
    Rereads f Q (nested what x) (nested what y) := by
  intro s s' hs
  rw [Grammar.nested, Grammar.nested, hs.depth]
  split
  · exact refuse _ s s' hs
  have hx := h { s with depth := s.depth + 1 } { s' with depth := s.depth + 1 }
    { hs with depth := rfl }
  generalize x { s with depth := s.depth + 1 } = r, y { s' with depth := s.depth + 1 } = r' at hx ⊢
  cases hx with
  | ok hq ht => exact .ok hq { ht with depth := congrArg (· - 1) ht.depth }
  | error ht => exact .error { ht with depth := congrArg (· - 1) ht.depth }

theorem repeatedly {step : α → Rule (Option α)} {step' : β → Rule (Option β)}
    (h : ∀ a b, Q a b → Rereads f (Option.Rel Q) (step a) (step' b)) {a : α} {b : β}
    (hab : Q a b) : Rereads f Q (repeatedly a step) (repeatedly b step') := by
  have hgo (bound : List Token) : ∀ a b, Q a b → Rereads f Q
      (repeatedly.go step bound a) (repeatedly.go step' (bound.map (Token.relined f.line)) b) := by
    induction bound with
    | nil => exact fun a b hab => pure hab
    | cons t bound ih =>
        intro a b hab
        refine bind (h a b hab) fun o o' ho => ?_
        cases ho with
        | none => exact pure hab
        | some hab => exact ih _ _ hab
  intro s s' hs
  have hrun := hgo s.rest a b hab s s' hs
  rw [← hs.rest] at hrun
  exact hrun

theorem toBoundary_relined (f : Nat → Nat) (ts : List Token) :
    toBoundary (ts.map (Token.relined f)) = toBoundary ts := by
  induction ts with
  | nil => rfl
  | cons t ts ih => rw [List.map_cons, toBoundary, toBoundary, Token.kind_relined, ih]

theorem recovering (h : Rereads f Q x y) :
    Rereads f (Option.Rel Q) (recovering x) (recovering y) := by
  intro s s' hs
  have hx := h s s' hs
  rw [Grammar.recovering, Grammar.recovering]
  generalize x s = r, y s' = r' at hx ⊢
  cases hx with
  | ok hq ht => exact .ok (.some hq) ht
  | @error e t t' ht =>
      cases e with
      | endless => exact .error (e := .endless) ht
      | refused e =>
          have hnoted : { t with faults := t.faults.push e }.Copy f
              { t' with faults := t'.faults.push (e.relined f.line) } :=
            { ht with faults := by simp [ht.faults] }
          refine .ok .none ?_
          have hn : toBoundary t'.rest = toBoundary t.rest := by rw [ht.rest, toBoundary_relined]
          have hdrop := hnoted.drop (toBoundary t.rest)
          simp only [State.recover, hn]
          exact hdrop

end Rereads

/-! ### Copies entry by entry -/

section

variable {k : Copying}

theorem listCopy_of_forall₂ {es es' : List Expr} (h : List.Forall₂ (Expr.Copy k) es es') :
    Expr.ListCopy k es es' := by
  induction h with
  | nil => exact .nil
  | cons he _ ih => exact .cons he ih

theorem stmtListCopy_of_forall₂ {ss ss' : List Stmt} (h : List.Forall₂ (Stmt.Copy k) ss ss') :
    Stmt.ListCopy k ss ss' := by
  induction h with
  | nil => exact .nil
  | cons hs _ ih => exact .cons hs ih

theorem methodsCopy_of_forall₂ {fs fs' : List Function}
    (h : List.Forall₂ (Stmt.FunctionCopy k) fs fs') : Stmt.MethodsCopy k fs fs' := by
  induction h with
  | nil => exact .nil
  | cons hf _ ih => exact .cons hf ih

theorem map_of_forall₂ {ts ts' : List Token} (h : List.Forall₂ (Rereads.Moved f) ts ts') :
    ts' = ts.map (Token.relined f.line) := by
  induction h with
  | nil => rfl
  | cons ht _ ih => rw [ht, ih, List.map_cons]

end

/-- Arrays that are copies entry by entry. -/
abbrev Entrywise (Q : α → β → Prop) (as : Array α) (bs : Array β) : Prop :=
  List.Forall₂ Q as.toList bs.toList

theorem Entrywise.push {Q : α → β → Prop} {as : Array α} {bs : Array β} {a : α} {b : β}
    (h : Entrywise Q as bs) (hab : Q a b) : Entrywise Q (as.push a) (bs.push b) := by
  rw [Entrywise, Array.toList_push, Array.toList_push]
  exact List.rel_append h (.cons hab .nil)

/-! ### The rules of the grammar -/

/-- Expressions that were read from the same tokens at other lines. -/
abbrev ExprReread (f : Shift) : Expr → Expr → Prop := Expr.Copy (.anyhow f.line)

abbrev StmtReread (f : Shift) : Stmt → Stmt → Prop := Stmt.Copy (.anyhow f.line)

structure RulesReread (f : Shift) (inner : Rules) : Prop where
  expression : Rereads f (ExprReread f) inner.expression inner.expression
  operand : Rereads f (ExprReread f) inner.operand inner.operand
  statement : Rereads f (StmtReread f) inner.statement inner.statement
  block : Rereads f (Stmt.ListCopy (.anyhow f.line)) inner.block inner.block

theorem entry_reread {Q : α → β → Prop} {what : Listed} {item : Rule α} {item' : Rule β}
    (h : Rereads f Q item item') {read : Array α} {read' : Array β} (hr : Entrywise Q read read') :
    Rereads f (Entrywise Q) (entry what item read) (entry what item' read') := by
  have hsize : read'.size = read.size := by
    rw [← Array.length_toList, ← Array.length_toList, hr.length_eq]
  have hpush : Rereads f (Entrywise Q) (do return read.push (← item))
      (do return read'.push (← item')) := .bind h fun a b hab => .pure (hr.push hab)
  rw [entry, entry, hsize]
  split
  · exact .skip (.noteHere _) fun _ => hpush
  · exact hpush

theorem listOf_reread {Q : α → β → Prop} {what : Listed} {item : Rule α} {item' : Rule β}
    (h : Rereads f Q item item') :
    Rereads f (List.Forall₂ Q) (listOf what item) (listOf what item') := by
  have hempty : Entrywise Q #[] #[] := .nil
  refine .bind (entry_reread h hempty) fun first first' hfirst => ?_
  refine .bind (.repeatedly (fun read read' hr => ?_) hfirst) fun all all' hall => .pure hall
  refine .bind (.accept _) fun o o' ho => ?_
  cases ho with
  | none => exact .pure .none
  | some _ => exact .bind (entry_reread h hr) fun all all' hall => .pure (.some hall)

theorem listUpToParen_reread {Q : α → β → Prop} {what : Listed} {item : Rule α} {item' : Rule β}
    {place : Place} (h : Rereads f Q item item') :
    Rereads f (fun out out' => List.Forall₂ Q out.1 out'.1 ∧ Rereads.Moved f out.2 out'.2)
      (listUpToParen what item place) (listUpToParen what item' place) := by
  refine .skip (.ahead _) fun b => ?_
  have hend (entries : List α) (entries' : List β) (hen : List.Forall₂ Q entries entries') :
      Rereads f (fun out out' => List.Forall₂ Q out.1 out'.1 ∧ Rereads.Moved f out.2 out'.2)
        (do let paren ← expectSymbol .rightParen place; return (entries, paren))
        (do let paren ← expectSymbol .rightParen place; return (entries', paren)) :=
    .bind (.expect _ _) fun _ _ hp => .pure ⟨hen, hp⟩
  cases b with
  | true => exact .bind (.pure .nil) hend
  | false => exact .bind (listOf_reread h) hend

section

variable {inner : Rules} (h : RulesReread f inner)

include h

theorem primary_reread : Rereads f (ExprReread f) (primary inner) (primary inner) := by
  refine .bind (.acceptMap (Q := Eq) fun t => ?_) fun o o' ho => ?_
  · rw [Token.kind_relined]
    cases literalOf? t.kind with
    | none => exact .none
    | some l => exact .some rfl
  cases ho with
  | some hl => exact .pure (hl ▸ .literal _)
  | none =>
  refine .bind (.accept _) fun o o' ho => ?_
  cases ho with
  | some hname => exact .bind .freshId fun i j _ => .pure (hname ▸ .read _ trivial)
  | none =>
  refine .bind (.accept _) fun o o' ho => ?_
  cases ho with
  | some _ =>
      exact .bind h.expression fun e e' he => .bind (.expect _ _) fun _ _ _ => .pure (.grouping he)
  | none => exact .refuse _

theorem call_reread : Rereads f (ExprReread f) (call inner) (call inner) := by
  refine .bind (primary_reread h) fun e e' he => .repeatedly (fun callee callee' hc => ?_) he
  refine .bind (.accept _) fun o o' ho => ?_
  cases ho with
  | none => exact .pure .none
  | some _ =>
      refine .bind (listUpToParen_reread h.expression) fun out out' hout => .pure (.some ?_)
      rw [hout.2]
      exact .call out.2 hc (listCopy_of_forall₂ hout.1)

theorem unary_reread : Rereads f (ExprReread f) (unary inner) (unary inner) := by
  refine .bind (.acceptIf _) fun o o' ho => ?_
  cases ho with
  | none => exact call_reread h
  | some hop => exact .bind h.operand fun e e' he => .pure (hop ▸ .unary _ he)

omit h in
theorem chain_reread {p : Kind → Bool} {join : Expr → Token → Expr → Expr} {operand : Rule Expr}
    (ho : Rereads f (ExprReread f) operand operand)
    (hj : ∀ {l l' r r'} op, ExprReread f l l' → ExprReread f r r' →
      ExprReread f (join l op r) (join l' (op.relined f.line) r')) :
    Rereads f (ExprReread f) (chain p join operand) (chain p join operand) := by
  refine .bind ho fun e e' he => .repeatedly (fun left left' hl => ?_) he
  refine .bind (.acceptIf _) fun o o' ho' => ?_
  cases ho' with
  | none => exact .pure .none
  | some hop => exact .bind ho fun r r' hr => .pure (.some (hop ▸ hj _ hl hr))

theorem disjunction_reread :
    Rereads f (ExprReread f) (disjunction inner) (disjunction inner) := by
  have hcomparison : Rereads f (ExprReread f) (comparison inner) (comparison inner) :=
    chain_reread (chain_reread (chain_reread (unary_reread h) .binary) .binary) .binary
  exact chain_reread (chain_reread (chain_reread hcomparison .binary) .logical) .logical

theorem assignment_reread :
    Rereads f (ExprReread f) (assignment inner) (assignment inner) := by
  refine .bind (disjunction_reread h) fun target target' ht => ?_
  refine .bind (.accept _) fun o o' ho => ?_
  cases ho with
  | none => exact .pure ht
  | @some equals equals' heq =>
      refine .bind h.expression fun value value' hv => ?_
      subst heq
      have hkeep : Rereads f (ExprReread f)
          (do noteAt equals.line .invalidTarget; return target)
          (do noteAt (f.line equals.line) .invalidTarget; return target') :=
        .skip (.noteAt _ _) fun _ => .pure ht
      cases ht with
      | read name _ => exact .bind .freshId fun i j _ => .pure (.assign name trivial hv)
      | _ => exact hkeep

/-! ### Statements -/

theorem varRest_reread : Rereads f (StmtReread f) (varRest inner) (varRest inner) := by
  have hend (name : Token) {initial initial' : Option Expr}
      (hi : Option.Rel (ExprReread f) initial initial') : Rereads f (StmtReread f)
        (do let _ ← expectSymbol .semicolon .afterVariable; return .var name initial)
        (do
          let _ ← expectSymbol .semicolon .afterVariable
          return .var (name.relined f.line) initial') := by
    refine .bind (.expect _ _) fun _ _ _ => .pure ?_
    cases hi with
    | none => exact .declared name
    | some he => exact .initialized name he
  refine .bind (.expect _ _) fun name name' hname => .bind (.accept _) fun o o' ho => ?_
  subst hname
  cases ho with
  | none => exact hend name .none
  | some _ => exact .bind h.expression fun _ _ he => hend name (.some he)

theorem expressionStatement_reread :
    Rereads f (StmtReread f) (expressionStatement inner) (expressionStatement inner) :=
  .bind h.expression fun _ _ he => .bind (.expect _ _) fun _ _ _ => .pure (.expression he)

theorem optional_reread (k : Kind) : Rereads f (Option.Rel (ExprReread f))
    (optional (ahead k) inner.expression) (optional (ahead k) inner.expression) := by
  refine .skip (.ahead _) fun b => ?_
  cases b with
  | true => exact .pure .none
  | false => exact .bind h.expression fun e e' he => .pure (.some he)

theorem returnRest_reread (keyword : Token) : Rereads f (StmtReread f)
    (returnRest inner keyword) (returnRest inner (keyword.relined f.line)) := by
  refine .bind (optional_reread h _) fun o o' ho => .bind (.expect _ _) fun _ _ _ => .pure ?_
  cases ho with
  | none => exact .returning keyword
  | some he => exact .returningValue keyword he

theorem ifRest_reread : Rereads f (StmtReread f) (ifRest inner) (ifRest inner) := by
  refine .bind (.expect _ _) fun _ _ _ => .bind h.expression fun c c' hc => ?_
  refine .bind (.expect _ _) fun _ _ _ => .bind h.statement fun yes yes' hy => ?_
  refine .bind (.accept _) fun o o' ho => ?_
  cases ho with
  | none => exact .pure (.conditional hc hy)
  | some _ => exact .bind h.statement fun no no' hn => .pure (.alternative hc hy hn)

theorem whileRest_reread : Rereads f (StmtReread f) (whileRest inner) (whileRest inner) := by
  refine .bind (.expect _ _) fun _ _ _ => .bind h.expression fun c c' hc => ?_
  refine .bind (.expect _ _) fun _ _ _ => .bind h.statement fun body body' hb => ?_
  exact .pure (.whileLoop hc hb)

theorem forInitial_reread :
    Rereads f (Option.Rel (StmtReread f)) (forInitial inner) (forInitial inner) := by
  refine .bind (.accept _) fun o o' ho => ?_
  cases ho with
  | some _ => exact .pure .none
  | none =>
  refine .bind (.accept _) fun o o' ho => ?_
  cases ho with
  | some _ => exact .bind (varRest_reread h) fun s s' hs => .pure (.some hs)
  | none => exact .bind (expressionStatement_reread h) fun s s' hs => .pure (.some hs)

omit h in
theorem forLoop_reread {initial initial' : Option Stmt} {condition condition' : Option Expr}
    {increment increment' : Option Expr} {body body' : Stmt}
    (hs : Option.Rel (StmtReread f) initial initial')
    (hc : Option.Rel (ExprReread f) condition condition')
    (hi : Option.Rel (ExprReread f) increment increment') (hb : StmtReread f body body') :
    StmtReread f (forLoop initial condition increment body)
      (forLoop initial' condition' increment' body') := by
  have hcond : ExprReread f (condition.getD (.literal (.boolean true)))
      (condition'.getD (.literal (.boolean true))) := by
    cases hc with
    | none => exact .literal _
    | some h => exact h
  have hloop : StmtReread f (forLoop none condition increment body)
      (forLoop none condition' increment' body') := by
    cases hi with
    | none => exact .whileLoop hcond hb
    | some hi => exact .whileLoop hcond (.block (.cons hb (.cons (.expression hi) .nil)))
  cases hs with
  | none => exact hloop
  | some hs => exact .block (.cons hs (.cons hloop .nil))

theorem forRest_reread : Rereads f (StmtReread f) (forRest inner) (forRest inner) := by
  refine .bind (.expect _ _) fun _ _ _ => .bind (forInitial_reread h) fun s s' hs => ?_
  refine .bind (optional_reread h _) fun c c' hc => .bind (.expect _ _) fun _ _ _ => ?_
  refine .bind (optional_reread h _) fun i i' hi => .bind (.expect _ _) fun _ _ _ => ?_
  exact .bind h.statement fun body body' hb => .pure (forLoop_reread hs hc hi hb)

theorem printRest_reread : Rereads f (StmtReread f) (printRest inner) (printRest inner) :=
  .bind h.expression fun _ _ he => .bind (.expect _ _) fun _ _ _ => .pure (.print he)

theorem statementRule_reread :
    Rereads f (StmtReread f) (statementRule inner) (statementRule inner) := by
  refine .bind (.accept _) fun o o' ho => ?_
  cases ho with
  | some _ => exact forRest_reread h
  | none =>
  refine .bind (.accept _) fun o o' ho => ?_
  cases ho with
  | some _ => exact ifRest_reread h
  | none =>
  refine .bind (.accept _) fun o o' ho => ?_
  cases ho with
  | some _ => exact whileRest_reread h
  | none =>
  refine .bind (.accept _) fun o o' ho => ?_
  cases ho with
  | some hk => exact hk ▸ returnRest_reread h _
  | none =>
  refine .bind (.accept _) fun o o' ho => ?_
  cases ho with
  | some _ => exact .bind h.block fun body body' hb => .pure (.block hb)
  | none =>
  refine .bind (.accept _) fun o o' ho => ?_
  cases ho with
  | some _ => exact printRest_reread h
  | none => exact expressionStatement_reread h

/-! ### Declarations -/

theorem function_reread (c : Callee) :
    Rereads f (Stmt.FunctionCopy (.anyhow f.line)) (function inner c) (function inner c) := by
  refine .bind (.expect _ _) fun name name' hname => .bind (.expect _ _) fun _ _ _ => ?_
  refine .bind (listUpToParen_reread (.expect _ _)) fun out out' hout => ?_
  refine .bind (.expect _ _) fun _ _ _ => .bind h.block fun body body' hb => .pure ?_
  rw [hname, map_of_forall₂ hout.1]
  exact .intro name out.1 hb

omit h in
theorem atClose_reread : Rereads f Eq atClose atClose := by
  refine .skip (.ahead _) fun b => ?_
  cases b with
  | true => exact .pure rfl
  | false => exact .atEnd

theorem classRest_reread : Rereads f (StmtReread f) (classRest inner) (classRest inner) := by
  refine .bind (.expect _ _) fun name name' hname => .bind (.expect _ _) fun _ _ _ => ?_
  refine .bind (.repeatedly (Q := Entrywise (Stmt.FunctionCopy (.anyhow f.line)))
    (fun read read' hr => ?_) .nil) fun all all' hall => ?_
  · refine .skip atClose_reread fun b => ?_
    cases b with
    | true => exact .pure .none
    | false => exact .bind (function_reread h _) fun g g' hg => .pure (.some (hr.push hg))
  · exact .bind (.expect _ _) fun _ _ _ =>
      .pure (hname ▸ .classDecl name (methodsCopy_of_forall₂ hall))

theorem declarationRule_reread :
    Rereads f (StmtReread f) (declarationRule inner) (declarationRule inner) := by
  refine .bind (.accept _) fun o o' ho => ?_
  cases ho with
  | some _ => exact classRest_reread h
  | none =>
  refine .bind (.accept _) fun o o' ho => ?_
  cases ho with
  | some _ => exact .bind (function_reread h _) fun g g' hg => .pure (.function hg)
  | none =>
  refine .bind (.accept _) fun o o' ho => ?_
  cases ho with
  | some _ => exact varRest_reread h
  | none => exact h.statement

theorem nextDeclaration_reread {read read' : Array Stmt}
    (hr : Entrywise (StmtReread f) read read') :
    Rereads f (Entrywise (StmtReread f)) (nextDeclaration inner read)
      (nextDeclaration inner read') := by
  refine .bind .get fun s s' hs => .bind (declarationRule_reread h).recovering fun o o' ho => ?_
  have hend : Rereads f (Entrywise (StmtReread f)) (pure (o.elim read read.push))
      (pure (o'.elim read' read'.push)) := by
    cases ho with
    | none => exact .pure hr
    | some hs => exact .pure (hr.push hs)
  refine .bind .get fun t t' ht => ?_
  rw [hs.position, ht.position]
  simp only [Nat.add_left_cancel_iff]
  split
  · exact .bind (Q := fun _ _ => True) (.throw .endless) fun _ _ _ => hend
  · exact hend

theorem declarations_reread {closed : Rule Bool} (hc : Rereads f Eq closed closed) :
    Rereads f (Entrywise (StmtReread f))
      (repeatedly #[] fun read => do
        if ← closed then return none
        return some (← nextDeclaration inner read))
      (repeatedly #[] fun read => do
        if ← closed then return none
        return some (← nextDeclaration inner read)) := by
  refine .repeatedly (fun read read' hr => .skip hc fun b => ?_) .nil
  cases b with
  | true => exact .pure .none
  | false => exact .bind (nextDeclaration_reread h hr) fun all all' hall => .pure (.some hall)

theorem blockRule_reread :
    Rereads f (Stmt.ListCopy (.anyhow f.line)) (blockRule inner) (blockRule inner) :=
  .bind (declarations_reread h atClose_reread) fun _ _ hall =>
    .bind (.expect _ _) fun _ _ _ => .pure (stmtListCopy_of_forall₂ hall)

theorem program_reread :
    Rereads f (Stmt.ListCopy (.anyhow f.line)) (program inner) (program inner) :=
  .bind (declarations_reread h .atEnd) fun _ _ hall => .pure (stmtListCopy_of_forall₂ hall)

end

theorem rules_reread (f : Shift) (n : Nat) : RulesReread f (rules n) := by
  induction n with
  | zero => exact ⟨.refuse _, .refuse _, .refuse _, .refuse _⟩
  | succ n ih =>
      exact ⟨.nested (assignment_reread ih), .nested (unary_reread ih),
        .nested (statementRule_reread ih), .nested (blockRule_reread ih)⟩

/-! ### Programs -/

theorem closingLine_relined (f : Nat → Nat) {tokens : List Token} (h : tokens ≠ []) :
    closingLine (tokens.map (Token.relined f)) = f (closingLine tokens) := by
  have hfind : (tokens.map (Token.relined f)).find? (fun t => t.kind = .eof) =
      (tokens.find? fun t => t.kind = .eof).map (Token.relined f) := by
    rw [List.find?_map]
    rfl
  rw [closingLine, closingLine, hfind]
  cases tokens.find? fun t => t.kind = .eof with
  | some t => rfl
  | none =>
      obtain ⟨t, ht⟩ := Option.ne_none_iff_exists'.mp (List.getLast?_eq_none_iff.not.mpr h)
      simp [List.getLast?_map, ht]

theorem start_relined (f : Nat → Nat) {tokens : List Token} (h : tokens ≠ []) (i j : Nat) :
    (State.start tokens i).Copy ⟨f, 0, #[]⟩ (.start (tokens.map (Token.relined f)) j) where
  rest := by
    simp only [State.start, List.takeWhile_map]
    rfl
  position := rfl
  endLine := closingLine_relined f h
  depth := rfl
  faults := by simp [State.start]

end Lox.Grammar

namespace Lox

open Grammar

/-- A program that was read from the same tokens at other lines. -/
structure Program.Copy (f : Nat → Nat) (p p' : Program) : Prop where
  statements : Stmt.ListCopy (.anyhow f) p.statements p'.statements
  faults : p'.faults = p.faults.map (Fault.relined f)

/-- Lines and identities decide nothing when tokens are read. -/
theorem Program.ofTokens?_relined (f : Nat → Nat) {tokens : List Token} (h : tokens ≠ [])
    (i j : Nat) : Option.Rel (Program.Copy f) (Program.ofTokens? tokens i)
      (Program.ofTokens? (tokens.map (Token.relined f)) j) := by
  have hrun := program_reread (rules_reread ⟨f, 0, #[]⟩ maxDepth) _ _ (start_relined f h i j)
  rw [Program.ofTokens?, Program.ofTokens?]
  generalize program (rules maxDepth) (.start tokens i) = r,
    program (rules maxDepth) (.start (tokens.map (Token.relined f)) j) = r' at hrun ⊢
  cases hrun with
  | ok hq ht => exact .some ⟨hq, by simp [ht.faults]⟩
  | error _ => exact .none

end Lox
