import Lox.Proofs.Grammar.Soundness
import Lox.Proofs.Tree.Identity

/-!
No identity is given twice: the occurrences in what a rule reads bear identities that were next
while it read, each its own. This holds whether or not faults are noted.
-/

namespace Lox.Grammar

variable {α β : Type} {lo mid hi : Nat} {us vs : List Nat}

/-- Identities given from `lo` up to `hi`, none of them twice. -/
def Fresh (lo hi : Nat) (ids : List Nat) : Prop :=
  ∀ i, ids.count i ≤ if lo ≤ i ∧ i < hi then 1 else 0

namespace Fresh

theorem nil : Fresh lo hi [] := fun _ => Nat.zero_le _

theorem sub (h : Fresh lo hi us) (hs : ∀ i, vs.count i ≤ us.count i) : Fresh lo hi vs :=
  fun i => Nat.le_trans (hs i) (h i)

theorem append (hu : Fresh lo mid us) (hv : Fresh mid hi vs) (hl : lo ≤ mid) (hm : mid ≤ hi) :
    Fresh lo hi (us ++ vs) := by
  intro i
  have hu := hu i
  have hv := hv i
  rw [List.count_append]
  split at hu <;> split at hv <;> split <;> omega

theorem bounds {i : Nat} (h : Fresh lo hi us) (hi' : i ∈ us) : lo ≤ i ∧ i < hi := by
  have hpos := List.count_pos_iff.mpr hi'
  have := h i
  split at this
  · assumption
  · omega

theorem nodup (h : Fresh lo hi us) : us.Nodup := by
  refine List.nodup_iff_count.mpr fun i => Nat.le_trans (h i) ?_
  split <;> omega

end Fresh

/-- With the identities `us` given out already, what the rule makes bears those of `v`, and the rule
gives none of them twice. -/
structure Draws (us : List Nat) (v : α → List Nat) (r : Rule α) : Prop where
  grows : ∀ s : State, s.nextId ≤ (s.behind r).nextId
  fresh : ∀ {lo s a t}, r s = .ok a t → lo ≤ s.nextId → Fresh lo s.nextId us →
    Fresh lo t.nextId (v a)

/-- A rule that gives no identity. -/
def Blank (r : Rule α) : Prop := ∀ s : State, (s.behind r).nextId = s.nextId

namespace Draws

variable {v : α → List Nat} {w : β → List Nat}

theorem pure {a : α} (h : ∀ i, (v a).count i ≤ us.count i) : Draws us v (pure a) := by
  refine ⟨fun s => Nat.le_refl _, fun hr _ hf => ?_⟩
  cases hr
  exact hf.sub h

/-- The second of two rules goes on from all that the first has given. -/
theorem trans {x : Rule α} {f : α → Rule β} (hx : Draws us v x) (hf : ∀ a, Draws (v a) w (f a)) :
    Draws us w (x >>= f) := by
  constructor
  · intro s
    have hs := hx.grows s
    simp only [State.behind, bind_apply] at hs ⊢
    cases hr : x s with
    | error e t => simpa [hr] using hs
    | ok a t =>
        have ht := (hf a).grows t
        simp only [State.behind] at ht
        simp only [hr] at hs ⊢
        exact Nat.le_trans hs ht
  · intro lo s b u hr hlo hu
    obtain ⟨a, t, hs, hr⟩ := bind_eq_ok hr
    have hgrows := hx.grows s
    simp only [State.behind, hs] at hgrows
    exact (hf a).fresh hr (Nat.le_trans hlo hgrows) (hx.fresh hs hlo hu)

/-- What a rule gives stands apart from all that was given before. -/
theorem frame {r : Rule α} (h : Draws [] v r) (us : List Nat) :
    Draws us (fun a => us ++ v a) r := by
  refine ⟨h.grows, fun {lo s a t} hr hlo hu => ?_⟩
  have hgrows := h.grows s
  simp only [State.behind, hr] at hgrows
  exact hu.append (h.fresh hr (Nat.le_refl _) Fresh.nil) hlo hgrows

theorem bind {x : Rule α} {f : α → Rule β} (hx : Draws [] v x)
    (hf : ∀ a, Draws (us ++ v a) w (f a)) : Draws us w (x >>= f) :=
  trans (hx.frame us) hf

theorem skip {x : Rule α} {f : α → Rule β} (hx : Blank x) (hf : ∀ a, Draws us w (f a)) :
    Draws us w (x >>= f) := by
  apply bind (v := fun _ => []) ⟨fun s => Nat.le_of_eq (hx s).symm, fun _ _ _ => Fresh.nil⟩
  intro a
  rw [List.append_nil]
  exact hf a

theorem freshId {f : Nat → Rule β} (h : ∀ i, Draws (us ++ [i]) w (f i)) :
    Draws us w (freshId >>= f) := by
  refine bind (v := fun i => [i]) ⟨fun s => Nat.le_succ _, fun hr _ _ => ?_⟩ h
  cases hr
  intro i
  rw [List.count_singleton]
  simp only
  split <;> simp_all

theorem nested {what : Nesting} {r : Rule α} (h : Draws [] v r) : Draws [] v (nested what r) := by
  constructor
  · intro s
    have hs := h.grows { s with depth := s.depth + 1 }
    simp only [State.behind, Grammar.nested] at hs ⊢
    by_cases hd : maxDepth ≤ s.depth
    · simp [if_pos hd, Grammar.refuse]
    · rw [if_neg hd]
      cases hr : r { s with depth := s.depth + 1 } <;> rw [hr] at hs <;> exact hs
  · intro lo s a t hr hlo hf
    simp only [Grammar.nested] at hr
    split at hr
    · cases hr
    · cases hs : r { s with depth := s.depth + 1 } with
      | error e u => rw [hs] at hr; cases hr
      | ok b u =>
          rw [hs] at hr
          cases hr
          have hu : Fresh lo u.nextId (v a) := h.fresh hs hlo hf
          exact hu

theorem recovering {r : Rule α} (h : Draws [] v r) :
    Draws [] (fun o => o.elim [] v) (recovering r) := by
  constructor
  · intro s
    have hs := h.grows s
    simp only [State.behind, Grammar.recovering] at hs ⊢
    cases hr : r s with
    | ok a t => simpa [hr] using hs
    | error e t => cases e <;> simpa [hr, State.recover, State.drop] using hs
  · intro lo s o t hr hlo hf
    simp only [Grammar.recovering] at hr
    cases hs : r s with
    | ok a u =>
        rw [hs] at hr
        cases hr
        exact h.fresh hs hlo hf
    | error e u =>
        rw [hs] at hr
        cases e <;> cases hr
        exact Fresh.nil

theorem repeatedly {a : α} {step : α → Rule (Option α)}
    (h : ∀ a, Draws (v a) (fun o => v (o.getD a)) (step a)) :
    Draws (v a) v (repeatedly a step) := by
  have hgo (bound : List Token) : ∀ a, Draws (v a) v (Grammar.repeatedly.go step bound a) := by
    induction bound with
    | nil => exact fun a => pure fun _ => Nat.le_refl _
    | cons t bound ih =>
        intro a
        refine ⟨fun s => ?_, fun {lo s b u} hr hlo hf => ?_⟩
        · have hs := (h a).grows s
          simp only [State.behind, Grammar.repeatedly.go, bind_apply] at hs ⊢
          cases hr : step a s with
          | error e t => simpa [hr] using hs
          | ok o t =>
              simp only [hr] at hs ⊢
              cases o with
              | none => exact hs
              | some b => exact Nat.le_trans hs ((ih b).grows t)
        · obtain ⟨o, t, hq, hr⟩ := bind_eq_ok hr
          have hs := (h a).grows s
          simp only [State.behind, hq] at hs
          have ht := (h a).fresh hq hlo hf
          cases o with
          | none => cases hr; exact ht
          | some b => exact (ih b).fresh hr (Nat.le_trans hlo hs) ht
  exact ⟨fun s => (hgo s.rest a).grows s, fun {_ s _ _} hr => (hgo s.rest a).fresh hr⟩

end Draws

/-! ### Rules that give no identity -/

namespace Blank

theorem bind {x : Rule α} {f : α → Rule β} (hx : Blank x) (hf : ∀ a, Blank (f a)) :
    Blank (x >>= f) := by
  intro s
  have hs := hx s
  simp only [State.behind, bind_apply] at hs ⊢
  cases hr : x s with
  | error e t => simpa [hr] using hs
  | ok a t =>
      have ht := hf a t
      simp only [State.behind] at ht
      simp only [hr] at hs ⊢
      exact ht.trans hs

theorem pure (a : α) : Blank (pure a) := fun _ => rfl

theorem refuse (cause : Found → SyntaxCause) : Blank (refuse cause : Rule α) := fun _ => rfl

theorem get : Blank get := fun _ => rfl

theorem throw (e : Halt) : Blank (throw e : Rule α) := fun _ => rfl

theorem note (f : State → Nat) (cause : SyntaxCause) :
    Blank (fun s => .ok () (s.note (f s) cause)) := fun _ => rfl

theorem acceptMap (f : Token → Option α) : Blank (acceptMap f) := by
  intro s
  simp only [State.behind, Grammar.acceptMap]
  cases s.rest with
  | nil => rfl
  | cons t ts => cases h : f t <;> simp [State.drop, h]

theorem accept (k : Kind) : Blank (accept k) := acceptMap _

theorem expect (k : Kind) (wanted : Wanted) : Blank (expect k wanted) := by
  refine bind (accept k) fun o => ?_
  cases o with
  | none => exact refuse _
  | some t => exact pure t

theorem ahead (k : Kind) : Blank (ahead k) := by
  intro s
  simp only [State.behind, Grammar.ahead]
  cases s.rest <;> rfl

theorem atEnd : Blank atEnd := fun _ => rfl

theorem atClose : Blank atClose := by
  refine bind (ahead _) fun b => ?_
  cases b with
  | true => exact pure _
  | false => exact atEnd

end Blank

theorem Draws.of_blank {us : List Nat} {r : Rule α} (h : Blank r) : Draws us (fun _ => us) r :=
  ⟨fun s => Nat.le_of_eq (h s).symm, fun {_ s _ _} hr _ hf => by
    have hs := h s
    simp only [State.behind, hr] at hs
    exact hs ▸ hf⟩

theorem Draws.refuse {us : List Nat} {v : α → List Nat} (cause : Found → SyntaxCause) :
    Draws us v (refuse cause) :=
  ⟨fun _ => Nat.le_refl _, fun hr => by cases hr⟩

/-! ### The rules of the grammar -/

structure RulesDraw (inner : Rules) : Prop where
  expression : Draws [] Expr.ids inner.expression
  operand : Draws [] Expr.ids inner.operand
  statement : Draws [] Stmt.ids inner.statement
  block : Draws [] Stmt.listIds inner.block

theorem entry_draws {w : α → List Nat} {what : Listed} {item : Rule α} (h : Draws [] w item)
    (read : Array α) :
    Draws (read.toList.flatMap w) (fun all => all.toList.flatMap w) (entry what item read) := by
  have hpush : Draws (read.toList.flatMap w) (fun all => all.toList.flatMap w)
      (do return read.push (← item)) :=
    Draws.bind h fun a => Draws.pure fun i => by simp
  rw [entry]
  split
  · exact Draws.skip (Blank.note _ _) fun _ => hpush
  · exact hpush

theorem listOf_draws {w : α → List Nat} {what : Listed} {item : Rule α} (h : Draws [] w item) :
    Draws [] (List.flatMap w) (listOf what item) := by
  refine Draws.trans (entry_draws h #[]) fun first => ?_
  refine Draws.trans (Draws.repeatedly (v := fun all : Array α => all.toList.flatMap w)
    fun read => ?_) fun all => Draws.pure fun _ => Nat.le_refl _
  refine Draws.skip (Blank.accept _) fun o => ?_
  cases o with
  | none => exact Draws.pure fun _ => Nat.le_refl _
  | some _ => exact Draws.trans (entry_draws h read) fun all => Draws.pure fun _ => Nat.le_refl _

theorem listUpToParen_draws {w : α → List Nat} {what : Listed} {item : Rule α} {place : Place}
    (h : Draws [] w item) :
    Draws [] (fun out => out.1.flatMap w) (listUpToParen what item place) := by
  have hend (entries : List α) : Draws (entries.flatMap w) (fun out => out.1.flatMap w)
      (do let paren ← expectSymbol .rightParen place; return (entries, paren)) :=
    Draws.skip (Blank.expect _ _) fun _ => Draws.pure fun _ => Nat.le_refl _
  refine Draws.skip (Blank.ahead _) fun b => ?_
  cases b with
  | true => exact Draws.trans (v := List.flatMap w) (Draws.pure fun _ => Nat.le_refl _) hend
  | false => exact Draws.trans (listOf_draws h) hend

section

variable {inner : Rules} (h : RulesDraw inner)

include h

theorem primary_draws : Draws [] Expr.ids (primary inner) := by
  refine Draws.skip (Blank.acceptMap _) fun o => ?_
  cases o with
  | some l => exact Draws.pure fun _ => Nat.le_refl _
  | none =>
  refine Draws.skip (Blank.accept _) fun o => ?_
  cases o with
  | some name => exact Draws.freshId fun i => Draws.pure fun _ => Nat.le_refl _
  | none =>
  refine Draws.skip (Blank.accept _) fun o => ?_
  cases o with
  | some _ =>
      refine Draws.bind h.expression fun e => Draws.skip (Blank.expect _ _) fun _ => ?_
      exact Draws.pure fun _ => Nat.le_refl _
  | none => exact Draws.refuse _

theorem call_draws : Draws [] Expr.ids (call inner) := by
  refine Draws.bind (primary_draws h) fun e => Draws.repeatedly fun callee => ?_
  refine Draws.skip (Blank.accept _) fun o => ?_
  cases o with
  | none => exact Draws.pure fun _ => Nat.le_refl _
  | some _ =>
      refine Draws.bind (listUpToParen_draws h.expression) fun out => Draws.pure fun i => ?_
      simp [Expr.ids, Expr.listIds_eq_flatMap]

theorem unary_draws : Draws [] Expr.ids (unary inner) := by
  refine Draws.skip (Blank.acceptMap _) fun o => ?_
  cases o with
  | none => exact call_draws h
  | some op => exact Draws.bind h.operand fun e => Draws.pure fun _ => Nat.le_refl _

omit h in
theorem chain_draws {p : Kind → Bool} {join : Expr → Token → Expr → Expr} {operand : Rule Expr}
    (ho : Draws [] Expr.ids operand) (hj : ∀ l op r, (join l op r).ids = l.ids ++ r.ids) :
    Draws [] Expr.ids (chain p join operand) := by
  refine Draws.trans ho fun e => Draws.repeatedly fun left => ?_
  refine Draws.skip (Blank.acceptMap _) fun o => ?_
  cases o with
  | none => exact Draws.pure fun _ => Nat.le_refl _
  | some op => exact Draws.bind ho fun r => Draws.pure fun i => by simp [hj]

theorem disjunction_draws : Draws [] Expr.ids (disjunction inner) := by
  have hbinary (l : Expr) (op : Token) (r : Expr) : (Expr.binary l op r).ids = l.ids ++ r.ids := by
    rw [Expr.ids]
  have hlogical (l : Expr) (op : Token) (r : Expr) :
      (Expr.logical l op r).ids = l.ids ++ r.ids := by rw [Expr.ids]
  have hcomparison : Draws [] Expr.ids (comparison inner) :=
    chain_draws (chain_draws (chain_draws (unary_draws h) hbinary) hbinary) hbinary
  exact chain_draws (chain_draws (chain_draws hcomparison hbinary) hlogical) hlogical

theorem assignment_draws : Draws [] Expr.ids (assignment inner) := by
  refine Draws.trans (disjunction_draws h) fun target => ?_
  refine Draws.skip (Blank.accept _) fun o => ?_
  cases o with
  | none => exact Draws.pure fun _ => Nat.le_refl _
  | some equals =>
      refine Draws.bind h.expression fun value => ?_
      have hkeep : Draws (target.ids ++ value.ids) Expr.ids
          (do noteAt equals.line .invalidTarget; return target) :=
        Draws.skip (Blank.note (fun _ => equals.line) _) fun _ => Draws.pure fun i => by simp
      cases target with
      | read id name =>
          exact Draws.freshId fun i => Draws.pure fun j => by
            simp only [Expr.ids, List.count_append]; omega
      | _ => exact hkeep

/-! ### Statements -/

theorem varRest_draws : Draws [] Stmt.ids (varRest inner) := by
  have hend (name : Token) (initial : Option Expr) :
      Draws (initial.elim [] Expr.ids) Stmt.ids
        (do let _ ← expectSymbol .semicolon .afterVariable; return .var name initial) :=
    Draws.skip (Blank.expect _ _) fun _ => Draws.pure fun i => by cases initial <;> simp [Stmt.ids]
  refine Draws.skip (Blank.expect _ _) fun name => Draws.skip (Blank.accept _) fun o => ?_
  cases o with
  | none => exact hend name none
  | some _ => exact Draws.trans h.expression fun e => hend name (some e)

theorem expressionStatement_draws : Draws [] Stmt.ids (expressionStatement inner) :=
  Draws.trans h.expression fun _ => Draws.skip (Blank.expect _ _) fun _ =>
    Draws.pure fun _ => Nat.le_refl _

theorem optional_draws (k : Kind) :
    Draws [] (fun o => o.elim [] Expr.ids) (optional (ahead k) inner.expression) := by
  refine Draws.skip (Blank.ahead _) fun b => ?_
  cases b with
  | true => exact Draws.pure fun _ => Nat.le_refl _
  | false => exact Draws.trans h.expression fun e => Draws.pure fun _ => Nat.le_refl _

theorem returnRest_draws (kw : Token) : Draws [] Stmt.ids (returnRest inner kw) := by
  refine Draws.trans (optional_draws h _) fun value => Draws.skip (Blank.expect _ _) fun _ => ?_
  exact Draws.pure fun i => by cases value <;> simp [Stmt.ids]

theorem ifRest_draws : Draws [] Stmt.ids (ifRest inner) := by
  refine Draws.skip (Blank.expect _ _) fun _ => Draws.trans h.expression fun c => ?_
  refine Draws.skip (Blank.expect _ _) fun _ => Draws.bind h.statement fun yes => ?_
  refine Draws.skip (Blank.accept _) fun o => ?_
  cases o with
  | none => exact Draws.pure fun _ => Nat.le_refl _
  | some _ => exact Draws.bind h.statement fun no => Draws.pure fun _ => Nat.le_refl _

theorem whileRest_draws : Draws [] Stmt.ids (whileRest inner) := by
  refine Draws.skip (Blank.expect _ _) fun _ => Draws.trans h.expression fun c => ?_
  refine Draws.skip (Blank.expect _ _) fun _ => Draws.bind h.statement fun body => ?_
  exact Draws.pure fun _ => Nat.le_refl _

theorem forInitial_draws : Draws [] (fun o => o.elim [] Stmt.ids) (forInitial inner) := by
  refine Draws.skip (Blank.accept _) fun o => ?_
  cases o with
  | some _ => exact Draws.pure fun _ => Nat.le_refl _
  | none =>
  refine Draws.skip (Blank.accept _) fun o => ?_
  cases o with
  | some _ => exact Draws.trans (varRest_draws h) fun s => Draws.pure fun _ => Nat.le_refl _
  | none => exact Draws.trans (expressionStatement_draws h) fun s => Draws.pure fun _ => Nat.le_refl _

omit h in
theorem count_ids_forLoop (initial : Option Stmt) (condition increment : Option Expr)
    (body : Stmt) (i : Nat) :
    (forLoop initial condition increment body).ids.count i =
      (initial.elim [] Stmt.ids).count i + (condition.elim [] Expr.ids).count i +
        (increment.elim [] Expr.ids).count i + body.ids.count i := by
  cases initial <;> cases condition <;> cases increment <;>
    simp [forLoop, Stmt.ids, Stmt.listIds, Expr.ids] <;> omega

theorem forRest_draws : Draws [] Stmt.ids (forRest inner) := by
  refine Draws.skip (Blank.expect _ _) fun _ => Draws.trans (forInitial_draws h) fun initial => ?_
  refine Draws.bind (optional_draws h _) fun condition => Draws.skip (Blank.expect _ _) fun _ => ?_
  refine Draws.bind (optional_draws h _) fun increment => Draws.skip (Blank.expect _ _) fun _ => ?_
  refine Draws.bind h.statement fun body => Draws.pure fun i => ?_
  rw [count_ids_forLoop]
  simp only [List.count_append]
  omega

theorem statementRule_draws : Draws [] Stmt.ids (statementRule inner) := by
  refine Draws.skip (Blank.accept _) fun o => ?_
  cases o with
  | some _ => exact forRest_draws h
  | none =>
  refine Draws.skip (Blank.accept _) fun o => ?_
  cases o with
  | some _ => exact ifRest_draws h
  | none =>
  refine Draws.skip (Blank.accept _) fun o => ?_
  cases o with
  | some _ => exact whileRest_draws h
  | none =>
  refine Draws.skip (Blank.accept _) fun o => ?_
  cases o with
  | some kw => exact returnRest_draws h kw
  | none =>
  refine Draws.skip (Blank.accept _) fun o => ?_
  cases o with
  | some _ => exact Draws.trans h.block fun body => Draws.pure fun _ => Nat.le_refl _
  | none =>
  refine Draws.skip (Blank.accept _) fun o => ?_
  cases o with
  | some _ =>
      exact Draws.trans h.expression fun e => Draws.skip (Blank.expect _ _) fun _ =>
        Draws.pure fun _ => Nat.le_refl _
  | none => exact expressionStatement_draws h

/-! ### Declarations -/

theorem function_draws (c : Callee) : Draws [] Stmt.functionIds (function inner c) := by
  refine Draws.skip (Blank.expect _ _) fun name => Draws.skip (Blank.expect _ _) fun _ => ?_
  refine Draws.bind (listUpToParen_draws (Draws.of_blank (Blank.expect _ _))) fun out => ?_
  refine Draws.skip (Blank.expect _ _) fun _ => Draws.bind h.block fun body => ?_
  exact Draws.pure fun i => by simp [Stmt.functionIds]

theorem classRest_draws : Draws [] Stmt.ids (classRest inner) := by
  refine Draws.skip (Blank.expect _ _) fun name => Draws.skip (Blank.expect _ _) fun _ => ?_
  refine Draws.trans (Draws.repeatedly (a := #[])
    (v := fun read : Array Function => read.toList.flatMap Stmt.functionIds) fun read => ?_)
    fun all => ?_
  · refine Draws.skip Blank.atClose fun b => ?_
    cases b with
    | true => exact Draws.pure fun _ => Nat.le_refl _
    | false => exact Draws.bind (function_draws h _) fun f => Draws.pure fun i => by simp
  · refine Draws.skip (Blank.expect _ _) fun _ => Draws.pure fun i => ?_
    simp [Stmt.ids, Stmt.methodIds_eq_flatMap]

theorem declarationRule_draws : Draws [] Stmt.ids (declarationRule inner) := by
  refine Draws.skip (Blank.accept _) fun o => ?_
  cases o with
  | some _ => exact classRest_draws h
  | none =>
  refine Draws.skip (Blank.accept _) fun o => ?_
  cases o with
  | some _ => exact Draws.trans (function_draws h _) fun f => Draws.pure fun _ => Nat.le_refl _
  | none =>
  refine Draws.skip (Blank.accept _) fun o => ?_
  cases o with
  | some _ => exact varRest_draws h
  | none => exact h.statement

theorem nextDeclaration_draws (read : Array Stmt) :
    Draws (read.toList.flatMap Stmt.ids) (fun all => all.toList.flatMap Stmt.ids)
      (nextDeclaration inner read) := by
  refine Draws.skip Blank.get fun s => Draws.bind (declarationRule_draws h).recovering fun o => ?_
  refine Draws.skip Blank.get fun t => ?_
  have hend : Draws (read.toList.flatMap Stmt.ids ++ o.elim [] Stmt.ids)
      (fun all => all.toList.flatMap Stmt.ids)
      (pure (o.elim read read.push)) := by
    cases o <;> exact Draws.pure fun i => by simp
  by_cases ht : t.position = s.position
  · simp only [if_pos ht]
    exact Draws.skip (Blank.throw _) fun _ => hend
  · simp only [if_neg ht]
    exact hend

theorem declarations_draw {closed : Rule Bool} (hc : Blank closed) :
    Draws [] (fun all => all.toList.flatMap Stmt.ids) (repeatedly #[] fun read => do
      if ← closed then return none
      return some (← nextDeclaration inner read)) := by
  refine Draws.repeatedly (a := #[]) (v := fun all : Array Stmt => all.toList.flatMap Stmt.ids)
    fun read => ?_
  refine Draws.skip hc fun b => ?_
  cases b with
  | true => exact Draws.pure fun _ => Nat.le_refl _
  | false =>
      exact Draws.trans (nextDeclaration_draws h read) fun all => Draws.pure fun _ => Nat.le_refl _

theorem blockRule_draws : Draws [] Stmt.listIds (blockRule inner) := by
  refine Draws.trans (declarations_draw h Blank.atClose) fun all => ?_
  exact Draws.skip (Blank.expect _ _) fun _ => Draws.pure fun i => by simp [Stmt.listIds_eq_flatMap]

theorem program_draws : Draws [] Stmt.listIds (program inner) := by
  refine Draws.trans (declarations_draw h Blank.atEnd) fun all => ?_
  exact Draws.pure fun i => by simp [Stmt.listIds_eq_flatMap]

end

theorem rules_draw (n : Nat) : RulesDraw (rules n) := by
  induction n with
  | zero => exact ⟨Draws.refuse _, Draws.refuse _, Draws.refuse _, Draws.refuse _⟩
  | succ n ih =>
      exact ⟨Draws.nested (assignment_draws ih), Draws.nested (unary_draws ih),
        Draws.nested (statementRule_draws ih), Draws.nested (blockRule_draws ih)⟩

theorem fresh_of_ofTokens? {tokens : List Token} {firstId : Nat} {p : Program}
    (hp : Program.ofTokens? tokens firstId = some p) :
    firstId ≤ p.nextId ∧ Fresh firstId p.nextId (Stmt.listIds p.statements) := by
  rw [Program.ofTokens?] at hp
  split at hp
  · next body s hr =>
    cases hp
    have hd := program_draws (rules_draw maxDepth)
    have hgrows := hd.grows (.start tokens firstId)
    simp only [State.behind, hr] at hgrows
    exact ⟨hgrows, hd.fresh hr (Nat.le_refl _) Fresh.nil⟩
  · cases hp

end Lox.Grammar
