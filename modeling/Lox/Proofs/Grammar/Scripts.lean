import Lox.Proofs.Grammar.Advance
import Lox.Proofs.Grammar.Closed

/-!
Rules step by step. A rule is a function and shows the states at its ends only, so the states on the
way are those of a script: a tree of single steps and of the ways in which rules are put together.
All productions of the grammar have scripts.
-/

namespace Lox.Grammar

variable {α β : Type}

/-- The rules that look at the next token or change the state once, if at all. -/
inductive Step : {α : Type} → Rule α → Prop
  | pure {α : Type} (a : α) : Step (pure a)
  | get : Step get
  | refuse {α : Type} (cause : Found → SyntaxCause) : Step (refuse cause : Rule α)
  | endless {α : Type} : Step (throw .endless : Rule α)
  | acceptMap {α : Type} (f : Token → Option α) : Step (acceptMap f)
  | ahead (k : Kind) : Step (ahead k)
  | atEnd : Step atEnd
  | freshId : Step freshId
  | noteHere (cause : SyntaxCause) : Step (noteHere cause)
  | noteAt (line : Nat) (cause : SyntaxCause) : Step (noteAt line cause)

inductive Script : Type → Type 1
  | step {α : Type} (r : Rule α) (h : Step r) : Script α
  | bind {α β : Type} (x : Script α) (f : α → Script β) : Script β
  | nested {α : Type} (what : Nesting) (x : Script α) : Script α
  | recovering {α : Type} (x : Script α) : Script (Option α)

namespace Script

def rule : {α : Type} → Script α → Rule α
  | _, step r _ => r
  | _, bind x f => x.rule >>= fun a => (f a).rule
  | _, nested what x => Grammar.nested what x.rule
  | _, recovering x => Grammar.recovering x.rule

/-- The states that are met when the script is gone through from a state. After a refusal tokens are
passed over one by one. -/
inductive Reaches : {α : Type} → Script α → State → State → Prop
  | before {α : Type} {p : Script α} {s : State} : Reaches p s s
  | behind {α : Type} {p : Script α} {s : State} : Reaches p s (s.behind p.rule)
  | first {α β : Type} {x : Script α} {f : α → Script β} {s u : State} (h : Reaches x s u) :
      Reaches (bind x f) s u
  | second {α β : Type} {x : Script α} {f : α → Script β} {s t u : State} {a : α}
      (hx : x.rule s = .ok a t) (h : Reaches (f a) t u) : Reaches (bind x f) s u
  | inner {α : Type} {what : Nesting} {x : Script α} {s u : State} (hd : s.depth < maxDepth)
      (h : Reaches x { s with depth := s.depth + 1 } u) : Reaches (nested what x) s u
  | tried {α : Type} {x : Script α} {s u : State} (h : Reaches x s u) : Reaches (recovering x) s u
  | passed {α : Type} {x : Script α} {s t : State} {e : Fault SyntaxCause} {n : Nat}
      (hx : x.rule s = .error (.refused e) t) (hn : n ≤ toBoundary t.rest) :
      Reaches (recovering x) s ({ t with faults := t.faults.push e }.drop n)

end Script

/-! ### Scripts of the productions -/

/-- A rule that can be gone through step by step. -/
def Scripted (r : Rule α) : Prop := ∃ p : Script α, p.rule = r

theorem Step.scripted {r : Rule α} (h : Step r) : Scripted r := ⟨.step r h, rfl⟩

theorem Scripted.bind {x : Rule α} {f : α → Rule β} (hx : Scripted x) (hf : ∀ a, Scripted (f a)) :
    Scripted (x >>= f) := by
  obtain ⟨p, rfl⟩ := hx
  exact ⟨.bind p fun a => (hf a).choose,
    congrArg (p.rule >>= ·) (funext fun a => (hf a).choose_spec)⟩

theorem scripted_closed : Closed @Scripted where
  pure a := (Step.pure a).scripted
  bind := Scripted.bind
  get := Step.get.scripted
  refuse cause := (Step.refuse cause).scripted
  endless := Step.endless.scripted
  acceptMap f := (Step.acceptMap f).scripted
  ahead k := (Step.ahead k).scripted
  atEnd := Step.atEnd.scripted
  freshId := Step.freshId.scripted
  noteHere cause := (Step.noteHere cause).scripted
  late target hx := by
    refine .bind (Step.acceptMap _).scripted fun o => ?_
    cases o with
    | none => exact (Step.pure target).scripted
    | some equals =>
        refine .bind hx fun _ => .bind (Step.noteAt _ _).scripted fun _ => ?_
        exact (Step.pure target).scripted
  nested := by
    rintro _ _ what ⟨p, rfl⟩
    exact ⟨.nested what p, rfl⟩
  recovering := by
    rintro _ _ ⟨p, rfl⟩
    exact ⟨.recovering p, rfl⟩

/-- The productions of the grammar, at whatever level. -/
inductive Production : {α : Type} → Rule α → Prop
  | program (n : Nat) : Production (program (rules n))
  | declaration (n : Nat) : Production (declaration (rules n))
  | nextDeclaration (n : Nat) (read : Array Stmt) : Production (nextDeclaration (rules n) read)
  | declarationRule (n : Nat) : Production (declarationRule (rules n))
  | classRest (n : Nat) : Production (classRest (rules n))
  | function (n : Nat) (c : Callee) : Production (function (rules n) c)
  | varRest (n : Nat) : Production (varRest (rules n))
  | nestedStatement (n : Nat) : Production (rules n).statement
  | statementRule (n : Nat) : Production (statementRule (rules n))
  | forRest (n : Nat) : Production (forRest (rules n))
  | forInitial (n : Nat) : Production (forInitial (rules n))
  | ifRest (n : Nat) : Production (ifRest (rules n))
  | whileRest (n : Nat) : Production (whileRest (rules n))
  | returnRest (n : Nat) (keyword : Token) : Production (returnRest (rules n) keyword)
  | printRest (n : Nat) : Production (printRest (rules n))
  | expressionStatement (n : Nat) : Production (expressionStatement (rules n))
  | nestedBlock (n : Nat) : Production (rules n).block
  | blockRule (n : Nat) : Production (blockRule (rules n))
  | nestedExpression (n : Nat) : Production (rules n).expression
  | assignment (n : Nat) : Production (assignment (rules n))
  | disjunction (n : Nat) : Production (disjunction (rules n))
  | conjunction (n : Nat) : Production (conjunction (rules n))
  | equality (n : Nat) : Production (equality (rules n))
  | comparison (n : Nat) : Production (comparison (rules n))
  | term (n : Nat) : Production (term (rules n))
  | factor (n : Nat) : Production (factor (rules n))
  | nestedOperand (n : Nat) : Production (rules n).operand
  | unary (n : Nat) : Production (unary (rules n))
  | call (n : Nat) : Production (call (rules n))
  | arguments (n : Nat) :
      Production (listUpToParen .arguments (rules n).expression .afterArguments)
  | primary (n : Nat) : Production (primary (rules n))

theorem Production.scripted {r : Rule α} (h : Production r) : Scripted r := by
  have hC := scripted_closed
  have hin (n : Nat) : RulesIn @Scripted (rules n) := hC.rules n
  have hunary (n : Nat) := hC.unary (hin n)
  cases h with
  | program n => exact hC.program (hin n)
  | declaration n => exact hC.recovering (hC.declarationRule (hin n))
  | nextDeclaration n read => exact hC.nextDeclaration (hin n) read
  | declarationRule n => exact hC.declarationRule (hin n)
  | classRest n => exact hC.classRest (hin n)
  | function n c => exact hC.function (hin n) c
  | varRest n => exact hC.varRest (hin n)
  | nestedStatement n => exact (hin n).statement
  | statementRule n => exact hC.statementRule (hin n)
  | forRest n => exact hC.forRest (hin n)
  | forInitial n => exact hC.forInitial (hin n)
  | ifRest n => exact hC.ifRest (hin n)
  | whileRest n => exact hC.whileRest (hin n)
  | returnRest n keyword => exact hC.returnRest (hin n) keyword
  | printRest n => exact hC.printRest (hin n)
  | expressionStatement n => exact hC.expressionStatement (hin n)
  | nestedBlock n => exact (hin n).block
  | blockRule n => exact hC.blockRule (hin n)
  | nestedExpression n => exact (hin n).expression
  | assignment n => exact hC.assignment (hin n)
  | disjunction n => exact hC.disjunction (hin n)
  | conjunction n => exact hC.chain (hC.chain (hC.chain (hC.chain (hC.chain (hunary n)))))
  | equality n => exact hC.chain (hC.chain (hC.chain (hC.chain (hunary n))))
  | comparison n => exact hC.chain (hC.chain (hC.chain (hunary n)))
  | term n => exact hC.chain (hC.chain (hunary n))
  | factor n => exact hC.chain (hunary n)
  | nestedOperand n => exact (hin n).operand
  | unary n => exact hunary n
  | call n => exact hC.call (hin n)
  | arguments n => exact hC.listUpToParen (hin n).expression
  | primary n => exact hC.primary (hin n)

/-! ### What steps do to the state -/

/-- From `s` to `t` tokens are passed over, none of them unseen. -/
def State.Onward (s t : State) : Prop :=
  ∃ n ≤ s.rest.length, t.rest = s.rest.drop n ∧ t.position = s.position + n ∧ t.endLine = s.endLine

namespace State.Onward

variable {s t u : State}

theorem refl (s : State) : s.Onward s := ⟨0, Nat.zero_le _, rfl, rfl, rfl⟩

theorem trans (h : s.Onward t) (h' : t.Onward u) : s.Onward u := by
  obtain ⟨m, hm, hrest, hposition, hline⟩ := h
  obtain ⟨n, hn, hrest', hposition', hline'⟩ := h'
  rw [hrest, List.length_drop] at hn
  refine ⟨m + n, by omega, ?_, by omega, hline'.trans hline⟩
  rw [hrest', hrest, List.drop_drop]

theorem drop {n : Nat} (h : n ≤ s.rest.length) : s.Onward (s.drop n) := ⟨n, h, rfl, rfl, rfl⟩

theorem of_same (hr : t.rest = s.rest) (hp : t.position = s.position)
    (hl : t.endLine = s.endLine) : s.Onward t := ⟨0, Nat.zero_le _, hr, hp, hl⟩

end State.Onward

/-- A rule that only goes on and comes back to the level at which it was entered, however it ends. -/
structure Steady (r : Rule α) : Prop where
  onward : ∀ s : State, s.Onward (s.behind r)
  depth : ∀ s : State, (s.behind r).depth = s.depth

theorem Step.steady {r : Rule α} (h : Step r) : Steady r := by
  cases h with
  | pure | get | refuse | endless | atEnd => exact ⟨fun s => .refl s, fun _ => rfl⟩
  | freshId | noteHere | noteAt => exact ⟨fun s => .of_same rfl rfl rfl, fun _ => rfl⟩
  | ahead k =>
      have hsame (s : State) : s.behind (Grammar.ahead k) = s := by
        rw [State.behind, Grammar.ahead]
        cases s.rest <;> rfl
      exact ⟨fun s => (hsame s).symm ▸ .refl s, fun s => congrArg State.depth (hsame s)⟩
  | acceptMap f =>
      have hbehind (s : State) : s.behind (Grammar.acceptMap f) = s ∨
          1 ≤ s.rest.length ∧ s.behind (Grammar.acceptMap f) = s.drop 1 := by
        rw [State.behind, Grammar.acceptMap]
        cases hs : s.rest with
        | nil => exact .inl rfl
        | cons t ts =>
            cases ha : f t with
            | none => exact .inl (by simp only [ha])
            | some a => exact .inr ⟨Nat.succ_le_succ (Nat.zero_le _), by simp only [ha]⟩
      refine ⟨fun s => ?_, fun s => ?_⟩
      · rcases hbehind s with hs | ⟨hl, hs⟩
        · exact hs.symm ▸ .refl s
        · exact hs.symm ▸ .drop hl
      · rcases hbehind s with hs | ⟨-, hs⟩
        · rw [hs]
        · rw [hs]
          rfl

theorem behind_bind {x : Rule α} {f : α → Rule β} (s : State) :
    s.behind (x >>= f) = s.behind x ∨
      ∃ a t, x s = .ok a t ∧ t = s.behind x ∧ s.behind (x >>= f) = t.behind (f a) := by
  rw [State.behind, State.behind, bind_apply]
  cases x s with
  | error e t => exact .inl rfl
  | ok a t => exact .inr ⟨a, t, rfl, rfl, rfl⟩

theorem behind_nested (what : Nesting) (r : Rule α) (s : State) :
    s.behind (nested what r) = s ∨ s.depth < maxDepth ∧
      s.behind (nested what r) = { State.behind r { s with depth := s.depth + 1 } with
        depth := (State.behind r { s with depth := s.depth + 1 }).depth - 1 } := by
  rw [State.behind, State.behind, nested]
  by_cases hd : maxDepth ≤ s.depth
  · rw [if_pos hd]
    exact .inl rfl
  · rw [if_neg hd]
    refine .inr ⟨Nat.lt_of_not_le hd, ?_⟩
    cases r { s with depth := s.depth + 1 } <;> rfl

theorem behind_recovering (r : Rule α) (s : State) :
    s.behind (recovering r) = s.behind r ∨ ∃ e t, r s = .error (.refused e) t ∧ t = s.behind r ∧
      s.behind (recovering r) = { t with faults := t.faults.push e }.recover := by
  rw [State.behind, State.behind, recovering]
  cases r s with
  | ok a t => exact .inl rfl
  | error e t =>
      cases e with
      | refused e => exact .inr ⟨e, t, rfl, rfl, rfl⟩
      | endless => exact .inl rfl

theorem onward_passed (t : State) (e : Fault SyntaxCause) {n : Nat} (hn : n ≤ toBoundary t.rest) :
    t.Onward ({ t with faults := t.faults.push e }.drop n) :=
  (State.Onward.of_same (t := { t with faults := t.faults.push e }) rfl rfl rfl).trans
    (.drop (Nat.le_trans hn (toBoundary_le t.rest)))

namespace Script

theorem steady (p : Script α) : Steady p.rule := by
  induction p with
  | step r h => exact h.steady
  | bind x f hx hf =>
      refine ⟨fun s => ?_, fun s => ?_⟩
      · rcases behind_bind (x := x.rule) (f := fun a => (f a).rule) s with h | ⟨a, t, -, rfl, h⟩
        · exact h.symm ▸ hx.onward s
        · exact h.symm ▸ (hx.onward s).trans ((hf a).onward _)
      · rcases behind_bind (x := x.rule) (f := fun a => (f a).rule) s with h | ⟨a, t, -, rfl, h⟩
        · exact (congrArg State.depth h).trans (hx.depth s)
        · exact (congrArg State.depth h).trans (((hf a).depth _).trans (hx.depth s))
  | nested what x hx =>
      refine ⟨fun s => ?_, fun s => ?_⟩
      · rcases behind_nested what x.rule s with h | ⟨-, h⟩
        · exact h.symm ▸ .refl s
        · exact h.symm ▸ hx.onward { s with depth := s.depth + 1 }
      · rcases behind_nested what x.rule s with h | ⟨-, h⟩
        · exact congrArg State.depth h
        · exact (congrArg State.depth h).trans
            (congrArg (· - 1) (hx.depth { s with depth := s.depth + 1 }))
  | recovering x hx =>
      refine ⟨fun s => ?_, fun s => ?_⟩
      · rcases behind_recovering x.rule s with h | ⟨e, t, -, rfl, h⟩
        · exact h.symm ▸ hx.onward s
        · exact h.symm ▸ (hx.onward s).trans (onward_passed _ e (Nat.le_refl _))
      · rcases behind_recovering x.rule s with h | ⟨e, t, -, rfl, h⟩
        · exact (congrArg State.depth h).trans (hx.depth s)
        · exact (congrArg State.depth h).trans (hx.depth s)

/-- On the way no token is passed over twice, and the level is neither below that of the start nor
above the highest one. -/
theorem Reaches.onward {p : Script α} {s u : State} (h : p.Reaches s u) :
    s.Onward u ∧ s.depth ≤ u.depth ∧ (s.depth ≤ maxDepth → u.depth ≤ maxDepth) := by
  induction h with
  | before => exact ⟨.refl _, Nat.le_refl _, id⟩
  | @behind _ p s =>
      have hdepth := p.steady.depth s
      exact ⟨p.steady.onward s, Nat.le_of_eq hdepth.symm, fun h => by rwa [hdepth]⟩
  | first _ ih | tried _ ih => exact ih
  | @second _ _ x f s t u a hx _ ih =>
      have ht : t = s.behind x.rule := by rw [State.behind, hx]
      have hdepth : t.depth = s.depth := ht ▸ x.steady.depth s
      rw [hdepth] at ih
      exact ⟨(ht ▸ x.steady.onward s).trans ih.1, ih.2⟩
  | @inner _ what x s u hd _ ih =>
      obtain ⟨honward, hle, hmax⟩ := ih
      exact ⟨honward, Nat.le_trans (Nat.le_succ _) hle, fun _ => hmax hd⟩
  | @passed _ x s t e n hx hn =>
      have ht : t = s.behind x.rule := by rw [State.behind, hx]
      have hdepth : t.depth = s.depth := ht ▸ x.steady.depth s
      exact ⟨(ht ▸ x.steady.onward s).trans (onward_passed t e hn), Nat.le_of_eq hdepth.symm,
        fun h => Nat.le_trans (Nat.le_of_eq hdepth) h⟩

end Script

end Lox.Grammar
