import Lox.Proofs.Grammar.Endless
import Lox.Proofs.Grammar.Soundness

/-!
A semicolon outside braces stops whatever goes wrong in front of it. Up to such a semicolon no rule
does anything else when there are more tokens behind it: each is refused in front of it, or has read
it as the last token of a statement.
-/

namespace Lox.Grammar

variable {α β : Type}

/-- Whether a fault ends the rule that meets it. Other faults are noted in passing. -/
def SyntaxCause.stops : SyntaxCause → Bool
  | .missing .. | .tooDeep .. => true
  | .tooMany _ | .invalidTarget => false

/-- How many of the faults noted so far have ended a rule. -/
def State.stops (s : State) : Nat := s.faults.countP fun f => f.cause.stops

/-- What may not stand in front of the semicolon: with it, the semicolon need not be the first one,
nor outside braces and the clauses of a loop, nor be read at all. -/
def unfenced : List Kind := [.symbol .semicolon, .symbol .leftBrace, .keyword .kwFor, .eof]

/-- Tokens up to and with a semicolon outside braces. -/
inductive Fenced : List Token → Prop
  | last {t : Token} (ht : t.kind = .symbol .semicolon) : Fenced [t]
  | more {t : Token} {ts : List Token} (ht : t.kind ∉ unfenced) (hts : Fenced ts) :
      Fenced (t :: ts)

theorem fenced_append {ts : List Token} {semicolon : Token} (h : ∀ t ∈ ts, t.kind ∉ unfenced)
    (hs : semicolon.kind = .symbol .semicolon) : Fenced (ts ++ [semicolon]) := by
  induction ts with
  | nil => exact .last hs
  | cons t ts ih =>
      exact .more (h t List.mem_cons_self) (ih fun u hu => h u (List.mem_cons_of_mem _ hu))

/-- The state with more tokens behind those ahead, and so with another line at the end. -/
def State.plus (q : List Token) (line : Nat) (s : State) : State :=
  { s with rest := s.rest ++ q, endLine := line }

/-- What a rule comes to without and with more tokens behind the semicolon. If it is refused, the
semicolon is still ahead. All faults that it notes are noted in passing. -/
inductive EndsFenced (q : List Token) (line : Nat) (E : List Token → Prop) (stops : Nat) :
    EStateM.Result Halt State α → EStateM.Result Halt State α → Prop
  | ok {a : α} {t : State} (ht : E t.rest) (hn : t.stops = stops) :
      EndsFenced q line E stops (.ok a t) (.ok a (t.plus q line))
  | refused {f : Fault SyntaxCause} {t : State} (ht : Fenced t.rest) (hn : t.stops = stops) :
      EndsFenced q line E stops (.error (.refused f) t) (.error (.refused f) (t.plus q line))

/-- Where the tokens ahead are as `D` says, the rule does the same with more behind them, and it
leaves tokens as `E` says. -/
def Fences (q : List Token) (line : Nat) (D E : List Token → Prop) (r : Rule α) : Prop :=
  ∀ s : State, D s.rest → EndsFenced q line E s.stops (r s) (r (s.plus q line))

theorem Fenced.exists_cons {ts : List Token} (h : Fenced ts) :
    ∃ t us, ts = t :: us ∧
      (t.kind = .symbol .semicolon ∧ us = [] ∨ t.kind ∉ unfenced ∧ Fenced us) := by
  cases h with
  | last ht => exact ⟨_, _, rfl, .inl ⟨ht, rfl⟩⟩
  | more ht hts => exact ⟨_, _, rfl, .inr ⟨ht, hts⟩⟩

section

variable {q : List Token} {line : Nat} {D E F : List Token → Prop}

namespace State

variable {s : State} {t : Token} {us : List Token}

theorem rest_plus (h : s.rest = t :: us) : (s.plus q line).rest = t :: (us ++ q) := by
  rw [plus, h, List.cons_append]

/-- More tokens behind the semicolon do not show in front of it. -/
theorem line_plus (h : Fenced s.rest) : (s.plus q line).line = s.line := by
  obtain ⟨t, us, hrest, -⟩ := h.exists_cons
  rw [State.line, State.line, rest_plus hrest, hrest]

theorem found_plus (h : Fenced s.rest) : (s.plus q line).found = s.found := by
  obtain ⟨t, us, hrest, -⟩ := h.exists_cons
  rw [State.found, State.found, rest_plus hrest, hrest]

end State

namespace Fences

theorem pure {a : α} : Fences q line D D (pure a) := fun _ hs => .ok hs rfl

theorem bind {x : Rule α} {g : α → Rule β} (hx : Fences q line D E x)
    (hg : ∀ a, Fences q line E F (g a)) : Fences q line D F (x >>= g) := by
  intro s hs
  rw [bind_apply, bind_apply]
  have hx := hx s hs
  generalize x s = r, x (s.plus q line) = r' at hx ⊢
  cases hx with
  | refused ht hn => exact .refused ht hn
  | @ok a t ht hn =>
      simp only
      have hg := hg a t ht
      generalize g a t = r, g a (t.plus q line) = r' at hg ⊢
      cases hg with
      | ok hu hn' => exact .ok hu (hn'.trans hn)
      | refused hu hn' => exact .refused hu (hn'.trans hn)

theorem refuse {cause : Found → SyntaxCause} : Fences q line Fenced E (refuse cause : Rule α) := by
  intro s hs
  rw [Grammar.refuse, Grammar.refuse, State.line_plus hs, State.found_plus hs]
  exact .refused hs rfl

/-! ### Single tokens -/

/-- A rule may start with some token of those in front of the semicolon, or with the semicolon. -/
theorem acceptMap {f : Token → Option α} {g : Option α → Rule β}
    (hyes : ∀ t a, t.kind ∉ unfenced → f t = some a → Fences q line Fenced E (g (some a)))
    (hlast : ∀ t a, t.kind = .symbol .semicolon → f t = some a →
      Fences q line (· = []) E (g (some a)))
    (hno : Fences q line Fenced E (g none)) : Fences q line Fenced E (acceptMap f >>= g) := by
  intro s hs
  obtain ⟨t, us, hrest, ht⟩ := hs.exists_cons
  rw [bind_apply, bind_apply, Grammar.acceptMap, Grammar.acceptMap, State.rest_plus hrest, hrest]
  cases ha : f t with
  | none => simpa [ha] using hno s hs
  | some a =>
      have hrest' : (s.drop 1).rest = us := by rw [State.drop, hrest]; rfl
      have hplus : (s.plus q line).drop 1 = (s.drop 1).plus q line := by
        simp [State.drop, State.plus, hrest]
      simp only [ha, hplus]
      rcases ht with ⟨hk, hus⟩ | ⟨hk, hus⟩
      · exact hlast t a hk ha (s.drop 1) (hrest'.trans hus)
      · exact hyes t a hk ha (s.drop 1) (hrest' ▸ hus)

theorem acceptIf {p : Kind → Bool} {g : Option Token → Rule β} (hp : p (.symbol .semicolon) = false)
    (hyes : ∀ t, t.kind ∉ unfenced → p t.kind = true → Fences q line Fenced E (g (some t)))
    (hno : Fences q line Fenced E (g none)) : Fences q line Fenced E (acceptIf p >>= g) := by
  refine acceptMap (fun t a hk ha => ?_) (fun t a hk ha => ?_) hno
  · obtain ⟨ht, ha⟩ := Option.ite_none_right_eq_some.mp ha
    cases ha
    exact hyes t hk ht
  · rw [hk, hp] at ha
    cases ha

theorem accept {k : Kind} {g : Option Token → Rule β} (hk : k ≠ .symbol .semicolon)
    (hyes : k ∉ unfenced → ∀ t, Fences q line Fenced E (g (some t)))
    (hno : Fences q line Fenced E (g none)) : Fences q line Fenced E (accept k >>= g) :=
  acceptIf (decide_eq_false hk.symm) (fun t ht hkt => hyes (of_decide_eq_true hkt ▸ ht) t) hno

theorem expect {k : Kind} {wanted : Wanted} {g : Token → Rule β} (hk : k ≠ .symbol .semicolon)
    (h : k ∉ unfenced → ∀ t, Fences q line Fenced E (g t)) :
    Fences q line Fenced E (expect k wanted >>= g) := by
  rw [Grammar.expect, bind_assoc]
  refine accept hk (fun hu t => ?_) (bind (E := fun _ => False) refuse fun _ _ hs => hs.elim)
  rw [pure_bind]
  exact h hu t

theorem semicolon {place : Place} {g : Token → Rule β} (h : ∀ t, Fences q line (· = []) E (g t)) :
    Fences q line Fenced E (expectSymbol .semicolon place >>= g) := by
  rw [expectSymbol, Grammar.expect, bind_assoc]
  refine acceptMap (fun t a hk ha => ?_) (fun t a _ _ => ?_)
    (bind (E := fun _ => False) refuse fun _ _ hs => hs.elim)
  · obtain ⟨ht, -⟩ := Option.ite_none_right_eq_some.mp ha
    exact absurd (by simp [unfenced, of_decide_eq_true ht]) hk
  · rw [pure_bind]
    exact h a

theorem ahead {k : Kind} {g : Bool → Rule β} (h : ∀ b, Fences q line Fenced E (g b)) :
    Fences q line Fenced E (ahead k >>= g) := by
  intro s hs
  obtain ⟨t, us, hrest, -⟩ := hs.exists_cons
  rw [bind_apply, bind_apply, Grammar.ahead, Grammar.ahead, State.rest_plus hrest, hrest]
  exact h _ s hs

/-- Behind the semicolon there is no `else`. -/
theorem accept_else {g : Option Token → Rule β} (hq : NoElse q)
    (h : Fences q line (· = []) E (g none)) :
    Fences q line (· = []) E (Grammar.accept (.keyword .kwElse) >>= g) := by
  intro s hs
  have hnone : ¬s.At (.keyword .kwElse) := by simp [State.At, hs]
  have hnone' : ¬(s.plus q line).At (.keyword .kwElse) := by
    intro hat
    obtain ⟨t, ht, hk⟩ := Option.map_eq_some_iff.mp hat
    rw [State.plus, hs] at ht
    exact hq t ht hk
  rw [bind_apply, bind_apply, accept_of_not_at hnone, accept_of_not_at hnone']
  exact h s hs

theorem freshId : Fences q line D D freshId := fun _ hs => .ok hs rfl

theorem noteHere {cause : SyntaxCause} (hc : cause.stops = false) :
    Fences q line Fenced Fenced (noteHere cause) := by
  intro s hs
  rw [Grammar.noteHere, Grammar.noteHere, State.line_plus hs]
  exact .ok hs (by simp [State.stops, State.note, hc])

theorem noteAt {l : Nat} {cause : SyntaxCause} (hc : cause.stops = false) :
    Fences q line D D (noteAt l cause) :=
  fun s hs => .ok hs (by simp [State.stops, State.note, hc])

/-! ### Rules inside rules -/

theorem nested {what : Nesting} {r : Rule α} (h : Fences q line Fenced E r) :
    Fences q line Fenced E (nested what r) := by
  intro s hs
  have hdepth : (s.plus q line).depth = s.depth := rfl
  rw [Grammar.nested, Grammar.nested, hdepth]
  split
  · exact refuse s hs
  have hr := h { s with depth := s.depth + 1 } hs
  rw [show State.plus q line { s with depth := s.depth + 1 } =
    { s.plus q line with depth := s.depth + 1 } from rfl] at hr
  generalize r { s with depth := s.depth + 1 } = x,
    r { s.plus q line with depth := s.depth + 1 } = y at hr ⊢
  cases hr with
  | ok ht hn => exact .ok ht hn
  | refused ht hn => exact .refused ht hn

/-- A loop ends for want of something to add and not for want of tokens, as the semicolon is still
ahead. -/
theorem repeatedly {step : α → Rule (Option α)} (h : ∀ a, Fences q line Fenced Fenced (step a))
    (hless : ∀ a b s t, step a s = .ok (some b) t → t.rest.length < s.rest.length) (a : α) :
    Fences q line Fenced Fenced (repeatedly a step) := by
  have hgo (bound : List Token) : ∀ bound' a (s : State), Fenced s.rest →
      s.rest.length ≤ bound.length → bound.length ≤ bound'.length →
      EndsFenced q line Fenced s.stops (repeatedly.go step bound a s)
        (repeatedly.go step bound' a (s.plus q line)) := by
    induction bound with
    | nil =>
        intro _ _ s hs hl _
        obtain ⟨t, us, hrest, -⟩ := hs.exists_cons
        rw [hrest] at hl
        cases hl
    | cons x bound ih =>
        intro bound' a s hs hl hl'
        obtain ⟨y, bound', rfl⟩ := List.exists_cons_of_length_pos
          (Nat.lt_of_lt_of_le (Nat.succ_pos bound.length) hl')
        rw [repeatedly.go, repeatedly.go, bind_apply, bind_apply]
        have hstep := h a s hs
        generalize hr : step a s = r, step a (s.plus q line) = r' at hstep ⊢
        cases hstep with
        | refused ht hn => exact .refused ht hn
        | @ok o t ht hn =>
            cases o with
            | none => exact .ok ht hn
            | some b =>
                have hlt := hless a b s t hr
                simp only [List.length_cons] at hl hl'
                rw [← hn]
                exact ih bound' b t ht (by omega) (by omega)
  intro s hs
  exact hgo s.rest (s.rest ++ q) a s hs (Nat.le_refl _) (by simp)

end Fences

/-- A loop each step of which starts with a token other than the semicolon. -/
theorem Fences.loop {f : Token → Option β} {g : α → Option β → Rule (Option α)}
    (hf : ∀ t, t.kind = .symbol .semicolon → f t = none)
    (hno : ∀ a, g a none = Pure.pure none)
    (hyes : ∀ a b, Fences q line Fenced Fenced (g a (some b)))
    (hpay : ∀ a b s, Pays (-1) False False (g a (some b)) s) (a : α) :
    Fences q line Fenced Fenced (Grammar.repeatedly a fun a => Grammar.acceptMap f >>= g a) := by
  refine repeatedly (fun a => acceptMap (fun _ b _ _ => hyes a b) (fun t b ht hb => ?_) ?_)
    (fun a b s t h => ?_) a
  · rw [hf t ht] at hb
    cases hb
  · rw [hno]
    exact pure
  obtain ⟨o, u, hu, hg⟩ := bind_eq_ok h
  cases o with
  | none =>
      rw [hno] at hg
      cases hg
  | some c =>
      have hle := ((hpay a c u).ok hg).rest.length_le
      rw [Grammar.acceptMap] at hu
      split at hu
      · next x xs hrest =>
        split at hu
        · cases hu
          simp only [State.drop, hrest, List.drop_one, List.tail_cons, List.length_cons] at hle ⊢
          omega
        · cases hu
      · cases hu

/-! ### Expressions -/

structure RulesFence (q : List Token) (line : Nat) (inner : Rules) : Prop where
  expression : Fences q line Fenced Fenced inner.expression
  operand : Fences q line Fenced Fenced inner.operand
  statement : Fences q line Fenced (· = []) inner.statement
  pay : ExpressionsPay inner

section

variable {what : Listed} {item : Rule α}

theorem entry_fences (h : Fences q line Fenced Fenced item) (read : Array α) :
    Fences q line Fenced Fenced (entry what item read) := by
  have hpush : Fences q line Fenced Fenced (do return read.push (← item)) :=
    .bind h fun _ => .pure
  rw [entry]
  split
  · exact .bind (.noteHere rfl) fun _ => hpush
  · exact hpush

theorem listOf_fences (h : Fences q line Fenced Fenced item)
    (hp : ∀ s, Pays 1 True False item s) : Fences q line Fenced Fenced (listOf what item) := by
  refine .bind (entry_fences h #[]) fun first => .bind (E := Fenced) ?_ fun _ => .pure
  refine .loop (fun t ht => ?_) (fun read => ?_) (fun read _ => ?_) (fun read _ s => ?_) first
  · simp [ht]
  · rfl
  · exact .bind (entry_fences h read) fun _ => .pure
  · exact (entry_pays hp read).bind fun _ _ _ _ => Pays.pure

theorem listUpToParen_fences {place : Place} (h : Fences q line Fenced Fenced item)
    (hp : ∀ s, Pays 1 True False item s) :
    Fences q line Fenced Fenced (listUpToParen what item place) := by
  have hend (entries : List α) : Fences q line Fenced Fenced
      (do let paren ← expectSymbol .rightParen place; return (entries, paren)) :=
    .expect (by decide) fun _ _ => .pure
  refine .ahead fun b => ?_
  cases b with
  | true => exact hend []
  | false => exact .bind (listOf_fences h hp) hend

end

section

variable {inner : Rules} (h : RulesFence q line inner)

include h

theorem primary_fences : Fences q line Fenced Fenced (primary inner) := by
  refine .acceptMap (fun _ _ _ _ => .pure) (fun t a ht ha => ?_) ?_
  · rw [ht] at ha
    cases ha
  refine .accept (by decide) (fun _ _ => .bind .freshId fun _ => .pure) ?_
  refine .accept (by decide) (fun _ _ => .bind h.expression fun _ => ?_) .refuse
  exact .expect (by decide) fun _ _ => .pure

theorem call_fences : Fences q line Fenced Fenced (call inner) := by
  have hpay := h.pay.expression False
  refine .bind (primary_fences h) (.loop (fun t ht => ?_) (fun _ => rfl) (fun callee _ => ?_)
    fun callee _ s => ?_)
  · simp [ht]
  · exact .bind (listUpToParen_fences h.expression hpay) fun _ => .pure
  · have hargs : Pays 0 False False (listUpToParen .arguments inner.expression .afterArguments) s :=
      listUpToParen_pays hpay
    exact (hargs.meager (by decide) (by decide)).bind fun _ _ _ _ => Pays.pure

theorem unary_fences : Fences q line Fenced Fenced (unary inner) :=
  .acceptIf (by decide) (fun _ _ _ => .bind h.operand fun _ => .pure) (call_fences h)

omit h in
theorem chain_fences {p : Kind → Bool} {join : Expr → Token → Expr → Expr} {operand : Rule Expr}
    (hp : p (.symbol .semicolon) = false) (ho : Fences q line Fenced Fenced operand)
    (hpay : ∀ s, Pays 1 True False operand s) :
    Fences q line Fenced Fenced (chain p join operand) := by
  refine .bind ho (.loop (fun t ht => ?_) (fun _ => rfl) (fun left _ => ?_) fun left _ s => ?_)
  · simp [ht, hp]
  · exact .bind ho fun _ => .pure
  · exact ((hpay _).meager (by decide) (by decide)).bind fun _ _ _ _ => Pays.pure

theorem disjunction_fences : Fences q line Fenced Fenced (disjunction inner) := by
  have hunary (s : State) : Pays 1 True False (unary inner) s := unary_pays h.pay
  have hterm (s : State) : Pays 1 True False (term inner) s := chain_pays (chain_pays hunary) s
  have hequality (s : State) : Pays 1 True False (equality inner) s :=
    chain_pays (chain_pays hterm) s
  have hcomparison : Fences q line Fenced Fenced (comparison inner) :=
    chain_fences rfl (chain_fences rfl (chain_fences rfl (unary_fences h) hunary)
      (chain_pays hunary)) hterm
  exact chain_fences rfl (chain_fences rfl (chain_fences rfl hcomparison (chain_pays hterm))
    hequality) (chain_pays hequality)

theorem assignment_fences : Fences q line Fenced Fenced (assignment inner) := by
  refine .bind (disjunction_fences h) fun target => .accept (by decide) (fun _ equals => ?_) .pure
  refine .bind h.expression fun value => ?_
  cases target with
  | read _ name => exact .bind .freshId fun _ => .pure
  | _ => exact .bind (.noteAt rfl) fun _ => .pure

/-! ### Statements -/

theorem varRest_fences : Fences q line Fenced (· = []) (varRest inner) := by
  refine .expect (by decide) fun _ name => .accept (by decide) (fun _ _ => ?_) ?_
  · exact .bind h.expression fun _ => .semicolon fun _ => .pure
  · exact .semicolon fun _ => .pure

theorem expressionStatement_fences : Fences q line Fenced (· = []) (expressionStatement inner) :=
  .bind h.expression fun _ => .semicolon fun _ => .pure

theorem printRest_fences : Fences q line Fenced (· = []) (printRest inner) :=
  .bind h.expression fun _ => .semicolon fun _ => .pure

theorem returnRest_fences (keyword : Token) :
    Fences q line Fenced (· = []) (returnRest inner keyword) := by
  have hvalue : Fences q line Fenced Fenced
      (optional (ahead (.symbol .semicolon)) inner.expression) := by
    refine .ahead fun b => ?_
    cases b with
    | true => exact .pure
    | false => exact .bind h.expression fun _ => .pure
  exact .bind hvalue fun _ => .semicolon fun _ => .pure

theorem ifRest_fences (hq : NoElse q) : Fences q line Fenced (· = []) (ifRest inner) := by
  refine .expect (by decide) fun _ _ => .bind h.expression fun _ => ?_
  refine .expect (by decide) fun _ _ => .bind h.statement fun _ => ?_
  exact .accept_else hq .pure

theorem whileRest_fences : Fences q line Fenced (· = []) (whileRest inner) := by
  refine .expect (by decide) fun _ _ => .bind h.expression fun _ => ?_
  exact .expect (by decide) fun _ _ => .bind h.statement fun _ => .pure

theorem statementRule_fences (hq : NoElse q) :
    Fences q line Fenced (· = []) (statementRule inner) := by
  refine .accept (by decide) (fun hu => absurd (by simp [unfenced]) hu) ?_
  refine .accept (by decide) (fun _ _ => ifRest_fences h hq) ?_
  refine .accept (by decide) (fun _ _ => whileRest_fences h) ?_
  refine .accept (by decide) (fun _ keyword => returnRest_fences h keyword) ?_
  refine .accept (by decide) (fun hu => absurd (by simp [unfenced]) hu) ?_
  exact .accept (by decide) (fun _ _ => printRest_fences h) (expressionStatement_fences h)

/-! ### Declarations -/

omit h in
/-- The body of a function or a class is never come to. -/
theorem leftBrace_fences {place : Place} {g : Token → Rule α} :
    Fences q line Fenced E (expectSymbol .leftBrace place >>= g) :=
  .expect (by decide) fun hu => absurd (by simp [unfenced]) hu

omit h in
theorem function_fences {c : Callee} : Fences q line Fenced E (function inner c) := by
  refine .expect (by decide) fun _ _ => .expect (by decide) fun _ _ => ?_
  have hname : Fences q line Fenced Fenced (expectName .parameter) := by
    rw [← bind_pure (expectName .parameter)]
    exact .expect (by decide) fun _ _ => .pure
  exact .bind (listUpToParen_fences hname fun _ => Pays.token) fun _ => leftBrace_fences

omit h in
theorem classRest_fences : Fences q line Fenced E (classRest inner) :=
  .expect (by decide) fun _ _ => leftBrace_fences

theorem declarationRule_fences :
    Fences q line Fenced (· = []) (declarationRule inner) := by
  refine .accept (by decide) (fun _ _ => classRest_fences) ?_
  refine .accept (by decide) (fun _ _ => .bind (E := (· = [])) function_fences fun _ => .pure) ?_
  exact .accept (by decide) (fun _ _ => varRest_fences h) h.statement

end

variable (line) in
theorem rules_fence (hq : NoElse q) (n : Nat) : RulesFence q line (rules n) := by
  induction n with
  | zero => exact ⟨.refuse, .refuse, .refuse, expressions_pay 0⟩
  | succ n ih =>
      exact ⟨.nested (assignment_fences ih), .nested (unary_fences ih),
        .nested (statementRule_fences ih hq), expressions_pay (n + 1)⟩

/-! ### Declarations one after the other -/

/-- What is left in front of the semicolon starts with a keyword, or nothing is left. -/
def Resumes (ts : List Token) : Prop :=
  ts = [] ∨ Fenced ts ∧ ∃ x ∈ ts.head?, startsStatement x.kind = true

/-- Recovery goes up to a keyword or past the semicolon, and no further. -/
theorem Fenced.recover {ts : List Token} (h : Fenced ts) (q : List Token) :
    toBoundary (ts ++ q) = toBoundary ts ∧ Resumes (ts.drop (toBoundary ts)) := by
  induction h with
  | @last t ht => simp [toBoundary, ht, Resumes]
  | @more t ts ht hts ih =>
      have hk : t.kind ≠ .symbol .semicolon := fun hk => ht (by simp [unfenced, hk])
      simp only [List.cons_append, toBoundary, if_neg hk, ih.1]
      cases hstart : startsStatement t.kind with
      | true => exact ⟨trivial, .inr ⟨.more ht hts, t, rfl, hstart⟩⟩
      | false => simpa using ih.2

theorem declaration_fenced {inner : Rules} (h : RulesFence q line inner) {s : State}
    (hs : Fenced s.rest) : ∃ o t, declaration inner s = .ok o t ∧
      declaration inner (s.plus q line) = .ok o (t.plus q line) ∧
      t.stops ≤ s.stops + 1 ∧ Resumes t.rest := by
  have hrule := declarationRule_fences h s hs
  rw [declaration, recovering, recovering]
  generalize declarationRule inner s = r, declarationRule inner (s.plus q line) = r' at hrule ⊢
  cases hrule with
  | ok ht hn => exact ⟨_, _, rfl, rfl, Nat.le_succ_of_le (Nat.le_of_eq hn), .inl ht⟩
  | @refused f t ht hn =>
      obtain ⟨hb, hresumes⟩ := ht.recover q
      refine ⟨none, _, rfl, ?_, ?_, hresumes⟩
      · simp [State.recover, State.drop, State.plus, hb,
          List.drop_append_of_le_length (toBoundary_le _)]
      · rw [← hn]
        simp only [State.stops, State.recover, State.drop, Array.countP_push]
        split <;> omega

variable (line) (hq : NoElse q)

include hq

/-- A declaration outside all blocks reads on, up to the semicolon at most. -/
theorem nextDeclaration_fenced {s : State} (hs : Fenced s.rest) (hd : s.depth = 0)
    (read : Array Stmt) : ∃ all t, nextDeclaration (rules maxDepth) read s = .ok all t ∧
      nextDeclaration (rules maxDepth) read (s.plus q line) = .ok all (t.plus q line) ∧
      Paid 0 s t ∧ s.position < t.position ∧ t.stops ≤ s.stops + 1 ∧ Resumes t.rest := by
  obtain ⟨o, t, ht, ht', hstops, hresumes⟩ :=
    declaration_fenced (rules_fence line hq maxDepth) hs
  obtain ⟨x, xs, hrest, -⟩ := hs.exists_cons
  have hlevels : s.depth + maxDepth = maxDepth := by rw [hd, Nat.zero_add]
  rcases declaration_ok (statements_pay maxDepth) hlevels (by simp [hrest]) ht with
    ⟨hlt, hp⟩ | ⟨-, hstuck, -⟩
  · have hplus : (t.plus q line).position ≠ (s.plus q line).position := Nat.ne_of_gt hlt
    refine ⟨o.elim read read.push, t, ?_, ?_, hp, hlt, hstops, hresumes⟩
    · rw [nextDeclaration_apply, ht]
      exact if_neg (Nat.ne_of_gt hlt)
    · rw [nextDeclaration_apply, ht']
      exact if_neg hplus
  · exact absurd (hd.symm.trans hstuck.1) (by decide)

/-- Declarations go on up to the semicolon, whatever is behind it. More than one of them is refused
only if a keyword at which recovery stops is between the first token and the semicolon. -/
theorem declarations_fenced {s : State} (hs : Fenced s.rest) (hd : s.depth = 0)
    (read : Array Stmt) : ∃ all t, t.rest = [] ∧ t.depth = 0 ∧
      ProgramLead read s all t ∧ ProgramLead read (s.plus q line) all (t.plus q line) ∧
      (t.stops ≤ s.stops + 1 ∨ ∃ x ∈ s.rest.tail, startsStatement x.kind = true) := by
  induction hl : s.rest.length using Nat.strongRecOn generalizing s read with
  | _ l ih =>
  obtain ⟨all, t, ht, ht', hp, hlt, hstops, hresumes⟩ :=
    nextDeclaration_fenced line hq hs hd read
  obtain ⟨y, ys, hrest, -⟩ := hs.exists_cons
  have hne : s.rest ≠ [] := by simp [hrest]
  have hne' : (s.plus q line).rest ≠ [] := by simp [State.rest_plus hrest]
  rcases hresumes with hend | ⟨hfenced, x, hx, hstart⟩
  · exact ⟨all, t, hend, hp.depth.trans hd, .next hne ht (.refl _ _), .next hne' ht' (.refl _ _),
      .inl hstops⟩
  · have hless : t.rest.length < l := by have := hp.position; omega
    obtain ⟨all', t', hend, hd', hlead, hlead', -⟩ :=
      ih _ hless hfenced (hp.depth.trans hd) all rfl
    refine ⟨all', t', hend, hd', .next hne ht hlead, .next hne' ht' hlead', .inr ⟨x, ?_, hstart⟩⟩
    have hsuffix : t.rest <:+ ys := by
      have hcases := hp.rest
      rw [hrest] at hcases
      refine (List.suffix_cons_iff.mp hcases).resolve_left fun he => ?_
      rw [he, ← hrest, hl] at hless
      exact Nat.lt_irrefl l hless
    rw [hrest]
    exact hsuffix.subset (List.mem_of_mem_head? hx)

end

end Lox.Grammar
