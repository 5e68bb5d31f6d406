import Lox.Program
import Lox.Proofs.Grammar.Covered
import Mathlib.Logic.Relation

/-!
The calls of a reading. Statements and declarations are read at sites, and the rule of a site has
other sites read: `Call.Asks` says which, one constructor for each place where a rule of the grammar
stands in another. Rules for expressions hold no statement, so they are no sites.
-/

namespace Lox.Grammar

variable {α : Type} {s t : State}

/-! ### Series -/

/-- A series goes on up to where it closes: a program at the end, the body of a block or of a class
at its brace or at the end. -/
inductive Series
  | program
  | body

namespace Series

def closed : Series → Rule Bool
  | program => atEnd
  | body => atClose

def Closes : Series → State → Prop
  | program, s => s.rest = []
  | body, s => s.At (.symbol .rightBrace) ∨ s.rest = []

instance (p : Series) (s : State) : Decidable (p.Closes s) :=
  match p with
  | program => inferInstanceAs (Decidable (_ = _))
  | body => inferInstanceAs (Decidable (_ ∨ _))

theorem closes_of_nil {p : Series} (h : s.rest = []) : p.Closes s :=
  match p with
  | program => h
  | body => .inr h

theorem rest_ne_nil {p : Series} (h : ¬p.Closes s) : s.rest ≠ [] :=
  fun hs => h (closes_of_nil hs)

theorem closed_apply (p : Series) (s : State) : p.closed s = .ok (decide (p.Closes s)) s := by
  have hend : atEnd s = .ok (decide (s.rest = [])) s := by
    rw [atEnd]
    cases s.rest <;> rfl
  cases p with
  | program => exact hend
  | body =>
      rw [closed, atClose, bind_apply, ahead_apply]
      by_cases hs : s.At (.symbol .rightBrace)
      · simp only [hs, Closes]
        rfl
      · simp only [hs, Closes, false_or]
        exact hend

/-- One round of a series. -/
def round (p : Series) (item : α → Rule α) (read : α) : Rule (Option α) := do
  if ← p.closed then return none
  return some (← item read)

theorem round_of_closes {p : Series} {item : α → Rule α} {read : α} (h : p.Closes s) :
    p.round item read s = .ok none s := by
  rw [round, bind_apply, closed_apply, decide_eq_true h]
  rfl

theorem round_of_not_closes {p : Series} {item : α → Rule α} {read : α} (h : ¬p.Closes s) :
    p.round item read s = (do return some (← item read) : Rule (Option α)) s := by
  rw [round, bind_apply, closed_apply, decide_eq_false h]
  rfl

theorem round_eq_some {p : Series} {item : α → Rule α} {read b : α}
    (h : p.round item read s = .ok (some b) t) : ¬p.Closes s ∧ item read s = .ok b t := by
  by_cases hs : p.Closes s
  · rw [round_of_closes hs] at h
    cases h
  · rw [round_of_not_closes hs] at h
    obtain ⟨c, u, hc, hu⟩ := bind_eq_ok h
    cases hu
    exact ⟨hs, hc⟩

theorem round_eq_error {p : Series} {item : α → Rule α} {read : α} {e : Halt}
    (h : p.round item read s = .error e t) : ¬p.Closes s ∧ item read s = .error e t := by
  by_cases hs : p.Closes s
  · rw [round_of_closes hs] at h
    cases h
  · rw [round_of_not_closes hs] at h
    obtain he | ⟨c, u, -, hu⟩ := bind_eq_error h
    · exact ⟨hs, he⟩
    · cases hu

end Series

/-- The declarations of a series. -/
def declarations (p : Series) (inner : Rules) (read : Array Stmt) : Rule (Array Stmt) :=
  repeatedly read (p.round (nextDeclaration inner))

def nextMethod (inner : Rules) (read : Array Function) : Rule (Array Function) := do
  return read.push (← function inner .method)

/-- The methods of a class. -/
def methods (inner : Rules) (read : Array Function) : Rule (Array Function) :=
  repeatedly read (Series.body.round (nextMethod inner))

theorem program_eq (inner : Rules) : program inner = do
    let body ← declarations .program inner #[]
    return body.toList := rfl

theorem blockRule_eq (inner : Rules) : blockRule inner = do
    let body ← declarations .body inner #[]
    let _ ← expectSymbol .rightBrace .afterBlock
    return body.toList := rfl

theorem classRest_eq (inner : Rules) : classRest inner = do
    let name ← classHead
    let read ← methods inner #[]
    let _ ← expectSymbol .rightBrace .afterClassBody
    return .classDecl name read.toList := by
  have hround : Series.body.round (nextMethod inner) = fun read => do
      if ← atClose then return none
      return some (read.push (← function inner .method)) := by
    funext read
    simp only [Series.round, nextMethod, bind_assoc, pure_bind]
    rfl
  simp only [classRest, classHead, methods, hround, bind_assoc, pure_bind]

/-! ### Calls -/

inductive Site
  /-- The declarations of a series from here on. -/
  | series (p : Series)
  | declaration
  | statement
  | block
  | function (c : Callee)
  /-- The methods of a class from here on. -/
  | methods

/-- A site is read from a state on, with so many levels left. -/
structure Call where
  site : Site
  levels : Nat
  state : State

/-- One level further in. -/
def State.deeper (s : State) : State := { s with depth := s.depth + 1 }

theorem nested_eq_ok {what : Nesting} {r : Rule α} {a : α} (h : nested what r s = .ok a t) :
    ∃ u, r s.deeper = .ok a u ∧ t = { u with depth := u.depth - 1 } := by
  rw [nested] at h
  split at h
  · cases h
  · split at h
    · next b u hr => cases h; exact ⟨u, hr, rfl⟩
    · cases h

/-- A level further in a rule is refused as by itself, or because there is no such level. -/
theorem nested_eq_error {what : Nesting} {r : Rule α} {e : Halt} (h : nested what r s = .error e t) :
    (e = .refused ⟨s.line, .tooDeep what s.found⟩ ∧ t = s) ∨
      ∃ u, r s.deeper = .error e u ∧ t = { u with depth := u.depth - 1 } := by
  rw [nested] at h
  split at h
  · cases h; exact .inl ⟨rfl, rfl⟩
  · split at h
    · cases h
    · next c u hr => cases h; exact .inr ⟨u, hr, rfl⟩

namespace Call

/-- Reading at one site has another one read. Statements and blocks take a level, so they have
something read only where one is left. -/
inductive Asks : Call → Call → Prop
  | declaration {p n s} (hs : ¬p.Closes s) : Asks ⟨.series p, n, s⟩ ⟨.declaration, n, s⟩
  | declarations {p n s d t} (hs : ¬p.Closes s) (h : Grammar.declaration (rules n) s = .ok d t) :
      Asks ⟨.series p, n, s⟩ ⟨.series p, n, t⟩
  | function {n s} (hs : s.At (.keyword .kwFun)) :
      Asks ⟨.declaration, n, s⟩ ⟨.function .function, n, s.drop 1⟩
  | methods {n s name t} (hs : s.At (.keyword .kwClass)) (h : classHead (s.drop 1) = .ok name t) :
      Asks ⟨.declaration, n, s⟩ ⟨.methods, n, t⟩
  | statement {n s} (hs : ∀ k ∈ [Keyword.kwClass, .kwFun, .kwVar], ¬s.At (.keyword k)) :
      Asks ⟨.declaration, n, s⟩ ⟨.statement, n, s⟩
  | method {n s} (hs : ¬Series.body.Closes s) : Asks ⟨.methods, n, s⟩ ⟨.function .method, n, s⟩
  | otherMethods {n s f t} (hs : ¬Series.body.Closes s)
      (h : Grammar.function (rules n) .method s = .ok f t) :
      Asks ⟨.methods, n, s⟩ ⟨.methods, n, t⟩
  | body {c n s head t} (h : functionHead c s = .ok head t) :
      Asks ⟨.function c, n, s⟩ ⟨.block, n, t⟩
  | inside {n s} : Asks ⟨.block, n + 1, s⟩ ⟨.series .body, n, s.deeper⟩
  | braces {n s} (hs : s.At (.symbol .leftBrace)) :
      Asks ⟨.statement, n + 1, s⟩ ⟨.block, n, s.deeper.drop 1⟩
  | yes {n s e t} (hs : s.At (.keyword .kwIf))
      (h : conditionHead (rules n) .kwIf .afterIfCondition (s.deeper.drop 1) = .ok e t) :
      Asks ⟨.statement, n + 1, s⟩ ⟨.statement, n, t⟩
  | no {n s e t yes u} (hs : s.At (.keyword .kwIf))
      (h : conditionHead (rules n) .kwIf .afterIfCondition (s.deeper.drop 1) = .ok e t)
      (hy : (rules n).statement t = .ok yes u) (hu : u.At (.keyword .kwElse)) :
      Asks ⟨.statement, n + 1, s⟩ ⟨.statement, n, u.drop 1⟩
  | whileBody {n s e t} (hs : s.At (.keyword .kwWhile))
      (h : conditionHead (rules n) .kwWhile .afterWhileCondition (s.deeper.drop 1) = .ok e t) :
      Asks ⟨.statement, n + 1, s⟩ ⟨.statement, n, t⟩
  | forBody {n s clauses t} (hs : s.At (.keyword .kwFor))
      (h : forHead (rules n) (s.deeper.drop 1) = .ok clauses t) :
      Asks ⟨.statement, n + 1, s⟩ ⟨.statement, n, t⟩

/-- A call is met while another one is read. -/
def Meets : Call → Call → Prop := Relation.ReflTransGen Asks

/-- Reading a program from its first token on. -/
def ofTokens (tokens : List Token) (firstId : Nat) : Call :=
  ⟨.series .program, maxDepth, .start tokens firstId⟩

end Call

/-- The next token is a keyword that starts a statement, and no declaration. -/
def State.Leads (s : State) : Prop :=
  ∃ k ∈ [Keyword.kwPrint, .kwIf, .kwWhile, .kwFor, .kwReturn], s.At (.keyword k)

/-- No level is left for the statement that stands next. Its keyword is not passed over either. -/
def State.Stuck (s : State) : Prop := s.depth = maxDepth ∧ s.Leads

namespace Call

/-- The body of a block is met with all levels taken and in front of a keyword. -/
def Blocked (c : Call) : Prop := ∃ n u, c.Meets ⟨.series .body, n, u⟩ ∧ u.Stuck

theorem Blocked.of_meets {c c' : Call} (hm : c.Meets c') (h : c'.Blocked) : c.Blocked := by
  obtain ⟨n, u, hu, hstuck⟩ := h
  exact ⟨n, u, hm.trans hu, hstuck⟩

theorem Blocked.of_asks {c c' : Call} (ha : c.Asks c') (h : c'.Blocked) : c.Blocked :=
  h.of_meets (.single ha)

/-- Levels taken and levels left make up all, and a program is read with none taken. -/
structure Leveled (c : Call) : Prop where
  levels : c.state.depth + c.levels = maxDepth
  program : c.site = .series .program → c.levels = maxDepth

theorem ofTokens_leveled (tokens : List Token) (firstId : Nat) :
    (ofTokens tokens firstId).Leveled :=
  ⟨Nat.zero_add _, fun _ => rfl⟩

/-- Declarations can be stuck in a block only. -/
theorem blocked_of_stuck {p : Series} {n : Nat} (hc : (Call.mk (.series p) n s).Leveled)
    (h : s.Stuck) : (Call.mk (.series p) n s).Blocked := by
  cases p with
  | body => exact ⟨n, s, .refl, h⟩
  | program =>
      have hl := hc.levels
      have hn : n = 256 := hc.program rfl
      have hd : s.depth = 256 := h.1
      simp only [maxDepth] at hl
      omega

end Call

end Lox.Grammar
