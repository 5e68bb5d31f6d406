import Lox.Proofs.Grammar.Completeness

/-!
Faults that do not end the reading: a list that is too long, and an equal sign behind something that
is no name. Each is noted once, wherever it stands, and nothing but the right side of such an equal
sign is lost.
-/

namespace Lox.Grammar

namespace Raw

/-- A list with an entry too many. -/
def Check.tooLong (what : Listed) : Check → Bool
  | .list what' entries => what' = what && maxArity < entries.length
  | .assignment _ _ => false

/-- An equal sign behind something that is no name. -/
def Check.noName : Check → Bool
  | .list _ _ => false
  | .assignment target _ => !target.isName

/-- As many faults of a cause are found as there are checks that fail for it. -/
theorem countP_failed {p : Fault SyntaxCause → Bool} {q : Check → Bool}
    (h : ∀ c : Check, c.fault?.any p = q c) (checks : List Check) :
    (failed checks).countP p = checks.countP q := by
  rw [failed, List.countP_filterMap]
  refine List.countP_congr fun c _ => ?_
  rw [← h c]
  cases c.fault? <;> rfl

theorem countP_tooMany (what : Listed) (checks : List Check) :
    (failed checks).countP (·.cause = .tooMany what) = checks.countP (Check.tooLong what) := by
  refine countP_failed (fun c => ?_) checks
  cases c with
  | list what' entries =>
      rw [Check.tooLong, Check.fault?]
      rcases Nat.lt_or_ge maxArity entries.length with hl | hl
      · simp [hl]
      · simp [Nat.not_lt.mpr hl]
  | assignment target equal =>
      rw [Check.fault?]
      split <;> rfl

theorem countP_invalidTarget (checks : List Check) :
    (failed checks).countP (·.cause = .invalidTarget) = checks.countP Check.noName := by
  refine countP_failed (fun c => ?_) checks
  cases c with
  | list what entries =>
      rw [Check.fault?]
      cases entries[maxArity]? <;> rfl
  | assignment target equal =>
      rw [Check.fault?, Check.noName]
      cases target.isName <;> rfl

end Raw

/-- Tokens that derive from the relaxed grammar are read as the tree of the derivation, with every
assignment to something else than a name replaced by its left side. The faults are noted in the
order of `faults`: one for each list that is too long, at the line of the first entry too many, and
one for each equal sign behind something else than a name, at its line. -/
theorem soft_faults_drop_nothing {tokens : List Token} {body : List Raw.Stmt}
    (hd : Raw.ProgramDerives maxDepth (upToEnd tokens) body) (firstId : Nat) :
    ∃ p, Program.ofTokens? tokens firstId = some p ∧
      Stmt.listUnnumbered p.statements = Raw.Stmt.listRepaired body ∧
      p.faults = Raw.Stmt.listFaults body ∧
      p.faults.Perm ((Raw.Stmt.listChecks body).filterMap Raw.Check.fault?) ∧
      (∀ what, p.faults.countP (·.cause = .tooMany what) =
        (Raw.Stmt.listChecks body).countP (Raw.Check.tooLong what)) ∧
      p.faults.countP (·.cause = .invalidTarget) =
        (Raw.Stmt.listChecks body).countP Raw.Check.noName := by
  obtain ⟨p, hp, hf, hb⟩ := ofTokens?_of_raw firstId hd
  have hperm : p.faults.Perm (Raw.failed (Raw.Stmt.listChecks body)) :=
    hf ▸ Raw.Stmt.listFaults_perm body
  refine ⟨p, hp, hb, hf, hperm, fun what => ?_, ?_⟩
  · rw [hperm.countP_eq, Raw.countP_tooMany]
  · rw [hperm.countP_eq, Raw.countP_invalidTarget]

/-! ### A call with too many arguments, assigned to -/

def nilToken : Token := ⟨.keyword .kwNil, "nil", 1⟩

def nilRaw : Raw.Expr := .literal nilToken .nil

theorem nilRaw_derives (n : Nat) : Raw.Derives n .call [nilToken] nilRaw :=
  .alone rfl (.literal .nil)

/-- One `nil` and that many more, with commas between them. -/
def nils : Nat → List Token
  | 0 => [nilToken]
  | k + 1 => nilToken :: ⟨.symbol .comma, ",", 1⟩ :: nils k

theorem nils_separated (k : Nat) : Separated (List.replicate (k + 1) [nilToken]) (nils k) := by
  induction k with
  | zero => exact .one _
  | succ k ih => exact .more rfl ih

def nameToken (lexeme : String) : Token := ⟨.identifier, lexeme, 1⟩

def parenToken : Token := ⟨.symbol .rightParen, ")", 1⟩

def openToken : Token := ⟨.symbol .leftParen, "(", 1⟩

def semicolonToken : Token := ⟨.symbol .semicolon, ";", 4⟩

def equalAt (line : Nat) : Token := ⟨.symbol .equal, "=", line⟩

/-- The statement `f(nil, ...) = nil = g = nil;` with one and that many more arguments. -/
def crowded (k : Nat) : List Token :=
  (nameToken "f" :: openToken :: (nils k ++ [parenToken])) ++
    equalAt 2 :: [nilToken, equalAt 3, nameToken "g", equalAt 4, nilToken, semicolonToken]

def crowdedRaw (k : Nat) : Raw.Stmt :=
  .expression (.assign (.call (.read (nameToken "f")) parenToken (List.replicate (k + 1) nilRaw))
    (equalAt 2) (.assign nilRaw (equalAt 3) (.assign (.read (nameToken "g")) (equalAt 4) nilRaw)))

theorem crowded_derives (k : Nat) : Raw.ProgramDerives maxDepth (crowded k) [crowdedRaw k] := by
  have hread (n : Nat) (lexeme : String) :
      Raw.Derives n .call [nameToken lexeme] (.read (nameToken lexeme)) := .alone rfl (.read rfl)
  have hargs (a) (ha : a ∈ List.replicate (k + 1) ([nilToken], nilRaw)) :
      Raw.Derives 254 .expression a.1 a.2 := by
    obtain rfl := List.eq_of_mem_replicate ha
    exact .expression (.alone rfl (nilRaw_derives 253).operand)
  have hcall : Raw.Derives 254 .call ([nameToken "f"] ++ openToken :: (nils k ++ [parenToken]))
      (.call (.read (nameToken "f")) parenToken _) :=
    .call (hread 254 "f") rfl (by rw [List.map_replicate]; exact nils_separated k) hargs rfl
  rw [List.map_replicate] at hcall
  have hinner : Raw.Derives 252 .assignment ([nameToken "g"] ++ equalAt 4 :: [nilToken]) _ :=
    .assign (hread 252 "g").operand rfl (.alone rfl (nilRaw_derives 251).operand)
  have hvalue : Raw.Derives 253 .assignment ([nilToken] ++ equalAt 3 :: _) _ :=
    .assign (nilRaw_derives 253).operand rfl hinner
  have hall : Raw.Derives 254 .assignment (_ ++ equalAt 2 :: _) _ :=
    .assign hcall.operand rfl hvalue
  have hstatement : Raw.ExpressionDerives 255 (_ ++ [semicolonToken]) _ :=
    .intro (.expression hall) rfl
  have hdeclaration : Raw.DeclarationDerives maxDepth (crowded k) (crowdedRaw k) := by
    simpa [crowded, crowdedRaw, maxDepth] using
      Raw.DeclarationDerives.statement (.expression hstatement)
  exact ⟨[(crowded k, crowdedRaw k)], by simpa using hdeclaration, (List.append_nil _).symm, rfl⟩

theorem repaired_crowded (k : Nat) : (crowdedRaw k).repaired = .expression
    (.call (.read 0 (nameToken "f")) parenToken (List.replicate (k + 1) (.literal .nil))) := by
  simp only [crowdedRaw, Raw.Stmt.repaired, Raw.Expr.repaired, Raw.Expr.listRepaired_eq_map,
    List.map_replicate]
  rfl

/-- Three faults are noted: at the list and at two of the three equal signs. No argument is lost. -/
theorem crowded_keeps_its_call :
    Raw.ProgramDerives maxDepth (upToEnd (crowded 254)) [crowdedRaw 254] ∧
    ∃ p, Program.ofTokens? (crowded 254) 0 = some p ∧
      p.faults = [⟨1, .tooMany .arguments⟩, ⟨3, .invalidTarget⟩, ⟨2, .invalidTarget⟩] ∧
      Stmt.listUnnumbered p.statements = [.expression (.call (.read 0 (nameToken "f")) parenToken
        (List.replicate (254 + 1) (.literal .nil)))] := by
  have hend : upToEnd (crowded 254) = crowded 254 := by decide +kernel
  have hd : Raw.ProgramDerives maxDepth (upToEnd (crowded 254)) [crowdedRaw 254] := by
    rw [hend]
    exact crowded_derives 254
  obtain ⟨p, hp, hb, hf, -⟩ := soft_faults_drop_nothing hd 0
  refine ⟨hd, p, hp, hf.trans ?_, hb.trans ?_⟩
  · decide +kernel
  · rw [Raw.Stmt.listRepaired_eq_map, List.map_cons, List.map_nil, repaired_crowded]

end Lox.Grammar
