import Lox.Grammar.Rules

/-!
Programs out of tokens. Whatever is wrong with the tokens, the statements that could be read are
kept beside the faults.
-/

namespace Lox

open Grammar

/-- What a list of tokens was read as. -/
structure Program where
  statements : List Stmt
  faults : List (Fault SyntaxCause)
  /-- The first identity that no occurrence in the program bears. -/
  nextId : Nat

/-- The line of the end: that of the end mark, or else that of the last token. -/
def closingLine (tokens : List Token) : Nat :=
  match tokens.find? fun t => t.kind = .eof with
  | some t => t.line
  | none => (tokens.getLast?.map Token.line).getD 1

/-- The state in which reading starts: whatever stands behind an end mark is not looked at. -/
def Grammar.State.start (tokens : List Token) (firstId : Nat) : State where
  rest := tokens.takeWhile fun t => t.kind ≠ .eof
  position := 0
  endLine := closingLine tokens
  depth := 0
  faults := #[]
  nextId := firstId

/-- Reads a program; `none` if reading would go on for ever. -/
def Program.ofTokens? (tokens : List Token) (firstId : Nat) : Option Program :=
  match program (rules maxDepth) (.start tokens firstId) with
  | .ok statements s => some ⟨statements, s.faults.toList, s.nextId⟩
  | .error _ _ => none

end Lox
