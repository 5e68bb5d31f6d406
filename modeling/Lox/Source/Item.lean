import Lox.Fault
import Lox.Source.Piece

/-!
What a source text holds, line by line: its tokens, its faulty stretches and one end mark. An item
stands at the line on which its piece ends.
-/

namespace Lox.Source

inductive LexCause
  | unexpected (run : String)
  | malformedNumber (run : String)
  | unterminatedString
  deriving DecidableEq, Repr

def LexCause.message : LexCause → String
  | .unexpected run => "Unexpected character(s): '" ++ run ++ "'"
  | .malformedNumber run => "Malformed number literal '" ++ run ++ "'"
  | .unterminatedString => "Unterminated string."

inductive Item
  | token (t : Token)
  | fault (f : Fault LexCause)
  deriving DecidableEq

def Item.token? : Item → Option Token
  | .token t => some t
  | .fault _ => none

def Item.fault? : Item → Option (Fault LexCause)
  | .token _ => none
  | .fault f => some f

def Piece.newlines (p : Piece) : Nat := p.text.count '\n'

/-- Blanks and comments hold nothing. -/
def Piece.item? (line : Nat) : Piece → Option Item
  | .blank _ => none
  | .comment _ => none
  | .token kind lexeme => some (.token ⟨kind, String.ofList lexeme, line⟩)
  | .unexpected run => some (.fault ⟨line, .unexpected (String.ofList run)⟩)
  | .malformed run => some (.fault ⟨line, .malformedNumber (String.ofList run)⟩)
  | .unterminated _ => some (.fault ⟨line, .unterminatedString⟩)

/-- The line reached, and the items met on the way there, the last one first. -/
structure Progress where
  line : Nat := 1
  met : List Item := []

def Progress.add (s : Progress) (p : Piece) : Progress :=
  let line := s.line + p.newlines
  match p.item? line with
  | some i => ⟨line, i :: s.met⟩
  | none => ⟨line, s.met⟩

def Progress.items (s : Progress) : List Item :=
  (.token ⟨.eof, "", s.line⟩ :: s.met).reverse

def items (source : String) : List Item :=
  ((pieces source.toList).foldl Progress.add {}).items

def tokens (source : String) : List Token := (items source).filterMap Item.token?

def faults (source : String) : List (Fault LexCause) := (items source).filterMap Item.fault?

end Lox.Source
