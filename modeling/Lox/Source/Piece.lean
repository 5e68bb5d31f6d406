import Lox.Decimal.Binary
import Lox.Token.Basic

/-!
A source text as a row of pieces: blanks, comments, tokens and faulty stretches. `cut` takes the
first piece off a text and `pieces` goes on to the end, so that nothing of the text is lost.
-/

namespace Lox.Source

def isBlank (c : Char) : Bool := c = ' ' || c = '\r' || c = '\t' || c = '\n'

def isWordStart (c : Char) : Bool := c.isAlpha || c = '_'
def isWordPart (c : Char) : Bool := c.isAlphanum || c = '_'
def isNumberPart (c : Char) : Bool := c.isDigit || c = '.'

/-- The symbol that a character is by itself. -/
def symbolOf? : Char → Option Symbol
  | '(' => some .leftParen
  | ')' => some .rightParen
  | '\x7b' => some .leftBrace
  | '\x7d' => some .rightBrace
  | ',' => some .comma
  | '.' => some .dot
  | '-' => some .minus
  | '+' => some .plus
  | ';' => some .semicolon
  | '/' => some .slash
  | '*' => some .star
  | '!' => some .bang
  | '=' => some .equal
  | '>' => some .greater
  | '<' => some .less
  | _ => none

/-- The symbol that another makes together with an equal sign behind it. -/
def withEqual? : Symbol → Option Symbol
  | .bang => some .bangEqual
  | .equal => some .equalEqual
  | .greater => some .greaterEqual
  | .less => some .lessEqual
  | _ => none

/-- Characters that may occur outside strings and comments. -/
def isRecognizable (c : Char) : Bool :=
  isWordPart c || isBlank c || c = '"' || (symbolOf? c).isSome

inductive Piece
  | blank (c : Char)
  /-- Two slashes and the rest of their line. -/
  | comment (body : List Char)
  | token (kind : Kind) (lexeme : List Char)
  /-- A run of characters that may not occur. -/
  | unexpected (run : List Char)
  /-- A number with more than one point. -/
  | malformed (run : List Char)
  /-- A quote with no other quote behind it. -/
  | unterminated (body : List Char)
  deriving DecidableEq

def Piece.text : Piece → List Char
  | .blank c => [c]
  | .comment body => '/' :: '/' :: body
  | .token _ lexeme => lexeme
  | .unexpected run => run
  | .malformed run => run
  | .unterminated body => '"' :: body

/-- The double that a run of digits and at most one point denotes. -/
def numberOf? (run : List Char) : Option Float :=
  let front := run.takeWhile (· ≠ '.')
  let back := (run.dropWhile (· ≠ '.')).tail
  if '.' ∈ back then none
  else some (Decimal.ofDigits ((front ++ back).foldl (fun n c => 10 * n + (c.toNat - 48)) 0) back.length)

def wordKind (word : List Char) : Kind :=
  match Keyword.ofText? (String.ofList word) with
  | some k => .keyword k
  | none => .identifier

def cutString (rest : List Char) : Piece × List Char :=
  let body := rest.takeWhile (· ≠ '"')
  match rest.dropWhile (· ≠ '"') with
  | [] => (.unterminated body, [])
  | _ :: after => (.token (.string (String.ofList body)) ('"' :: body ++ ['"']), after)

def cutNumber (c : Char) (rest : List Char) : Piece × List Char :=
  let run := c :: rest.takeWhile isNumberPart
  let piece := match numberOf? run with
    | some x => .token (.number x) run
    | none => .malformed run
  (piece, rest.dropWhile isNumberPart)

def cutWord (c : Char) (rest : List Char) : Piece × List Char :=
  let word := c :: rest.takeWhile isWordPart
  (.token (wordKind word) word, rest.dropWhile isWordPart)

/-- A symbol, the longer one where two fit, or a comment. -/
def cutSymbol (s : Symbol) (c : Char) (rest : List Char) : Piece × List Char :=
  match rest with
  | [] => (.token (.symbol s) [c], [])
  | d :: after =>
    if s = .slash ∧ d = '/' then
      (.comment (after.takeWhile (· ≠ '\n')), after.dropWhile (· ≠ '\n'))
    else
      match withEqual? s with
      | some t => if d = '=' then (.token (.symbol t) [c, d], after) else (.token (.symbol s) [c], rest)
      | none => (.token (.symbol s) [c], rest)

def cutUnexpected (c : Char) (rest : List Char) : Piece × List Char :=
  (.unexpected (c :: rest.takeWhile (!isRecognizable ·)), rest.dropWhile (!isRecognizable ·))

/-- The first piece of the text with `c` in front of `rest`, and what is behind the piece. -/
def cut (c : Char) (rest : List Char) : Piece × List Char :=
  if isBlank c then (.blank c, rest)
  else if c = '"' then cutString rest
  else if c.isDigit then cutNumber c rest
  else if isWordStart c then cutWord c rest
  else
    match symbolOf? c with
    | some s => cutSymbol s c rest
    | none => cutUnexpected c rest

theorem length_dropWhile_le {α : Type} (p : α → Bool) (l : List α) :
    (l.dropWhile p).length ≤ l.length :=
  (List.dropWhile_suffix p).length_le

theorem length_cut_le (c : Char) (rest : List Char) : (cut c rest).2.length ≤ rest.length := by
  unfold cut
  split
  · exact Nat.le_refl _
  split
  · have h := length_dropWhile_le (· ≠ '"') rest
    simp only [cutString]
    split
    · exact Nat.zero_le _
    · next heq => rw [heq, List.length_cons] at h; exact Nat.le_of_succ_le h
  split
  · exact length_dropWhile_le _ _
  split
  · exact length_dropWhile_le _ _
  split
  · simp only [cutSymbol]
    split
    · exact Nat.le_refl _
    · next d after =>
      split
      · exact Nat.le_succ_of_le (length_dropWhile_le _ _)
      · split
        · split
          · exact Nat.le_succ _
          · exact Nat.le_refl _
        · exact Nat.le_refl _
  · exact length_dropWhile_le _ _

/-- The pieces of a text, in order. -/
def pieces (text : List Char) : List Piece := go [] text
where
  go (done : List Piece) : List Char → List Piece
    | [] => done.reverse
    | c :: rest => go ((cut c rest).1 :: done) (cut c rest).2
  termination_by text => text.length
  decreasing_by have := length_cut_le c rest; simp only [List.length_cons]; omega

/-! ### The pieces make up the text -/

theorem text_cutString (rest : List Char) :
    (cutString rest).1.text ++ (cutString rest).2 = '"' :: rest := by
  have h := List.takeWhile_append_dropWhile (p := (· ≠ '"')) (l := rest)
  have hq := List.head?_dropWhile_not (· ≠ '"') rest
  simp only [cutString]
  split
  · next heq => rw [heq, List.append_nil] at h; simp only [Piece.text, List.append_nil, h]
  · next d after heq =>
    rw [heq] at h hq
    obtain rfl : d = '"' := by simpa using hq
    simp only [Piece.text, List.cons_append, List.append_assoc, List.nil_append, h]

/-- Only the slash by itself is read as a slash, so two slashes are all that opens a comment. -/
theorem eq_slash_of_symbolOf? {c : Char} (h : symbolOf? c = some .slash) : c = '/' := by
  unfold symbolOf? at h
  split at h <;> simp_all

theorem text_cutSymbol {s : Symbol} {c : Char} (h : symbolOf? c = some s) (rest : List Char) :
    (cutSymbol s c rest).1.text ++ (cutSymbol s c rest).2 = c :: rest := by
  simp only [cutSymbol]
  split
  · rfl
  · next d after =>
    split
    · next hd =>
      obtain ⟨rfl, rfl⟩ := hd
      simp [Piece.text, eq_slash_of_symbolOf? h]
    · split
      · split <;> rfl
      · rfl

/-- The first piece and what is behind it make up the text. -/
theorem text_cut (c : Char) (rest : List Char) : (cut c rest).1.text ++ (cut c rest).2 = c :: rest := by
  unfold cut
  split
  · rfl
  split
  · next h => rw [h]; exact text_cutString rest
  split
  · simp only [cutNumber]
    split <;> simp [Piece.text]
  split
  · simp [cutWord, Piece.text]
  split
  · next h => exact text_cutSymbol h rest
  · simp [cutUnexpected, Piece.text]

theorem pieces.go_eq (done : List Piece) : (text : List Char) →
    pieces.go done text = done.reverse ++ pieces.go [] text
  | [] => by simp [pieces.go]
  | c :: rest => by
    rw [pieces.go, pieces.go, go_eq (_ :: done) (cut c rest).2, go_eq [_] (cut c rest).2]
    simp
termination_by text => text.length
decreasing_by all_goals have := length_cut_le c rest; simp only [List.length_cons]; omega

@[simp] theorem pieces_nil : pieces [] = [] := by simp [pieces, pieces.go]

theorem pieces_cons (c : Char) (rest : List Char) :
    pieces (c :: rest) = (cut c rest).1 :: pieces (cut c rest).2 := by
  rw [pieces, pieces.go, pieces.go_eq, pieces]
  rfl

/-- Nothing of a text is lost between its pieces. -/
theorem flatMap_text_pieces (text : List Char) : (pieces text).flatMap Piece.text = text := by
  match text with
  | [] => simp
  | c :: rest =>
    rw [pieces_cons, List.flatMap_cons, flatMap_text_pieces (cut c rest).2, text_cut]
termination_by text.length
decreasing_by have := length_cut_le c rest; simp only [List.length_cons]; omega

end Lox.Source
