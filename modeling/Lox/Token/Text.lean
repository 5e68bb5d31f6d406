import Lox.Decimal.Text
import Lox.Token.Basic

/-!
Tokens as lines of a listing, and as JSON in a compact and an indented form.
-/

namespace Lox

/-- What stands after kind and text in a listing. -/
def Kind.literalText : Kind → String
  | .string contents => contents
  | .number value => Decimal.tokenText value
  | _ => "null"

def Token.text (t : Token) : String :=
  t.kind.name ++ " " ++ t.lexeme ++ " " ++ t.kind.literalText

namespace Json

def hexDigit (n : Nat) : Char := "0123456789abcdef".toList.getD n '0'

/-- The quote, the backslash and the characters below the blank are written by an escape. -/
def escape (c : Char) : List Char :=
  match c with
  | '"' => ['\\', '"']
  | '\\' => ['\\', '\\']
  | '\x08' => ['\\', 'b']
  | '\x0c' => ['\\', 'f']
  | '\n' => ['\\', 'n']
  | '\r' => ['\\', 'r']
  | '\t' => ['\\', 't']
  | c =>
    if c.toNat < 32 then ['\\', 'u', '0', '0', hexDigit (c.toNat / 16), hexDigit (c.toNat % 16)]
    else [c]

def quoted (s : String) : String := "\"" ++ String.ofList (s.toList.flatMap escape) ++ "\""

/-- A kind is its name, or its name with a payload. -/
inductive KindForm
  | name (text : String)
  | payload (name text : String)

def kindForm : Kind → KindForm
  | .string contents => .payload "STRING" (quoted contents)
  | .number value => .payload "NUMBER" (Decimal.jsonText value)
  | k => .name k.name

end Json

open Json in
def Token.json (t : Token) : String :=
  let kind := match kindForm t.kind with
    | .name n => quoted n
    | .payload n p => "\x7b" ++ quoted n ++ ":" ++ p ++ "\x7d"
  "\x7b\"token_type\":" ++ kind ++ ",\"lexeme\":" ++ quoted t.lexeme ++
    ",\"line\":" ++ toString t.line ++ "\x7d"

def jsonList (ts : List Token) : String :=
  "[" ++ ",".intercalate (ts.map Token.json) ++ "]"

open Json in
/-- A token over several lines, indented as an entry of a list. -/
def Token.jsonIndented (t : Token) : String :=
  let kind := match kindForm t.kind with
    | .name n => quoted n
    | .payload n p => "\x7b\n      " ++ quoted n ++ ": " ++ p ++ "\n    \x7d"
  "  \x7b\n    \"token_type\": " ++ kind ++ ",\n    \"lexeme\": " ++ quoted t.lexeme ++
    ",\n    \"line\": " ++ toString t.line ++ "\n  \x7d"

def jsonListIndented (ts : List Token) : String :=
  if ts = [] then "[]"
  else "[\n" ++ ",\n".intercalate (ts.map Token.jsonIndented) ++ "\n]"

end Lox
