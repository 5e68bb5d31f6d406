/-!
Tokens: the symbols and reserved words of the language, and a token as a kind, the text it was
written with and a line.
-/

namespace Lox

inductive Symbol
  | leftParen | rightParen | leftBrace | rightBrace | comma | dot | minus | plus | semicolon
  | slash | star | bang | bangEqual | equal | equalEqual | greater | greaterEqual | less
  | lessEqual
  deriving DecidableEq, Repr

inductive Keyword
  | kwAnd | kwClass | kwElse | kwFalse | kwFun | kwFor | kwIf | kwNil | kwOr | kwPrint | kwReturn
  | kwSuper | kwThis | kwTrue | kwVar | kwWhile
  deriving DecidableEq, Repr

inductive Kind
  | symbol (s : Symbol)
  | keyword (k : Keyword)
  | identifier
  | string (contents : String)
  | number (value : Float)
  | eof
  deriving DecidableEq

structure Token where
  kind : Kind
  lexeme : String
  line : Nat
  deriving DecidableEq

def Symbol.all : List Symbol :=
  [.leftParen, .rightParen, .leftBrace, .rightBrace, .comma, .dot, .minus, .plus, .semicolon,
    .slash, .star, .bang, .bangEqual, .equal, .equalEqual, .greater, .greaterEqual, .less,
    .lessEqual]

def Symbol.text : Symbol → String
  | .leftParen => "("
  | .rightParen => ")"
  | .leftBrace => "\x7b"
  | .rightBrace => "\x7d"
  | .comma => ","
  | .dot => "."
  | .minus => "-"
  | .plus => "+"
  | .semicolon => ";"
  | .slash => "/"
  | .star => "*"
  | .bang => "!"
  | .bangEqual => "!="
  | .equal => "="
  | .equalEqual => "=="
  | .greater => ">"
  | .greaterEqual => ">="
  | .less => "<"
  | .lessEqual => "<="

def Symbol.name : Symbol → String
  | .leftParen => "LEFT_PAREN"
  | .rightParen => "RIGHT_PAREN"
  | .leftBrace => "LEFT_BRACE"
  | .rightBrace => "RIGHT_BRACE"
  | .comma => "COMMA"
  | .dot => "DOT"
  | .minus => "MINUS"
  | .plus => "PLUS"
  | .semicolon => "SEMICOLON"
  | .slash => "SLASH"
  | .star => "STAR"
  | .bang => "BANG"
  | .bangEqual => "BANG_EQUAL"
  | .equal => "EQUAL"
  | .equalEqual => "EQUAL_EQUAL"
  | .greater => "GREATER"
  | .greaterEqual => "GREATER_EQUAL"
  | .less => "LESS"
  | .lessEqual => "LESS_EQUAL"

def Keyword.all : List Keyword :=
  [.kwAnd, .kwClass, .kwElse, .kwFalse, .kwFun, .kwFor, .kwIf, .kwNil, .kwOr, .kwPrint, .kwReturn,
    .kwSuper, .kwThis, .kwTrue, .kwVar, .kwWhile]

def Keyword.text : Keyword → String
  | .kwAnd => "and"
  | .kwClass => "class"
  | .kwElse => "else"
  | .kwFalse => "false"
  | .kwFun => "fun"
  | .kwFor => "for"
  | .kwIf => "if"
  | .kwNil => "nil"
  | .kwOr => "or"
  | .kwPrint => "print"
  | .kwReturn => "return"
  | .kwSuper => "super"
  | .kwThis => "this"
  | .kwTrue => "true"
  | .kwVar => "var"
  | .kwWhile => "while"

def Keyword.name : Keyword → String
  | .kwAnd => "AND"
  | .kwClass => "CLASS"
  | .kwElse => "ELSE"
  | .kwFalse => "FALSE"
  | .kwFun => "FUN"
  | .kwFor => "FOR"
  | .kwIf => "IF"
  | .kwNil => "NIL"
  | .kwOr => "OR"
  | .kwPrint => "PRINT"
  | .kwReturn => "RETURN"
  | .kwSuper => "SUPER"
  | .kwThis => "THIS"
  | .kwTrue => "TRUE"
  | .kwVar => "VAR"
  | .kwWhile => "WHILE"

/-- The reserved word with the given spelling. -/
def Keyword.ofText? (s : String) : Option Keyword := Keyword.all.find? fun k => k.text = s

def Kind.name : Kind → String
  | .symbol s => s.name
  | .keyword k => k.name
  | .identifier => "IDENTIFIER"
  | .string _ => "STRING"
  | .number _ => "NUMBER"
  | .eof => "EOF"

/-- The kind with its payload blanked out. -/
def Kind.bare : Kind → Kind
  | .string _ => .string ""
  | .number _ => .number 0
  | k => k

/-- Kinds are alike when they differ at most in what a string or a number token carries. -/
def Kind.Alike (a b : Kind) : Prop := a.bare = b.bare

instance (a b : Kind) : Decidable (a.Alike b) := inferInstanceAs (Decidable (a.bare = b.bare))

/-- Tokens are alike when their kinds are, and text and line agree. -/
def Token.Alike (a b : Token) : Prop := a.kind.Alike b.kind ∧ a.lexeme = b.lexeme ∧ a.line = b.line

instance (a b : Token) : Decidable (a.Alike b) :=
  inferInstanceAs (Decidable (_ ∧ _ ∧ _))

end Lox
