import Lox.Decimal.Shortest

/-!
The written forms of numbers. `positional` and `scientific` lay out a decimal; `plain`, `whole` and
`interchange` are the forms of a double: digits only, with a mark on whole numbers, and as in JSON.
-/

namespace Lox.Decimal

/-- The digits of a decimal without zeros at the end, and where the point stands: the number is
`0.digits * 10 ^ point`. -/
structure Digits where
  digits : List Char
  point : Int
  deriving DecidableEq, Repr

def digitsOf (n : Nat) : List Char := Nat.toDigits 10 n

def Scaled.digits (d : Scaled) : Digits :=
  let cs := digitsOf d.coefficient
  ⟨(cs.reverse.dropWhile (· = '0')).reverse, cs.length + d.scale⟩

def zeros (n : Nat) : List Char := List.replicate n '0'

/-- The digits in front of the point and those behind it. -/
def Digits.split (d : Digits) : List Char × List Char :=
  match d.point with
  | .ofNat p => (d.digits.take p ++ zeros (p - d.digits.length), d.digits.drop p)
  | .negSucc p => ([], zeros (p + 1) ++ d.digits)

/-- Digits and a point, with no exponent; `whole` follows a number without fraction. -/
def Digits.positional (whole : String) (d : Digits) : String :=
  let (front, back) := d.split
  let front := if front = [] then ['0'] else front
  String.ofList front ++ if back = [] then whole else "." ++ String.ofList back

/-- One digit in front of the point and a signed exponent. -/
def Digits.scientific (d : Digits) : String :=
  let e := d.point - 1
  let mark := if e < 0 then "e-" else "e+"
  let mantissa := match d.digits with
    | [] => "0"
    | [c] => String.singleton c
    | c :: cs => String.singleton c ++ "." ++ String.ofList cs
  mantissa ++ mark ++ String.ofList (digitsOf e.natAbs)

def signed (x : Float) (text : String) : String :=
  if isNegative x then "-" ++ text else text

def infinityText : String := "inf"
def undefinedText : String := "NaN"

/-- The shortest digits that read back, never with an exponent. Of two equally near decimals the
greater is written. -/
def shortestText (x : Float) : String :=
  match magnitude x with
  | .undefined => undefinedText
  | .infinite => signed x infinityText
  | .finite b => signed x ((b.shortest .upward).digits.positional "")

/-- All digits of a whole number followed by `mark`; the shortest digits of any other. -/
def exactWhole (mark : String) (x : Float) : String :=
  match magnitude x with
  | .finite b =>
    match b.whole? with
    | some n => signed x (String.ofList (digitsOf n) ++ mark)
    | none => shortestText x
  | _ => shortestText x

/-- The form in which a program shows a number. -/
def plainText (x : Float) : String := exactWhole "" x

/-- The form of a number in the text of a tree. -/
def markedText (x : Float) : String := exactWhole ".0" x

/-- The form of a number beside its token: whole numbers below `10 ^ 15` are marked, and zero has
no sign. -/
def tokenText (x : Float) : String :=
  match magnitude x with
  | .finite b =>
    match b.whole? with
    | some n =>
      if n = 0 then "0.0"
      else if n < Nat.pow 10 15 then signed x (String.ofList (digitsOf n) ++ ".0")
      else shortestText x
    | none => shortestText x
  | _ => shortestText x

/-- The form of a number in JSON: positional from `10 ^ -5` up to `10 ^ 16`, scientific elsewhere,
and null for what is no number there. Of two equally near decimals the even one is written. -/
def jsonText (x : Float) : String :=
  match magnitude x with
  | .finite b =>
    if b.mantissa = 0 then signed x "0.0"
    else
      let d := (b.shortest .toEven).digits
      let e := d.point - 1
      signed x (if -5 ≤ e ∧ e < 16 then d.positional ".0" else d.scientific)
  | _ => "null"

end Lox.Decimal
