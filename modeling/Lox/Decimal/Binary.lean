/-!
A double as a sign and a magnitude. A finite magnitude is exactly `mantissa * 2 ^ exponent`, so
whatever is written about it can be computed in whole numbers.
-/

namespace Lox.Decimal

/-- The finite magnitude `mantissa * 2 ^ exponent`. -/
structure Binary where
  mantissa : Nat
  exponent : Int
  deriving DecidableEq, Repr

inductive Magnitude
  | finite (b : Binary)
  | infinite
  | undefined
  deriving DecidableEq, Repr

def isNegative (x : Float) : Bool := x.toBits.toNat.testBit 63

/-- The fraction field is read against the exponent field: all ones is no finite number, zero has
no leading one, and every other has the leading one in front of its 52 bits. -/
def magnitude (x : Float) : Magnitude :=
  let bits := x.toBits.toNat
  let fraction : Nat := bits % Nat.pow 2 52
  let field : Nat := bits / Nat.pow 2 52 % Nat.pow 2 11
  if field = 2047 then (if fraction = 0 then .infinite else .undefined)
  else if field = 0 then .finite ⟨fraction, -1074⟩
  else .finite ⟨Nat.pow 2 52 + fraction, (field : Int) - 1075⟩

/-- The whole number that a magnitude is, if it is one. -/
def Binary.whole? (b : Binary) : Option Nat :=
  match b.exponent with
  | .ofNat k => some (b.mantissa * Nat.pow 2 k)
  | .negSucc k =>
    let unit := Nat.pow 2 (k + 1)
    if b.mantissa % unit = 0 then some (b.mantissa / unit) else none

/-- The double nearest to `digits / 10 ^ places`. -/
def ofDigits (digits places : Nat) : Float := Float.ofScientific digits true places

end Lox.Decimal
