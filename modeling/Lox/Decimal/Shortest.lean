import Lox.Decimal.Binary

/-!
The shortest decimal that reads back as a given double.

The reals that round to a double form an interval around it. Of the decimals in that interval the
ones with the fewest digits are looked for, and of those the nearest to the double. The search
tests, for one digit, two digits and so on, the two points of that decimal grid next to the double:
if any point of the grid lies in the interval, one of these two does. All of it is arithmetic on
whole numbers.
-/

namespace Lox.Decimal

/-- The number `coefficient * 10 ^ scale`. -/
structure Scaled where
  coefficient : Nat
  scale : Int
  deriving DecidableEq, Repr

/-- The reals that round to a double, as fractions over `unit`: from `low` to `high` with the double
itself at `value`, the ends included if `closed`. -/
structure Neighbourhood where
  low : Nat
  value : Nat
  high : Nat
  unit : Nat
  closed : Bool
  deriving DecidableEq, Repr

/-- Half a step of the mantissa on either side. Below a power of two the steps are half as wide,
save at the least exponent. An even mantissa wins the ties at the ends. -/
def Binary.neighbourhood (b : Binary) : Neighbourhood :=
  let step := Nat.pow 2 b.exponent.toNat
  let below := if b.mantissa = Nat.pow 2 52 ∧ b.exponent ≠ -1074 then 1 else 2
  { low := (4 * b.mantissa - below) * step
    value := 4 * b.mantissa * step
    high := (4 * b.mantissa + 2) * step
    unit := 4 * Nat.pow 2 (-b.exponent).toNat
    closed := b.mantissa % 2 = 0 }

def up (s : Int) : Nat := Nat.pow 10 s.toNat
def down (s : Int) : Nat := Nat.pow 10 (-s).toNat

/-- Whether `c * 10 ^ s` rounds to the double. -/
def Neighbourhood.contains (v : Neighbourhood) (c : Nat) (s : Int) : Bool :=
  let point := c * up s * v.unit
  let low := v.low * down s
  let high := v.high * down s
  if v.closed then low ≤ point && point ≤ high else low < point && point < high

def digitCount (n : Nat) : Nat :=
  if n < 10 then 1 else digitCount (n / 10) + 1

/-- The exponent `e` with `10 ^ e ≤ value < 10 ^ (e + 1)`. -/
def Neighbourhood.decade (v : Neighbourhood) : Int :=
  if v.unit ≤ v.value then (digitCount (v.value / v.unit) : Int) - 1
  else -(digitCount ((v.unit - 1) / v.value) : Int)

/-- Which of two equally near decimals is taken. -/
inductive Tie
  | upward
  | toEven
  deriving DecidableEq, Repr

/-- The point of the grid of multiples of `10 ^ s` that is taken for the double, if one rounds to
it. -/
def Neighbourhood.onGrid (v : Neighbourhood) (tie : Tie) (s : Int) : Option Nat :=
  let f := v.value * down s / (up s * v.unit)
  match v.contains f s, v.contains (f + 1) s with
  | false, false => none
  | true, false => some f
  | false, true => some (f + 1)
  | true, true =>
    match compare (2 * (v.value * down s)) ((2 * f + 1) * (up s * v.unit)) with
    | .lt => some f
    | .gt => some (f + 1)
    | .eq => if tie = .toEven ∧ f % 2 = 0 then some f else some (f + 1)

/-- Every digit of a finite magnitude. -/
def Binary.exact (b : Binary) : Scaled :=
  ⟨b.mantissa * Nat.pow 2 b.exponent.toNat * Nat.pow 5 (-b.exponent).toNat, min b.exponent 0⟩

/-- The decimal with the fewest digits that rounds to the magnitude, the nearest one if there are
several. Seventeen digits always suffice. -/
def Binary.shortest (tie : Tie) (b : Binary) : Scaled :=
  if b.mantissa = 0 then ⟨0, 0⟩
  else
    let v := b.neighbourhood
    let e := v.decade
    ((List.range 17).findSome? fun (n : Nat) =>
      (v.onGrid tie (e - n)).map (⟨·, e - n⟩)).getD b.exact

end Lox.Decimal
