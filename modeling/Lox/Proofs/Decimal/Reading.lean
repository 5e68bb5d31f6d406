import Mathlib.Algebra.Order.Field.Power
import Mathlib.Data.List.TakeWhile
import Mathlib.Data.Rat.Cast.Order
import Mathlib.Tactic.FieldSimp
import Mathlib.Tactic.Ring
import Lox.Decimal.Text

/-!
What the digits of a decimal say. `reading` takes digits and a point for the number they denote,
and `positional` is undone by it: the text of a decimal reads as the decimal.
-/

namespace Lox.Decimal

/-- The number written by digits with at most one point between them. -/
def reading (cs : List Char) : ℚ :=
  let back := (cs.dropWhile (· ≠ '.')).tail
  Nat.ofDigitChars 10 (cs.takeWhile (· ≠ '.') ++ back) 0 / 10 ^ back.length

/-- The number itself. -/
def Scaled.value (d : Scaled) : ℚ := d.coefficient * 10 ^ d.scale

/-- The number `0.digits * 10 ^ point`. -/
def Digits.value (d : Digits) : ℚ :=
  Nat.ofDigitChars 10 d.digits 0 * 10 ^ (d.point - d.digits.length)

theorem reading_point {front : List Char} (hf : '.' ∉ front) (back : List Char) :
    reading (front ++ '.' :: back) = Nat.ofDigitChars 10 (front ++ back) 0 / 10 ^ back.length := by
  have hall : ∀ c ∈ front, decide (c ≠ '.') = true := fun c hc =>
    decide_eq_true fun e => hf (e ▸ hc)
  simp only [reading]
  rw [List.takeWhile_append_of_pos hall, List.dropWhile_append_of_pos hall]
  simp

theorem reading_whole {front : List Char} (hf : '.' ∉ front) :
    reading front = Nat.ofDigitChars 10 front 0 := by
  have hall : ∀ c ∈ front, decide (c ≠ '.') = true := fun c hc =>
    decide_eq_true fun e => hf (e ▸ hc)
  simp only [reading]
  rw [List.takeWhile_eq_self_iff.mpr hall, List.dropWhile_eq_nil_iff.mpr hall]
  simp

theorem ofDigitChars_zeros_append (k : Nat) (cs : List Char) :
    Nat.ofDigitChars 10 (zeros k ++ cs) 0 = Nat.ofDigitChars 10 cs 0 := by
  rw [Nat.ofDigitChars_append, zeros, Nat.ofDigitChars_replicate_zero, Nat.mul_zero]

theorem ofDigitChars_append_zeros (cs : List Char) (k : Nat) :
    Nat.ofDigitChars 10 (cs ++ zeros k) 0 = Nat.ofDigitChars 10 cs 0 * 10 ^ k := by
  rw [Nat.ofDigitChars_append, zeros, Nat.ofDigitChars_replicate_zero, Nat.mul_comm]

theorem mem_zeros {c : Char} {k : Nat} (h : c ∈ zeros k) : c = '0' := List.eq_of_mem_replicate h

theorem isDigit_of_mem_zeros {c : Char} {k : Nat} (h : c ∈ zeros k) : c.isDigit := by
  rw [mem_zeros h]; decide

theorem isDigit_of_mem_digitsOf {n : Nat} {c : Char} (h : c ∈ digitsOf n) : c.isDigit :=
  Nat.isDigit_of_mem_toDigits (by decide) (by decide) h

theorem point_notMem {cs : List Char} (h : ∀ c ∈ cs, c.isDigit) : '.' ∉ cs := fun hp =>
  absurd (h _ hp) (by decide)

/-! ### The zeros at the end -/

/-- The digits that are kept, and zeros, are all digits of the coefficient. -/
theorem exists_zeros_end (d : Scaled) : ∃ k, d.digits.digits ++ zeros k = digitsOf d.coefficient := by
  let back := (digitsOf d.coefficient).reverse
  have hsplit := List.takeWhile_append_dropWhile (p := (· = '0')) (l := back)
  obtain ⟨k, hk⟩ : ∃ k, back.takeWhile (· = '0') = zeros k :=
    ⟨_, List.eq_replicate_of_mem fun c hc =>
      of_decide_eq_true (List.all_eq_true.mp List.all_takeWhile c hc)⟩
  rw [hk] at hsplit
  refine ⟨k, ?_⟩
  simpa [zeros, back, Scaled.digits] using congrArg List.reverse hsplit

theorem value_digits (d : Scaled) : d.digits.value = d.value := by
  obtain ⟨k, hk⟩ := exists_zeros_end d
  have hn : Nat.ofDigitChars 10 (digitsOf d.coefficient) 0 = d.coefficient :=
    Nat.ofDigitChars_ten_toDigits
  have hlen := congrArg List.length hk
  rw [List.length_append, zeros, List.length_replicate] at hlen
  rw [← hk, ofDigitChars_append_zeros] at hn
  have hpoint : d.digits.point - d.digits.digits.length = k + d.scale := by
    rw [show d.digits.point = (digitsOf d.coefficient).length + d.scale from rfl]
    omega
  rw [Digits.value, Scaled.value, hpoint, zpow_add₀ (by norm_num), zpow_natCast, ← mul_assoc]
  congr 1
  exact_mod_cast hn

theorem isDigit_of_mem_digits {d : Scaled} {c : Char} (h : c ∈ d.digits.digits) : c.isDigit := by
  obtain ⟨k, hk⟩ := exists_zeros_end d
  exact isDigit_of_mem_digitsOf (hk ▸ List.mem_append_left _ h)

/-! ### In front of the point and behind it -/

namespace Digits

variable {d : Digits}

theorem isDigit_of_mem_split (hd : ∀ c ∈ d.digits, c.isDigit) {c : Char}
    (h : c ∈ d.split.1 ∨ c ∈ d.split.2) : c.isDigit := by
  unfold split at h
  split at h <;> simp only [List.mem_append, List.not_mem_nil, false_or] at h
  · rcases h with (h | h) | h
    · exact hd c (List.mem_of_mem_take h)
    · exact isDigit_of_mem_zeros h
    · exact hd c (List.mem_of_mem_drop h)
  · exact h.elim isDigit_of_mem_zeros (hd c)

theorem ofDigitChars_split (d : Digits) :
    (Nat.ofDigitChars 10 (d.split.1 ++ d.split.2) 0 : ℚ) / 10 ^ d.split.2.length = d.value := by
  have hten : (10 : ℚ) ≠ 0 := by norm_num
  obtain ⟨ds, point⟩ := d
  cases point with
  | ofNat p =>
    simp only [split, value]
    rcases Nat.le_total p ds.length with hp | hp
    · have hz : p - ds.length = 0 := by omega
      have hexp : (Int.ofNat p - ds.length : ℤ) = -((ds.length - p : Nat) : ℤ) := by
        simp only [Int.ofNat_eq_natCast]; omega
      rw [hz, zeros, List.replicate_zero, List.append_nil, List.take_append_drop, List.length_drop,
        hexp, zpow_neg, zpow_natCast, div_eq_mul_inv]
    · have hexp : (Int.ofNat p - ds.length : ℤ) = ((p - ds.length : Nat) : ℤ) := by
        simp only [Int.ofNat_eq_natCast]; omega
      rw [List.take_of_length_le hp, List.drop_of_length_le hp, List.append_nil,
        ofDigitChars_append_zeros, hexp, zpow_natCast, List.length_nil, pow_zero, div_one]
      push_cast
      rfl
  | negSucc p =>
    have hexp : (Int.negSucc p - ds.length : ℤ) = -((p + 1 + ds.length : Nat) : ℤ) := by omega
    simp only [split, value, List.nil_append]
    rw [ofDigitChars_zeros_append, hexp, zpow_neg, zpow_natCast, div_eq_mul_inv, List.length_append,
      zeros, List.length_replicate]

/-- A text without digits in front of the point gets a zero there. -/
def front (d : Digits) : List Char := if d.split.1 = [] then ['0'] else d.split.1

theorem front_ne_nil (d : Digits) : d.front ≠ [] := by
  unfold front
  split
  · exact List.cons_ne_nil _ _
  · assumption

theorem isDigit_of_mem_front (hd : ∀ c ∈ d.digits, c.isDigit) {c : Char} (h : c ∈ d.front) :
    c.isDigit := by
  unfold front at h
  split at h
  · rw [List.mem_singleton.mp h]; decide
  · exact isDigit_of_mem_split hd (.inl h)

theorem ofDigitChars_front (d : Digits) (back : List Char) :
    Nat.ofDigitChars 10 (d.front ++ back) 0 = Nat.ofDigitChars 10 (d.split.1 ++ back) 0 := by
  unfold front
  split
  · next h => rw [h]; exact ofDigitChars_zeros_append 1 back
  · rfl

theorem toList_positional (d : Digits) :
    (d.positional "").toList = d.front ++ if d.split.2 = [] then [] else '.' :: d.split.2 := by
  rw [show d.positional "" = String.ofList d.front ++
    if d.split.2 = [] then "" else "." ++ String.ofList d.split.2 from rfl]
  split <;> simp

/-- The text of a decimal reads as the decimal. -/
theorem reading_positional (hd : ∀ c ∈ d.digits, c.isDigit) :
    reading (d.positional "").toList = d.value := by
  have hf : '.' ∉ d.front := point_notMem fun c hc => isDigit_of_mem_front hd hc
  have hv := ofDigitChars_split d
  rw [toList_positional]
  split
  · next hb =>
    rw [hb] at hv
    rw [List.append_nil, reading_whole hf, ← hv, ← List.append_nil d.front, ofDigitChars_front]
    simp
  · rw [reading_point hf, ofDigitChars_front, hv]

end Digits

/-- A whole number with its mark reads as the number. -/
theorem reading_marked (n : Nat) : reading (digitsOf n ++ ['.', '0']) = n := by
  rw [reading_point (point_notMem fun _ => isDigit_of_mem_digitsOf),
    show (['0'] : List Char) = zeros 1 from rfl, ofDigitChars_append_zeros,
    show Nat.ofDigitChars 10 (digitsOf n) 0 = n from Nat.ofDigitChars_ten_toDigits]
  simp [zeros]

end Lox.Decimal
