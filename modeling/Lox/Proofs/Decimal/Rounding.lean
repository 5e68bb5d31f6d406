import Mathlib.Data.Nat.Cast.Field
import Mathlib.Tactic.Linarith
import Mathlib.Tactic.Positivity
import Lox.Proofs.Decimal.Reading

/-!
The numbers that round to a double. Every form in which a finite magnitude is written reads as a
number that rounds to it, and no number rounds to two of them.
-/

namespace Lox.Decimal

namespace Binary

variable {b c : Binary} {q : ℚ}

/-- The number itself. -/
def value (b : Binary) : ℚ := b.mantissa * 2 ^ b.exponent

/-- A quarter of a step of the mantissa. -/
def quarter (b : Binary) : ℚ := 2 ^ b.exponent / 4

/-- The quarters between the double and the lower end of what rounds to it. -/
def below (b : Binary) : Nat := if b.mantissa = Nat.pow 2 52 ∧ b.exponent ≠ -1074 then 1 else 2

/-- `q` rounds to the double: it is between the ends, and at an end only for an even mantissa. -/
structure Near (b : Binary) (q : ℚ) : Prop where
  low : ((4 * b.mantissa - b.below : Nat) : ℚ) * b.quarter ≤ q
  high : q ≤ ((4 * b.mantissa + 2 : Nat) : ℚ) * b.quarter
  inside : b.mantissa % 2 = 1 →
    ((4 * b.mantissa - b.below : Nat) : ℚ) * b.quarter < q ∧
      q < ((4 * b.mantissa + 2 : Nat) : ℚ) * b.quarter

/-- The mantissa has 53 bits at most, and fewer only at the least exponent. -/
structure Normal (b : Binary) : Prop where
  upper : b.mantissa < 2 ^ 53
  least : -1074 ≤ b.exponent
  lower : b.exponent ≠ -1074 → 2 ^ 52 ≤ b.mantissa

theorem quarter_pos (b : Binary) : 0 < b.quarter := by unfold quarter; positivity

theorem below_le (b : Binary) : b.below ≤ 2 := by unfold below; split <;> decide

theorem one_le_below (b : Binary) : 1 ≤ b.below := by unfold below; split <;> decide

theorem value_eq (b : Binary) : b.value = ((4 * b.mantissa : Nat) : ℚ) * b.quarter := by
  unfold value quarter
  push_cast
  ring

/-! ### Reading the test for a neighbour -/

theorem toNat_split (e : ℤ) (a : ℚ) (ha : a ≠ 0) : a ^ e.toNat = a ^ e * a ^ (-e).toNat := by
  rw [← zpow_natCast a e.toNat, ← zpow_natCast a (-e).toNat, ← zpow_add₀ ha]
  congr 1
  omega

/-- In the units of the neighbourhood and of the decimal, a number of quarters is a product. -/
theorem quarters_scaled (b : Binary) (n : Nat) (s : ℤ) :
    (n : ℚ) * b.quarter * ((b.neighbourhood.unit * down s : Nat) : ℚ) =
      ((n * Nat.pow 2 b.exponent.toNat * down s : Nat) : ℚ) := by
  simp only [neighbourhood, down, quarter, Nat.pow_eq]
  push_cast
  rw [toNat_split b.exponent 2 (by norm_num)]
  ring

theorem decimal_scaled (v : Neighbourhood) (k : Nat) (s : ℤ) :
    (k : ℚ) * 10 ^ s * ((v.unit * down s : Nat) : ℚ) = ((k * up s * v.unit : Nat) : ℚ) := by
  simp only [up, down, Nat.pow_eq]
  push_cast
  rw [toNat_split s 10 (by norm_num)]
  ring

theorem near_of_contains {k : Nat} {s : ℤ} (h : b.neighbourhood.contains k s = true) :
    b.Near ((k : ℚ) * 10 ^ s) := by
  have hunit : (0 : ℚ) < ((b.neighbourhood.unit * down s : Nat) : ℚ) := by
    simp only [neighbourhood, down, Nat.pow_eq]
    positivity
  have hpoint := decimal_scaled b.neighbourhood k s
  have hlow := quarters_scaled b (4 * b.mantissa - b.below) s
  have hhigh := quarters_scaled b (4 * b.mantissa + 2) s
  have hclosed : b.neighbourhood.closed = decide (b.mantissa % 2 = 0) := rfl
  simp only [Neighbourhood.contains] at h
  rw [show b.neighbourhood.low = (4 * b.mantissa - b.below) * Nat.pow 2 b.exponent.toNat from rfl,
    show b.neighbourhood.high = (4 * b.mantissa + 2) * Nat.pow 2 b.exponent.toNat from rfl,
    hclosed] at h
  -- The test compares whole numbers: ends and decimal times the one denominator of all three.
  split at h
  · next heven =>
    obtain ⟨hl, hh⟩ := Bool.and_eq_true_iff.mp h
    refine ⟨?_, ?_, fun hodd => absurd (of_decide_eq_true heven) (by omega)⟩
    · rw [← mul_le_mul_iff_of_pos_right hunit, hlow, hpoint]
      exact_mod_cast of_decide_eq_true hl
    · rw [← mul_le_mul_iff_of_pos_right hunit, hhigh, hpoint]
      exact_mod_cast of_decide_eq_true hh
  · obtain ⟨hl, hh⟩ := Bool.and_eq_true_iff.mp h
    have hl' : ((4 * b.mantissa - b.below : Nat) : ℚ) * b.quarter < (k : ℚ) * 10 ^ s := by
      rw [← mul_lt_mul_iff_of_pos_right hunit, hlow, hpoint]
      exact_mod_cast of_decide_eq_true hl
    have hh' : (k : ℚ) * 10 ^ s < ((4 * b.mantissa + 2 : Nat) : ℚ) * b.quarter := by
      rw [← mul_lt_mul_iff_of_pos_right hunit, hhigh, hpoint]
      exact_mod_cast of_decide_eq_true hh
    exact ⟨hl'.le, hh'.le, fun _ => ⟨hl', hh'⟩⟩

/-- A double rounds to itself. -/
theorem near_value (b : Binary) : b.Near b.value := by
  have hq := b.quarter_pos
  have hbelow := b.one_le_below
  have hle : ((4 * b.mantissa - b.below : Nat) : ℚ) ≤ ((4 * b.mantissa : Nat) : ℚ) := by
    exact_mod_cast Nat.sub_le _ _
  have hlt : ((4 * b.mantissa : Nat) : ℚ) < ((4 * b.mantissa + 2 : Nat) : ℚ) := by
    exact_mod_cast Nat.lt_add_of_pos_right (by decide)
  rw [value_eq]
  refine ⟨mul_le_mul_of_nonneg_right hle hq.le, (mul_lt_mul_of_pos_right hlt hq).le,
    fun hodd => ⟨?_, ?_⟩⟩
  · refine mul_lt_mul_of_pos_right ?_ hq
    exact_mod_cast Nat.sub_lt (by omega) (by omega)
  · exact mul_lt_mul_of_pos_right hlt hq

/-! ### The written forms -/

theorem contains_of_onGrid {v : Neighbourhood} {tie : Tie} {s : ℤ} {k : Nat}
    (h : v.onGrid tie s = some k) : v.contains k s = true := by
  unfold Neighbourhood.onGrid at h
  simp only at h
  split at h
  · cases h
  · next hf _ => cases h; exact hf
  · next hf => cases h; exact hf
  · next hf hs =>
    split at h
    · cases h; exact hf
    · cases h; exact hs
    · split at h <;> cases h
      · exact hf
      · exact hs

theorem value_exact (b : Binary) : b.exact.value = b.value := by
  have htwo : (2 : ℚ) ^ b.exponent.toNat = 2 ^ b.exponent * 2 ^ (-b.exponent).toNat :=
    toNat_split b.exponent 2 (by norm_num)
  have hten : (10 : ℚ) ^ min b.exponent 0 * (2 ^ (-b.exponent).toNat * 5 ^ (-b.exponent).toNat) = 1 := by
    rw [← mul_pow, show (2 : ℚ) * 5 = 10 by norm_num, ← zpow_natCast, ← zpow_add₀ (by norm_num),
      show min b.exponent 0 + ((-b.exponent).toNat : ℤ) = 0 by omega, zpow_zero]
  simp only [exact, Scaled.value, value, Nat.pow_eq]
  push_cast
  calc (b.mantissa : ℚ) * 2 ^ b.exponent.toNat * 5 ^ (-b.exponent).toNat * 10 ^ min b.exponent 0
      = b.mantissa * 2 ^ b.exponent *
          (10 ^ min b.exponent 0 * (2 ^ (-b.exponent).toNat * 5 ^ (-b.exponent).toNat)) := by
        rw [htwo]
        ring
    _ = b.mantissa * 2 ^ b.exponent := by rw [hten, mul_one]

/-- What is written with the fewest digits rounds to the double. -/
theorem near_shortest (tie : Tie) (b : Binary) : b.Near (b.shortest tie).value := by
  unfold shortest
  split
  · next hzero =>
    have hv : (⟨0, 0⟩ : Scaled).value = b.value := by simp [Scaled.value, value, hzero]
    rw [hv]
    exact near_value b
  · simp only
    cases hs : (List.range 17).findSome? fun n : Nat =>
        (b.neighbourhood.onGrid tie (b.neighbourhood.decade - n)).map
          (Scaled.mk · (b.neighbourhood.decade - n)) with
    | none =>
      rw [Option.getD_none, value_exact]
      exact near_value b
    | some d =>
      obtain ⟨n, -, hn⟩ := List.exists_of_findSome?_eq_some hs
      obtain ⟨k, hk, rfl⟩ := Option.map_eq_some_iff.mp hn
      exact near_of_contains (contains_of_onGrid hk)

theorem value_whole {n : Nat} (h : b.whole? = some n) : (n : ℚ) = b.value := by
  obtain ⟨m, e⟩ := b
  unfold whole? at h
  unfold value
  split at h
  · next k hk =>
    obtain rfl : e = Int.ofNat k := hk
    obtain rfl := Option.some.inj h
    simp [Nat.pow_eq]
  · next k hk =>
    obtain rfl : e = Int.negSucc k := hk
    simp only [Nat.pow_eq] at h
    split at h <;> cases h
    next hdvd =>
    rw [Nat.cast_div (Nat.dvd_of_mod_eq_zero hdvd) (by positivity), Int.negSucc_eq, zpow_neg,
      div_eq_mul_inv]
    norm_cast

/-! ### No number rounds to two doubles -/

/-- Of two doubles the one with the smaller exponent lies below, and the other has a full mantissa. -/
theorem Near.exponent_le (hb : b.Normal) (hc : c.Normal) (nb : b.Near q) (nc : c.Near q) :
    c.exponent ≤ b.exponent := by
  by_contra hlt
  have hexp : b.exponent < c.exponent := lt_of_not_ge hlt
  have hne : c.exponent ≠ -1074 := by have := hb.least; omega
  have hfull := hc.lower hne
  have hstep : 2 * b.quarter ≤ c.quarter := by
    have hpow : (2 : ℚ) ^ (b.exponent + 1) ≤ 2 ^ c.exponent := zpow_le_zpow_right₀ (by norm_num) hexp
    rw [zpow_add₀ (by norm_num), zpow_one] at hpow
    unfold quarter
    linarith
  have hmant : 2 ^ 54 - 1 ≤ 4 * c.mantissa - c.below := by
    have := c.below_le
    rcases Nat.eq_or_lt_of_le hfull with h | h
    · rw [show c.below = 1 from if_pos ⟨h.symm, hne⟩]; omega
    · omega
  have hlow : (2 ^ 54 - 1 : ℚ) * (2 * b.quarter) ≤ q :=
    calc (2 ^ 54 - 1 : ℚ) * (2 * b.quarter) ≤ ((4 * c.mantissa - c.below : Nat) : ℚ) * c.quarter := by
          have hcast : (2 ^ 54 - 1 : ℚ) ≤ ((4 * c.mantissa - c.below : Nat) : ℚ) := by
            have := (Nat.cast_le (α := ℚ)).mpr hmant
            norm_num at this ⊢
            exact this
          exact mul_le_mul hcast hstep (by have := b.quarter_pos; positivity) (Nat.cast_nonneg _)
      _ ≤ q := nc.low
  have hq := b.quarter_pos
  -- The ends meet at the greatest mantissa only, which is odd, so its end is left out.
  by_cases hend : b.mantissa = 2 ^ 53 - 1
  · have hhigh := (nb.inside (by omega)).2
    rw [hend] at hhigh
    norm_num at hhigh hlow
    linarith
  · have hhigh := nb.high
    have hcap : ((4 * b.mantissa + 2 : Nat) : ℚ) ≤ 2 ^ 55 - 6 := by
      have : 4 * b.mantissa + 2 ≤ 2 ^ 55 - 6 := by have := hb.upper; omega
      have := (Nat.cast_le (α := ℚ)).mpr this
      norm_num at this ⊢
      exact this
    have hcapped := hhigh.trans (mul_le_mul_of_nonneg_right hcap hq.le)
    norm_num at hcapped hlow
    linarith

theorem Near.mantissa_le (he : b.exponent = c.exponent) (nb : b.Near q) (nc : c.Near q) :
    c.mantissa ≤ b.mantissa := by
  by_contra hlt
  have hsame : c.quarter = b.quarter := by unfold quarter; rw [he]
  have hq := b.quarter_pos
  have hbelow := c.below_le
  have hends : ((4 * c.mantissa - c.below : Nat) : ℚ) * b.quarter ≤
      ((4 * b.mantissa + 2 : Nat) : ℚ) * b.quarter := by
    have := nc.low.trans nb.high
    rwa [hsame] at this
  have hle : 4 * c.mantissa - c.below ≤ 4 * b.mantissa + 2 := by
    exact_mod_cast le_of_mul_le_mul_right hends hq
  -- The two are next to each other, so one of the mantissas is odd and its end is left out.
  have hnext : 4 * c.mantissa - c.below = 4 * b.mantissa + 2 := by omega
  rcases Nat.mod_two_eq_zero_or_one b.mantissa with heven | hodd
  · have := (nc.inside (by omega)).1
    rw [hsame, hnext] at this
    exact absurd nb.high (not_le.mpr this)
  · have := (nb.inside hodd).2
    rw [← hnext, ← hsame] at this
    exact absurd nc.low (not_le.mpr this)

theorem Near.eq (hb : b.Normal) (hc : c.Normal) (nb : b.Near q) (nc : c.Near q) : b = c := by
  have he : b.exponent = c.exponent := le_antisymm (nc.exponent_le hc hb nb) (nb.exponent_le hb hc nc)
  have hm : b.mantissa = c.mantissa := le_antisymm (nc.mantissa_le he.symm nb) (nb.mantissa_le he nc)
  cases b
  cases c
  congr

end Binary

end Lox.Decimal
