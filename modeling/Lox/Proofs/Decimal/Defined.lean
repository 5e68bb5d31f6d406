import Mathlib
import Lox.Decimal.Binary

/-!
The double that digits denote is a number or too large for one, and never undefined. An undefined
result comes from an undefined operand, from two infinities or from two zeros; digits are read by
one division, whose divisor is a power of ten.
-/

open Float.Model
open Float.Model.UnpackedFloat

namespace Lox.Decimal

/-- The bits of an undefined double: an exponent of ones only and some fraction. -/
def NaNBits (b : BitVec Format.binary64.numBits) : Prop :=
  unpackExponent b = -1#_ ∧ unpackMantissa b ≠ 0#_

theorem nanBits_of_unpack {b : BitVec Format.binary64.numBits}
    (h : UnpackedFloat.unpack Format.binary64 b = .notANumber) : NaNBits b := by
  unfold UnpackedFloat.unpack at h
  simp only at h
  split at h
  · next he =>
    split at h
    · cases h
    · next hm => exact ⟨he, hm⟩
  · split at h
    · split at h <;> cases h
    · cases h

theorem not_nanBits_packComponents_zero (s : Sign) (e : BitVec 11) :
    ¬NaNBits (packComponents Format.binary64 s e 0) := fun h =>
  h.2 unpackMantissa_packComponents

/-- Only an undefined number is packed as one. -/
theorem not_nanBits_pack {f : UnpackedFloat} (hf : f ≠ .notANumber) :
    ¬NaNBits (UnpackedFloat.pack Format.binary64 f) := by
  cases f with
  | notANumber => exact absurd rfl hf
  | infinity s => exact not_nanBits_packComponents_zero s _
  | zero s => exact not_nanBits_packComponents_zero s _
  | finite s m e hm =>
    simp only [UnpackedFloat.pack]
    split
    · exact not_nanBits_packComponents_zero s _
    · next hsmall =>
      split
      · rintro ⟨he, -⟩
        rw [unpackExponent_packComponents] at he
        have hn := congrArg BitVec.toNat he
        rw [BitVec.toNat_ofNat, Nat.mod_eq_of_lt (by omega)] at hn
        simp only [BitVec.neg_one_eq_allOnes, BitVec.toNat_allOnes] at hn
        omega
      · rintro ⟨he, -⟩
        rw [unpackExponent_packComponents] at he
        exact absurd he (by decide)

theorem toBitVec_toBits_pack (f : UnpackedFloat) :
    (Float.Model.pack f).toBits.toBitVec = UnpackedFloat.pack Format.binary64 f := rfl

theorem unpack_pack_ne {f : UnpackedFloat} (hf : f ≠ .notANumber) :
    (Float.Model.pack f).unpack ≠ .notANumber := fun h =>
  not_nanBits_pack hf (nanBits_of_unpack h)

/-! ### Reading digits -/

theorem roundWithAccuracy_ne (spec : Format) (s : Sign) (m : Nat) (e : Int) (a : Accuracy) :
    roundWithAccuracy spec s m e a ≠ .notANumber := by
  unfold roundWithAccuracy
  simp only
  split <;> exact fun h => by cases h

theorem ofInt_ne (spec : Format) (n : Int) : UnpackedFloat.ofInt spec n ≠ .notANumber := by
  unfold UnpackedFloat.ofInt UnpackedFloat.normalize
  split
  · exact roundWithAccuracy_ne _ _ _ _ _
  · exact fun h => by cases h
  · exact roundWithAccuracy_ne _ _ _ _ _

def IsFinite : UnpackedFloat → Bool
  | .finite .. => true
  | _ => false

theorem div_ne (spec : Format) {f g : UnpackedFloat} (hf : f ≠ .notANumber) (hg : IsFinite g) :
    UnpackedFloat.div spec f g ≠ .notANumber := by
  cases g with
  | finite s m e hm =>
    cases f with
    | notANumber => exact absurd rfl hf
    | infinity s => exact fun h => by cases h
    | zero s => exact fun h => by cases h
    | finite s m e hm => exact roundWithAccuracy_ne _ _ _ _ _
  | _ => cases hg

theorem ofScientific_ne (spec : Format) (m p : Nat) :
    UnpackedFloat.ofScientific spec m (Int.negOfNat p) ≠ .notANumber := by
  unfold UnpackedFloat.ofScientific
  split
  · exact fun h => by cases h
  split
  · exact fun h => by cases h
  split
  · exact fun h => by cases h
  split
  · exact roundWithAccuracy_ne _ _ _ _ _
  · exact div_ne spec (fun h => by cases h) rfl

theorem isFinite_powerOfTen : ∀ (e : Nat) (h : e < Float.exactlyRepresentablePowersOfTen.size),
    IsFinite Float.exactlyRepresentablePowersOfTen[e].toModel.unpack := by
  decide +kernel

/-- What digits denote is packed from a number or an infinity. -/
theorem exists_pack_ofDigits (digits places : Nat) :
    ∃ f, f ≠ .notANumber ∧ ofDigits digits places = .ofModel (Float.Model.pack f) := by
  unfold ofDigits Float.ofScientific
  split
  · next h =>
    have hsize : Float.exactlyRepresentablePowersOfTen.size = 23 := rfl
    exact ⟨_, div_ne Format.binary64 (unpack_pack_ne (ofInt_ne _ _))
      (isFinite_powerOfTen places (by omega)), rfl⟩
  · exact ⟨_, ofScientific_ne Format.binary64 digits places, rfl⟩

/-! ### Its magnitude -/

theorem toNat_unpackExponent (b : BitVec Format.binary64.numBits) :
    (unpackExponent b).toNat = b.toNat / 2 ^ 52 % 2 ^ 11 := by
  rw [← Nat.shiftRight_eq_div_pow]
  exact BitVec.extractLsb_toNat ..

theorem toNat_unpackMantissa (b : BitVec Format.binary64.numBits) :
    (unpackMantissa b).toNat = b.toNat % 2 ^ 52 :=
  BitVec.extractLsb_toNat ..

theorem fields_of_undefined {x : Float} (h : magnitude x = .undefined) :
    x.toBits.toNat / 2 ^ 52 % 2 ^ 11 = 2047 ∧ x.toBits.toNat % 2 ^ 52 ≠ 0 := by
  unfold magnitude at h
  simp only [Nat.pow_eq] at h
  split at h
  · next hfield =>
    split at h
    · cases h
    · next hfraction => exact ⟨hfield, hfraction⟩
  · split at h <;> cases h

theorem nanBits_of_magnitude {m : Float.Model} (h : magnitude (.ofModel m) = .undefined) :
    NaNBits m.toBits.toBitVec := by
  obtain ⟨hfield, hfraction⟩ := fields_of_undefined h
  rw [show (Float.ofModel m).toBits.toNat = m.toBits.toBitVec.toNat from rfl] at hfield hfraction
  rw [← toNat_unpackExponent] at hfield
  rw [← toNat_unpackMantissa] at hfraction
  exact ⟨BitVec.eq_of_toNat_eq hfield, fun hzero => hfraction (congrArg BitVec.toNat hzero)⟩

theorem magnitude_ofDigits (digits places : Nat) : magnitude (ofDigits digits places) ≠ .undefined := by
  obtain ⟨f, hf, heq⟩ := exists_pack_ofDigits digits places
  rw [heq]
  intro h
  have hnan := nanBits_of_magnitude h
  rw [toBitVec_toBits_pack] at hnan
  exact not_nanBits_pack hf hnan

end Lox.Decimal
