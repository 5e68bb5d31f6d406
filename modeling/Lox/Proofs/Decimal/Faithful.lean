import Lox.Proofs.Decimal.Rounding

/-!
The text of a finite double determines the double: the sign stands in front, and what is behind it
reads as a number that rounds to this double and to no other.
-/

namespace Lox.Decimal

/-- The text of a finite magnitude. -/
def Binary.marked (b : Binary) : List Char :=
  match b.whole? with
  | some n => digitsOf n ++ ['.', '0']
  | none => ((b.shortest .upward).digits.positional "").toList

def signMark (x : Float) : List Char := if isNegative x then ['-'] else []

theorem toList_signed (x : Float) (text : String) :
    (signed x text).toList = signMark x ++ text.toList := by
  unfold signed signMark
  split
  · rw [String.toList_append]; rfl
  · rfl

variable {x y : Float} {b c : Binary}

theorem toList_markedText (h : magnitude x = .finite b) :
    (markedText x).toList = signMark x ++ b.marked := by
  unfold markedText exactWhole Binary.marked
  cases hw : b.whole? with
  | none => simp only [h, hw, shortestText, toList_signed]
  | some n =>
    simp only [h, hw, toList_signed, String.toList_append, String.toList_ofList]
    rfl

theorem Binary.near_marked (b : Binary) : b.Near (reading b.marked) := by
  unfold marked
  split
  · next n hn =>
    rw [reading_marked, value_whole hn]
    exact near_value b
  · rw [Digits.reading_positional (fun _ => isDigit_of_mem_digits), value_digits]
    exact near_shortest .upward b

/-- The text begins with a digit and goes on with digits and points. -/
theorem Binary.exists_marked (b : Binary) :
    ∃ d cs, b.marked = d :: cs ∧ d.isDigit ∧ ∀ c ∈ cs, c.isDigit ∨ c = '.' := by
  have hparts : ∃ front back, b.marked = front ++ back ∧ front ≠ [] ∧ (∀ c ∈ front, c.isDigit) ∧
      ∀ c ∈ back, c.isDigit ∨ c = '.' := by
    unfold marked
    split
    · next n _ =>
      exact ⟨digitsOf n, ['.', '0'], rfl, Nat.toDigits_ne_nil, fun _ => isDigit_of_mem_digitsOf,
        by simp⟩
    · have hd : ∀ c ∈ (b.shortest .upward).digits.digits, c.isDigit := fun _ => isDigit_of_mem_digits
      refine ⟨_, _, Digits.toList_positional _, Digits.front_ne_nil _,
        fun _ => Digits.isDigit_of_mem_front hd, ?_⟩
      intro c hc
      split at hc
      · cases hc
      · exact (List.mem_cons.mp hc).elim .inr fun h => .inl (Digits.isDigit_of_mem_split hd (.inr h))
  obtain ⟨front, back, htext, hne, hfront, hback⟩ := hparts
  obtain ⟨d, front, rfl⟩ := List.exists_cons_of_ne_nil hne
  refine ⟨d, front ++ back, htext, hfront d (List.mem_cons_self ..), fun c hc => ?_⟩
  exact (List.mem_append.mp hc).elim (fun h => .inl (hfront c (List.mem_cons_of_mem _ h))) (hback c)

/-! ### The bits -/

theorem normal_of_magnitude (h : magnitude x = .finite b) : b.Normal := by
  unfold magnitude at h
  simp only [Nat.pow_eq] at h
  split at h
  · split at h <;> cases h
  split at h <;> cases h
  · exact ⟨by simp only; omega, Int.le_refl _, fun hne => absurd rfl hne⟩
  · exact ⟨by simp only; omega, by simp only; omega, fun _ => Nat.le_add_right _ _⟩

theorem eq_of_toBits (h : x.toBits = y.toBits) : x = y := by
  obtain ⟨⟨_, _⟩⟩ := x
  obtain ⟨⟨_, _⟩⟩ := y
  obtain rfl := h
  rfl

/-- Sign and magnitude make up a double. -/
theorem eq_of_magnitude (hsign : isNegative x = isNegative y) (hx : magnitude x = .finite b)
    (hy : magnitude y = .finite b) : x = y := by
  have hltx := x.toBits.toNat_lt
  have hlty := y.toBits.toNat_lt
  refine eq_of_toBits (UInt64.toNat_inj.mp ?_)
  unfold isNegative at hsign
  rw [Nat.testBit_eq_decide_div_mod_eq, Nat.testBit_eq_decide_div_mod_eq, decide_eq_decide] at hsign
  unfold magnitude at hx hy
  simp only [Nat.pow_eq] at hx hy
  generalize x.toBits.toNat = m at *
  generalize y.toBits.toNat = n at *
  split at hx
  · split at hx <;> cases hx
  split at hy
  · split at hy <;> cases hy
  -- A fraction below a leading one and a fraction by itself give different mantissas.
  split at hx <;> split at hy <;> cases hx <;>
    simp only [Magnitude.finite.injEq, Binary.mk.injEq] at hy <;> omega

/-! ### The text -/

theorem signMark_append (hsame : signMark x ++ b.marked = signMark y ++ c.marked) :
    isNegative x = isNegative y ∧ b.marked = c.marked := by
  obtain ⟨d, cs, hb, hd, -⟩ := b.exists_marked
  obtain ⟨e, es, hc, he, -⟩ := c.exists_marked
  have hdigit : ∀ d : Char, d.isDigit = true → d ≠ '-' := by
    rintro d hd rfl
    exact absurd hd (by decide)
  unfold signMark at hsame
  cases hx : isNegative x <;> cases hy : isNegative y <;> simp only [hx, hy] at hsame ⊢
  · exact ⟨trivial, hsame⟩
  · rw [hb] at hsame; exact absurd (List.cons.inj hsame).1 (hdigit d hd)
  · rw [hc] at hsame; exact absurd (List.cons.inj hsame).1.symm (hdigit e he)
  · exact ⟨trivial, (List.cons.inj hsame).2⟩

/-- Two finite doubles with one text are the same. -/
theorem eq_of_markedText (hx : magnitude x = .finite b) (hy : magnitude y = .finite c)
    (h : markedText x = markedText y) : x = y := by
  have htext := congrArg String.toList h
  rw [toList_markedText hx, toList_markedText hy] at htext
  obtain ⟨hsign, hmarked⟩ := signMark_append htext
  have hnear := c.near_marked
  rw [← hmarked] at hnear
  obtain rfl := Binary.Near.eq (normal_of_magnitude hx) (normal_of_magnitude hy) b.near_marked hnear
  exact eq_of_magnitude hsign hx hy

end Lox.Decimal
