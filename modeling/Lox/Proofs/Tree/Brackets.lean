import Lox.Proofs.Source.Tiling

/-!
Texts in brackets: words with blanks between them and brackets around them. Where the words hold no
blank and no bracket, such a text can be read in one way only, at any depth.
-/

namespace Lox

open Source (Stops takeWhile_run dropWhile_run)

inductive Bracketed
  | word (cs : List Char)
  | list (parts : List Bracketed)

namespace Bracketed

/-- Characters that neither end a word nor open a list. -/
def isPlain (c : Char) : Bool := c ≠ ' ' && c ≠ '(' && c ≠ ')'

/-- What a class of characters without blank and brackets holds is plain. -/
theorem isPlain_of {p : Char → Bool} (hp : [' ', '(', ')'].any p = false) {c : Char} (hc : p c = true) :
    isPlain c = true := by
  have hne : ∀ d ∈ [' ', '(', ')'], c ≠ d := by
    rintro d hd rfl
    exact List.any_eq_false.mp hp c hd hc
  simpa [isPlain, and_assoc] using hne

def isPlainWord (cs : List Char) : Bool := !cs.isEmpty && cs.all isPlain

theorem isPlainWord_iff {cs : List Char} :
    isPlainWord cs = true ↔ cs ≠ [] ∧ ∀ c ∈ cs, isPlain c = true := by
  simp [isPlainWord]

mutual

def text : Bracketed → List Char
  | .word cs => cs
  | .list parts => '(' :: row parts

/-- The parts of a list and the bracket behind them. -/
def row : List Bracketed → List Char
  | [] => [')']
  | b :: bs => b.text ++ spaced bs

/-- The same with a blank in front of every part. -/
def spaced : List Bracketed → List Char
  | [] => [')']
  | b :: bs => ' ' :: (b.text ++ spaced bs)

end

mutual

/-- No word is empty or holds a blank or a bracket. -/
def Plain : Bracketed → Prop
  | .word cs => isPlainWord cs = true
  | .list parts => AllPlain parts

def AllPlain : List Bracketed → Prop
  | [] => True
  | b :: bs => b.Plain ∧ AllPlain bs

end

theorem allPlain_iff {bs : List Bracketed} : AllPlain bs ↔ ∀ b ∈ bs, b.Plain := by
  induction bs with
  | nil => simp [AllPlain]
  | cons b bs ih => simp [AllPlain, ih]

variable {r r' : List Char}

theorem word_inj {cs cs' : List Char} (h : ∀ c ∈ cs, isPlain c = true)
    (h' : ∀ c ∈ cs', isPlain c = true) (hr : Stops isPlain r) (hr' : Stops isPlain r')
    (heq : cs ++ r = cs' ++ r') : cs = cs' ∧ r = r' := by
  have htake := congrArg (List.takeWhile isPlain) heq
  have hdrop := congrArg (List.dropWhile isPlain) heq
  rw [takeWhile_run h hr, takeWhile_run h' hr'] at htake
  rw [dropWhile_run h hr, dropWhile_run h' hr'] at hdrop
  exact ⟨htake, hdrop⟩

/-- A text opens a bracket or begins with a plain character. -/
theorem Plain.exists_head : {b : Bracketed} → b.Plain →
    ∃ c cs, b.text = c :: cs ∧ (c = '(' ∨ isPlain c = true)
  | .word _, h => by
      obtain ⟨hne, hcs⟩ := isPlainWord_iff.mp h
      obtain ⟨c, cs, rfl⟩ := List.exists_cons_of_ne_nil hne
      exact ⟨c, cs, rfl, .inr (hcs c List.mem_cons_self)⟩
  | .list parts, _ => ⟨'(', row parts, rfl, .inl rfl⟩

/-- So it does not begin as the end of a list does. -/
theorem Plain.text_append_ne {b : Bracketed} (h : b.Plain) (more : List Char) :
    b.text ++ more ≠ ')' :: r := by
  obtain ⟨c, cs, htext, hc⟩ := h.exists_head
  intro heq
  rw [htext, List.cons_append] at heq
  obtain rfl := (List.cons.inj heq).1
  exact hc.elim (fun h => absurd h (by decide)) (fun h => absurd h (by decide))

theorem stops_spaced (bs : List Bracketed) (r : List Char) : Stops isPlain (spaced bs ++ r) := by
  cases bs <;> · rintro c hc; cases hc; rfl

theorem text_word_ne_list {cs : List Char} {parts : List Bracketed} (h : (word cs).Plain) :
    (word cs).text ++ r ≠ (list parts).text ++ r' := by
  obtain ⟨c, cs', hcs, -⟩ := h.exists_head
  intro heq
  rw [hcs] at heq
  obtain rfl : cs = c :: cs' := hcs
  obtain rfl : c = '(' := (List.cons.inj heq).1
  exact absurd ((isPlainWord_iff.mp h).2 '(' List.mem_cons_self) (by decide)

mutual

/-- What stands behind a text does not matter for how the text is read. -/
theorem eq_of_text : (b b' : Bracketed) → b.Plain → b'.Plain → {r r' : List Char} →
    Stops isPlain r → Stops isPlain r' → b.text ++ r = b'.text ++ r' → b = b' ∧ r = r'
  | .word _, .word _, h, h', _, _, hr, hr', heq =>
      (word_inj (isPlainWord_iff.mp h).2 (isPlainWord_iff.mp h').2 hr hr' heq).imp_left (congrArg word)
  | .word _, .list _, h, _, _, _, _, _, heq => absurd heq (text_word_ne_list h)
  | .list _, .word _, _, h', _, _, _, _, heq => absurd heq.symm (text_word_ne_list h')
  | .list parts, .list parts', h, h', _, _, _, _, heq =>
      (eq_of_row parts parts' h h' (List.cons.inj heq).2).imp_left (congrArg list)

theorem eq_of_row : (bs bs' : List Bracketed) → AllPlain bs → AllPlain bs' → {r r' : List Char} →
    row bs ++ r = row bs' ++ r' → bs = bs' ∧ r = r'
  | [], [], _, _, _, _, heq => ⟨rfl, (List.cons.inj heq).2⟩
  | [], b' :: bs', _, h', _, _, heq => by
      rw [row, row, List.append_assoc] at heq
      exact absurd heq.symm (h'.1.text_append_ne _)
  | b :: bs, [], h, _, _, _, heq => by
      rw [row, row, List.append_assoc] at heq
      exact absurd heq (h.1.text_append_ne _)
  | b :: bs, b' :: bs', h, h', _, _, heq => by
      rw [row, row, List.append_assoc, List.append_assoc] at heq
      obtain ⟨rfl, hrest⟩ := eq_of_text b b' h.1 h'.1 (stops_spaced _ _) (stops_spaced _ _) heq
      exact (eq_of_spaced bs bs' h.2 h'.2 hrest).imp_left (congrArg (b :: ·))

theorem eq_of_spaced : (bs bs' : List Bracketed) → AllPlain bs → AllPlain bs' → {r r' : List Char} →
    spaced bs ++ r = spaced bs' ++ r' → bs = bs' ∧ r = r'
  | [], [], _, _, _, _, heq => ⟨rfl, (List.cons.inj heq).2⟩
  | [], _ :: _, _, _, _, _, heq => absurd (List.cons.inj heq).1 (by decide)
  | _ :: _, [], _, _, _, _, heq => absurd (List.cons.inj heq).1 (by decide)
  | b :: bs, b' :: bs', h, h', _, _, heq => by
      rw [spaced, spaced, List.cons_append, List.cons_append, List.append_assoc,
        List.append_assoc] at heq
      have htexts := (List.cons.inj heq).2
      obtain ⟨rfl, hrest⟩ := eq_of_text b b' h.1 h'.1 (stops_spaced _ _) (stops_spaced _ _) htexts
      exact (eq_of_spaced bs bs' h.2 h'.2 hrest).imp_left (congrArg (b :: ·))

end

/-- A text in brackets can be read in one way only. -/
theorem text_inj {b b' : Bracketed} (h : b.Plain) (h' : b'.Plain) (heq : b.text = b'.text) :
    b = b' := by
  have hend : Stops isPlain [] := fun _ hc => by cases hc
  rw [← List.append_nil b.text, ← List.append_nil b'.text] at heq
  exact (eq_of_text b b' h h' hend hend heq).1

end Bracketed

end Lox
