import Lox.Source.Piece

/-!
What the pieces of a text are, said without cutting. A piece is known by what it is made of and by
what stands behind it; a text is tiled by such pieces in one way only, and that is how it is cut.
-/

namespace Lox.Source

/-! ### Runs of characters -/

/-- A run of such characters cannot go on into the text behind it. -/
def Stops (p : Char → Bool) (behind : List Char) : Prop := ∀ c ∈ behind.head?, p c = false

theorem stops_dropWhile (p : Char → Bool) (l : List Char) : Stops p (l.dropWhile p) := by
  intro c hc
  have h := List.head?_dropWhile_not p l
  rw [Option.mem_def.mp hc] at h
  exact h

section

variable {p : Char → Bool} {run behind : List Char}

theorem takeWhile_run (h : ∀ c ∈ run, p c = true) (hb : Stops p behind) :
    (run ++ behind).takeWhile p = run := by
  have hstop : behind.takeWhile p = [] := by
    cases behind with
    | nil => rfl
    | cons c _ => simp [hb c rfl]
  rw [List.takeWhile_append_of_pos h, hstop, List.append_nil]

theorem dropWhile_run (h : ∀ c ∈ run, p c = true) (hb : Stops p behind) :
    (run ++ behind).dropWhile p = behind := by
  rw [List.dropWhile_append_of_pos h]
  cases behind with
  | nil => rfl
  | cons c _ => simp [hb c rfl]

end

/-! ### Symbols -/

theorem text_of_symbolOf? {c : Char} {s : Symbol} (h : symbolOf? c = some s) :
    s.text.toList = [c] := by
  unfold symbolOf? at h
  split at h <;> cases h <;> rfl

/-- A symbol is one character, or one that is a symbol by itself and an equal sign. -/
theorem spelled (s : Symbol) : (∃ c, s.text.toList = [c] ∧ symbolOf? c = some s) ∨
    ∃ c first, s.text.toList = [c, '='] ∧ symbolOf? c = some first ∧ withEqual? first = some s := by
  cases s with
  | bangEqual => exact .inr ⟨'!', .bang, rfl, rfl, rfl⟩
  | equalEqual => exact .inr ⟨'=', .equal, rfl, rfl, rfl⟩
  | greaterEqual => exact .inr ⟨'>', .greater, rfl, rfl, rfl⟩
  | lessEqual => exact .inr ⟨'<', .less, rfl, rfl, rfl⟩
  | _ => exact .inl ⟨_, rfl, rfl⟩

theorem text_of_withEqual? {s t : Symbol} (h : withEqual? s = some t) :
    t.text.toList = s.text.toList ++ ['='] := by
  unfold withEqual? at h
  split at h <;> cases h <;> rfl

/-- What is a symbol by itself is nothing else. -/
theorem symbolOf?_apart {c : Char} {s : Symbol} (h : symbolOf? c = some s) :
    isBlank c = false ∧ c ≠ '"' ∧ c.isDigit = false ∧ isWordStart c = false := by
  unfold symbolOf? at h
  split at h <;> cases h <;> decide

/-! ### What a piece is -/

/-- No longer symbol could stand in the place of this one. -/
def Longest (s : Symbol) (behind : List Char) : Prop :=
  ∀ t : Symbol, t.text.toList <+: s.text.toList ++ behind → t.text.length ≤ s.text.length

/-- What a piece is in front of the text behind it. -/
inductive Fits : Piece → List Char → Prop
  | blank {c behind} (h : c ∈ [' ', '\r', '\t', '\n']) : Fits (.blank c) behind
  | comment {body behind} (h : '\n' ∉ body) (hb : Stops (· ≠ '\n') behind) :
      Fits (.comment body) behind
  /-- A slash in front of a slash is no symbol. -/
  | symbol {s behind} (h : Longest s behind) (hc : s = .slash → Stops (· = '/') behind) :
      Fits (.token (.symbol s) s.text.toList) behind
  | keyword {k behind} (hb : Stops isWordPart behind) :
      Fits (.token (.keyword k) k.text.toList) behind
  | identifier {c rest behind} (hc : isWordStart c = true) (h : ∀ d ∈ rest, isWordPart d = true)
      (hb : Stops isWordPart behind) (hk : ∀ k : Keyword, k.text.toList ≠ c :: rest) :
      Fits (.token .identifier (c :: rest)) behind
  | number {c rest x behind} (hc : c.isDigit = true) (h : ∀ d ∈ rest, isNumberPart d = true)
      (hb : Stops isNumberPart behind) (hp : rest.count '.' ≤ 1) (hx : numberOf? (c :: rest) = some x) :
      Fits (.token (.number x) (c :: rest)) behind
  | string {body behind} (h : '"' ∉ body) :
      Fits (.token (.string (String.ofList body)) ('"' :: body ++ ['"'])) behind
  | unexpected {c rest behind} (h : ∀ d ∈ c :: rest, isRecognizable d = false)
      (hb : Stops (!isRecognizable ·) behind) : Fits (.unexpected (c :: rest)) behind
  | malformed {c rest behind} (hc : c.isDigit = true) (h : ∀ d ∈ rest, isNumberPart d = true)
      (hb : Stops isNumberPart behind) (hp : 2 ≤ rest.count '.') : Fits (.malformed (c :: rest)) behind
  | unterminated {body} (h : '"' ∉ body) : Fits (.unterminated body) []

def Piece.isToken : Piece → Bool
  | .token _ _ => true
  | _ => false

def Piece.isUnterminated : Piece → Bool
  | .unterminated _ => true
  | _ => false

/-- The text is made up of the pieces, each as it is to be in front of the next ones. -/
inductive Tiles : List Piece → List Char → Prop
  | nil : Tiles [] []
  | cons {p ps behind} (h : Fits p behind) (hs : Tiles ps behind) :
      Tiles (p :: ps) (p.text ++ behind)

/-! ### Pieces in front of another text -/

theorem Stops.of_head {p : Char → Bool} {behind after : List Char} (h : Stops p behind)
    (ha : ∀ d ∈ after.head?, d ∈ behind.head? ∨ p d = false) : Stops p after :=
  fun d hd => (ha d hd).elim (h d) id

theorem blank_not_mem_symbol (s : Symbol) : ' ' ∉ s.text.toList ∧ '\n' ∉ s.text.toList := by
  cases s <;> decide

theorem length_symbol (s : Symbol) : 1 ≤ s.text.length ∧ s.text.length ≤ 2 := by
  cases s <;> decide

/-- Only the next character can make a symbol longer, and a blank does not. -/
theorem Longest.of_head {s : Symbol} {behind after : List Char} (h : Longest s behind)
    (ha : ∀ d ∈ after.head?, d ∈ behind.head? ∨ d = '\n' ∨ d = ' ') : Longest s after := by
  intro t ht
  rcases List.prefix_or_prefix_of_prefix ht (List.prefix_append _ _) with hle | ⟨more, hmore⟩
  · rw [← String.length_toList, ← String.length_toList]
    exact hle.length_le
  · rw [← hmore, List.prefix_append_right_inj] at ht
    cases more with
    | nil =>
        rw [List.append_nil, String.toList_inj] at hmore
        exact Nat.le_of_eq (congrArg String.length hmore.symm)
    | cons d more =>
        obtain ⟨rest, rfl⟩ := ht
        have hd : d ∈ t.text.toList := hmore ▸ List.mem_append_right _ List.mem_cons_self
        rcases ha d rfl with hhead | rfl | rfl
        · have hlength := congrArg List.length hmore
          simp only [List.length_append, List.length_cons, String.length_toList] at hlength
          have hs := length_symbol s
          have ht := length_symbol t
          obtain rfl : more = [] := List.length_eq_zero_iff.mp (by omega)
          refine h t ?_
          rw [← hmore, List.prefix_append_right_inj]
          cases behind with
          | nil => cases hhead
          | cons e behind => cases hhead; exact ⟨behind, rfl⟩
        · exact absurd hd (blank_not_mem_symbol t).2
        · exact absurd hd (blank_not_mem_symbol t).1

/-- A piece may as well stand in front of a line break, and a token in front of any blank. -/
theorem Fits.in_front {p : Piece} {behind after : List Char} (h : Fits p behind)
    (hp : p.isUnterminated = false)
    (ha : ∀ d ∈ after.head?, d ∈ behind.head? ∨ d = '\n' ∨ d = ' ' ∧ p.isToken = true) :
    Fits p after := by
  have hstops {q : Char → Bool} (hq : Stops q behind) (hn : q '\n' = false) (hb : q ' ' = false) :
      Stops q after := hq.of_head fun d hd => (ha d hd).imp id fun
    | .inl h => h ▸ hn
    | .inr h => h.1 ▸ hb
  cases h with
  | blank h => exact .blank h
  | comment h hb =>
      refine .comment h (hb.of_head fun d hd => ?_)
      rcases ha d hd with h | rfl | ⟨-, h⟩
      · exact .inl h
      · exact .inr rfl
      · cases h
  | symbol h hc =>
      refine .symbol (h.of_head fun d hd => ?_) fun hs => hstops (hc hs) rfl rfl
      exact (ha d hd).imp id fun h => h.imp id And.left
  | keyword hb => exact .keyword (hstops hb rfl rfl)
  | identifier hc h hb hk => exact .identifier hc h (hstops hb rfl rfl) hk
  | number hc h hb hone hx => exact .number hc h (hstops hb rfl rfl) hone hx
  | string h => exact .string h
  | unexpected h hb => exact .unexpected h (hstops hb rfl rfl)
  | malformed hc h hb htwo => exact .malformed hc h (hstops hb rfl rfl) htwo
  | unterminated h => cases hp

theorem fits_of_mem {ps : List Piece} {text : List Char} (h : Tiles ps text) {p : Piece}
    (hp : p ∈ ps) : ∃ behind, Fits p behind := by
  induction h with
  | nil => cases hp
  | cons h _ ih =>
      cases hp with
      | head => exact ⟨_, h⟩
      | tail _ hp => exact ih hp

/-! ### Numbers and words -/

/-- A run denotes a number unless there is a second point in it. -/
theorem numberOf?_eq_none_iff (run : List Char) : numberOf? run = none ↔ 2 ≤ run.count '.' := by
  have hfront : (run.takeWhile (· ≠ '.')).count '.' = 0 := by
    refine List.count_eq_zero.mpr fun h => ?_
    have hne := List.all_eq_true.mp List.all_takeWhile _ h
    exact of_decide_eq_true hne rfl
  have hcount : run.count '.' = (run.dropWhile (· ≠ '.')).count '.' := by
    have h := congrArg (List.count '.') (List.takeWhile_append_dropWhile (p := (· ≠ '.')) (l := run))
    rwa [List.count_append, hfront, Nat.zero_add, eq_comm] at h
  have hhead := stops_dropWhile (· ≠ '.') run
  rw [hcount, numberOf?]
  cases hd : run.dropWhile (· ≠ '.') with
  | nil => simp
  | cons d back =>
      rw [hd] at hhead
      obtain rfl : d = '.' := by simpa using hhead d rfl
      rw [List.tail_cons, List.count_cons_self]
      by_cases hb : '.' ∈ back
      · have := List.count_pos_iff.mpr hb
        simp only [if_pos hb, true_iff]
        omega
      · simp [hb, List.count_eq_zero.mpr hb]

theorem keyword_of_ofText? {word : List Char} {k : Keyword}
    (h : Keyword.ofText? (String.ofList word) = some k) : k.text.toList = word := by
  rw [Keyword.ofText?] at h
  have hk := List.find?_some h
  rw [of_decide_eq_true hk, String.toList_ofList]

theorem ofText?_eq_none {word : List Char} (h : ∀ k : Keyword, k.text.toList ≠ word) :
    Keyword.ofText? (String.ofList word) = none := by
  refine List.find?_eq_none.mpr fun k _ hk => h k ?_
  rw [of_decide_eq_true hk, String.toList_ofList]

theorem ofText?_text (k : Keyword) : Keyword.ofText? k.text = some k := by
  cases k <;> decide

/-- A word that is not reserved is spelled otherwise. -/
theorem text_ne_of_ofText? {word : List Char} (h : Keyword.ofText? (String.ofList word) = none)
    (k : Keyword) : k.text.toList ≠ word := by
  rintro rfl
  rw [String.ofList_toList, ofText?_text] at h
  cases h

/-! ### The first piece of a text -/

section

variable {c : Char} {rest behind : List Char} {s : Symbol} {p : Piece}

theorem cutString_fits (rest : List Char) : Fits (cutString rest).1 (cutString rest).2 := by
  have hbody : '"' ∉ rest.takeWhile (· ≠ '"') := by
    intro h
    have hne := List.all_eq_true.mp List.all_takeWhile _ h
    exact of_decide_eq_true hne rfl
  rw [cutString]
  cases rest.dropWhile (· ≠ '"') with
  | nil => exact .unterminated hbody
  | cons d after => exact .string hbody

theorem cutNumber_fits (hc : c.isDigit = true) (rest : List Char) :
    Fits (cutNumber c rest).1 (cutNumber c rest).2 := by
  have hrun := List.all_eq_true.mp (List.all_takeWhile (p := isNumberPart) (l := rest))
  have hcount : (c :: rest.takeWhile isNumberPart).count '.' =
      (rest.takeWhile isNumberPart).count '.' := by
    refine List.count_cons_of_ne ?_
    rintro rfl
    cases hc
  have hnumber := numberOf?_eq_none_iff (c :: rest.takeWhile isNumberPart)
  rw [hcount] at hnumber
  simp only [cutNumber]
  split
  · next x hx =>
    refine .number hc hrun (stops_dropWhile _ _) ?_ hx
    rw [hx] at hnumber
    exact Nat.le_of_not_lt fun h => Option.some_ne_none x (hnumber.mpr h)
  · next hx => exact .malformed hc hrun (stops_dropWhile _ _) (hnumber.mp hx)

theorem cutWord_fits (hc : isWordStart c = true) (rest : List Char) :
    Fits (cutWord c rest).1 (cutWord c rest).2 := by
  have hrun := List.all_eq_true.mp (List.all_takeWhile (p := isWordPart) (l := rest))
  rw [cutWord, wordKind]
  split
  · next k hk =>
    rw [← keyword_of_ofText? hk]
    exact .keyword (stops_dropWhile _ _)
  · next hk => exact .identifier hc hrun (stops_dropWhile _ _) (text_ne_of_ofText? hk)

/-- A symbol that is longer than one which starts the text is that one with the equal sign. -/
theorem longer_symbol (hs : symbolOf? c = some s) {t : Symbol} (ht : t.text.toList <+: c :: rest) :
    t.text.length = 1 ∨ t.text.length = 2 ∧ withEqual? s = some t ∧ rest.head? = some '=' := by
  rcases spelled t with ⟨d, hd, -⟩ | ⟨d, first, hd, hfirst, heq⟩
  · refine .inl ?_
    rw [← String.length_toList, hd]
    rfl
  · rw [hd] at ht
    obtain ⟨after, hafter⟩ := ht
    obtain ⟨rfl, rfl⟩ : d = c ∧ '=' :: after = rest := List.cons.inj hafter
    obtain rfl : first = s := Option.some.inj (hfirst.symm.trans hs)
    refine .inr ⟨?_, heq, rfl⟩
    rw [← String.length_toList, hd]
    rfl

theorem cutSymbol_fits (hs : symbolOf? c = some s) (rest : List Char) :
    Fits (cutSymbol s c rest).1 (cutSymbol s c rest).2 := by
  have htext := text_of_symbolOf? hs
  have hlength : s.text.length = 1 := by rw [← String.length_toList, htext]; rfl
  -- where the equal sign does not go with it, the symbol stands alone
  have halone (hno : ∀ t, withEqual? s = some t → rest.head? ≠ some '=')
      (hc : s = .slash → Stops (· = '/') rest) : Fits (.token (.symbol s) [c]) rest := by
    rw [← htext]
    refine .symbol (fun t ht => ?_) hc
    rw [htext] at ht
    rcases longer_symbol hs ht with h | ⟨-, heq, hhead⟩
    · exact Nat.le_of_eq (h.trans hlength.symm)
    · exact absurd hhead (hno t heq)
  cases rest with
  | nil => exact halone (fun t _ => nofun) fun _ => nofun
  | cons d after =>
      simp only [cutSymbol]
      split
      · refine .comment (fun h => ?_) (stops_dropWhile _ _)
        have hne := List.all_eq_true.mp List.all_takeWhile _ h
        exact of_decide_eq_true hne rfl
      · next hno =>
        have hc : s = .slash → Stops (· = '/') (d :: after) := by
          rintro hslash e he
          cases he
          exact decide_eq_false fun hd => hno ⟨hslash, hd⟩
        cases heq : withEqual? s with
        | none => exact halone (fun t ht => absurd (ht.symm.trans heq) (Option.some_ne_none t)) hc
        | some t =>
            dsimp only
            split
            · next hd =>
              have hlong := text_of_withEqual? heq
              rw [htext] at hlong
              have hlong' : [c, d] = t.text.toList := by rw [hlong, hd]; rfl
              rw [hlong']
              refine .symbol (fun u hu => ?_) fun hslash => ?_
              · rw [hlong, List.append_assoc] at hu
                have hl : t.text.length = 2 := by rw [← String.length_toList, hlong]; rfl
                rcases longer_symbol hs hu with h | ⟨h, -⟩ <;> omega
              · rw [hslash] at hlong
                cases hlong
            · next hd => exact halone (fun _ _ h => hd (Option.some.inj h)) hc

theorem cutUnexpected_fits (hc : isRecognizable c = false) (rest : List Char) :
    Fits (cutUnexpected c rest).1 (cutUnexpected c rest).2 := by
  refine .unexpected (fun d hd => ?_) (stops_dropWhile _ _)
  cases hd with
  | head => exact hc
  | tail _ hd =>
      have hrun := List.all_eq_true.mp List.all_takeWhile _ hd
      exact Bool.not_eq_true' _ ▸ hrun

/-- What is cut off a text is a piece in front of what is left. -/
theorem cut_fits (c : Char) (rest : List Char) : Fits (cut c rest).1 (cut c rest).2 := by
  unfold cut
  split
  · next h => exact .blank (by simpa [isBlank, or_assoc] using h)
  split
  · exact cutString_fits rest
  split
  · next h => exact cutNumber_fits h rest
  split
  · next h => exact cutWord_fits h rest
  · next hblank hquote hdigit hstart =>
    split
    · next h => exact cutSymbol_fits h rest
    · next h =>
      refine cutUnexpected_fits ?_ rest
      simp only [isWordStart, Bool.or_eq_true, not_or] at hstart
      simp [isRecognizable, isWordPart, Char.isAlphanum, hblank, hquote, hdigit, hstart, h]

/-- The pieces of a text tile it. -/
theorem tiles_pieces : (text : List Char) → Tiles (pieces text) text
  | [] => pieces_nil ▸ .nil
  | c :: rest => by
      have h := Tiles.cons (cut_fits c rest) (tiles_pieces (cut c rest).2)
      rwa [text_cut, ← pieces_cons] at h
termination_by text => text.length
decreasing_by have := length_cut_le c rest; simp only [List.length_cons]; omega

/-! ### There is no other first piece -/

theorem eq_of_isBlank (h : isBlank c = true) : c = ' ' ∨ c = '\r' ∨ c = '\t' ∨ c = '\n' := by
  simpa [isBlank, or_assoc] using h

theorem isDigit_iff : c.isDigit = true ↔ 48 ≤ c.toNat ∧ c.toNat ≤ 57 := by
  change (decide _ && decide _) = true ↔ _
  rw [Bool.and_eq_true, decide_eq_true_iff, decide_eq_true_iff]
  rfl

theorem isAlpha_iff : c.isAlpha = true ↔
    65 ≤ c.toNat ∧ c.toNat ≤ 90 ∨ 97 ≤ c.toNat ∧ c.toNat ≤ 122 := by
  change (decide (_ ∧ _) || decide _ && decide _) = true ↔ _
  rw [Bool.or_eq_true, Bool.and_eq_true, decide_eq_true_iff, decide_eq_true_iff,
    decide_eq_true_iff]
  rfl

theorem digit_apart (h : c.isDigit = true) :
    isBlank c = false ∧ c ≠ '"' ∧ isWordStart c = false := by
  refine ⟨Bool.eq_false_iff.mpr fun hb => ?_, ?_, ?_⟩
  · rcases eq_of_isBlank hb with rfl | rfl | rfl | rfl <;> exact absurd h (by decide)
  · rintro rfl
    exact absurd h (by decide)
  · have hunder : c ≠ '_' := by
      rintro rfl
      exact absurd h (by decide)
    rw [isWordStart, decide_eq_false hunder, Bool.or_false, Bool.eq_false_iff]
    intro halpha
    have hd := isDigit_iff.mp h
    have ha := isAlpha_iff.mp halpha
    omega

theorem wordStart_apart (h : isWordStart c = true) :
    isBlank c = false ∧ c ≠ '"' ∧ c.isDigit = false := by
  refine ⟨Bool.eq_false_iff.mpr fun hb => ?_, ?_, Bool.eq_false_iff.mpr fun hd => ?_⟩
  · rcases eq_of_isBlank hb with rfl | rfl | rfl | rfl <;> exact absurd h (by decide)
  · rintro rfl
    exact absurd h (by decide)
  · rw [(digit_apart hd).2.2] at h
    cases h

theorem spelled_keyword (k : Keyword) : ∃ c rest, k.text.toList = c :: rest ∧
    isWordStart c = true ∧ ∀ d ∈ rest, isWordPart d = true := by
  cases k <;> exact ⟨_, _, rfl, rfl, List.all_eq_true.mp rfl⟩

theorem cut_symbol (h : symbolOf? c = some s) (rest : List Char) : cut c rest = cutSymbol s c rest := by
  obtain ⟨hblank, hquote, hdigit, hstart⟩ := symbolOf?_apart h
  simp [cut, hblank, hquote, hdigit, hstart, h]

theorem cut_word (h : isWordStart c = true) (rest : List Char) : cut c rest = cutWord c rest := by
  obtain ⟨hblank, hquote, hdigit⟩ := wordStart_apart h
  simp [cut, hblank, hquote, hdigit, h]

theorem cut_number (h : c.isDigit = true) (rest : List Char) : cut c rest = cutNumber c rest := by
  obtain ⟨hblank, hquote, -⟩ := digit_apart h
  simp [cut, hblank, hquote, h]

theorem cut_unexpected (h : isRecognizable c = false) (rest : List Char) :
    cut c rest = cutUnexpected c rest := by
  simp only [isRecognizable, isWordPart, Char.isAlphanum, Bool.or_eq_false_iff,
    decide_eq_false_iff_not] at h
  obtain ⟨⟨⟨⟨⟨halpha, hdigit⟩, hunder⟩, hblank⟩, hquote⟩, hsymbol⟩ := h
  simp only [Option.isSome_eq_false_iff, Option.isNone_iff_eq_none] at hsymbol
  simp [cut, isWordStart, hblank, hquote, hdigit, halpha, hunder, hsymbol]

theorem all_of_not_mem {x : Char} {l : List Char} (h : x ∉ l) (c : Char) (hc : c ∈ l) :
    decide (c ≠ x) = true :=
  decide_eq_true fun hx => h (hx ▸ hc)

theorem cutString_run {body : List Char} (h : '"' ∉ body) (after : List Char) :
    cutString (body ++ '"' :: after) =
      (.token (.string (String.ofList body)) ('"' :: body ++ ['"']), after) := by
  have hstop : Stops (· ≠ '"') ('"' :: after) := fun c hc => by cases hc; rfl
  rw [cutString, takeWhile_run (all_of_not_mem h) hstop, dropWhile_run (all_of_not_mem h) hstop]

theorem cutSymbol_alone (hs : s.text.toList = [c]) (hlong : Longest s behind)
    (hc : s = .slash → Stops (· = '/') behind) :
    cutSymbol s c behind = (.token (.symbol s) s.text.toList, behind) := by
  rw [hs]
  cases behind with
  | nil => rfl
  | cons d after =>
      have hslash : ¬(s = .slash ∧ d = '/') := fun h => of_decide_eq_false (hc h.1 d rfl) h.2
      simp only [cutSymbol, if_neg hslash]
      cases heq : withEqual? s with
      | none => rfl
      | some t =>
          refine if_neg fun hd => ?_
          have ht := text_of_withEqual? heq
          have hle := hlong t ⟨after, by rw [ht, hs, hd]; rfl⟩
          rw [← String.length_toList, ← String.length_toList, ht, hs] at hle
          cases hle with
          | step h => cases h

theorem cut_quote (rest : List Char) : cut '"' rest = cutString rest := rfl

/-- A piece in front of a text is what is cut off there. -/
theorem Fits.cut (h : Fits p behind) :
    ∃ c rest, p.text = c :: rest ∧ Source.cut c (rest ++ behind) = (p, behind) := by
  cases h with
  | @blank c _ h =>
      refine ⟨c, [], rfl, if_pos ?_⟩
      simpa [isBlank, or_assoc] using h
  | @comment body _ h hb =>
      refine ⟨'/', '/' :: body, rfl, ?_⟩
      rw [cut_symbol (s := .slash) rfl]
      simp only [List.cons_append, cutSymbol]
      rw [if_pos ⟨trivial, trivial⟩, takeWhile_run (all_of_not_mem h) hb,
        dropWhile_run (all_of_not_mem h) hb]
  | @symbol s _ hlong hc =>
      rcases spelled s with ⟨c, hs, hsymbol⟩ | ⟨c, first, hs, hsymbol, heq⟩
      · refine ⟨c, [], hs, ?_⟩
        rw [cut_symbol hsymbol]
        exact cutSymbol_alone hs hlong hc
      · refine ⟨c, ['='], hs, ?_⟩
        rw [cut_symbol hsymbol]
        simp only [List.cons_append, List.nil_append, cutSymbol]
        rw [if_neg fun h => absurd h.2 (by decide), heq, hs]
        rfl
  | @keyword k _ hb =>
      obtain ⟨c, rest, hk, hc, h⟩ := spelled_keyword k
      refine ⟨c, rest, hk, ?_⟩
      rw [cut_word hc, cutWord, takeWhile_run h hb, dropWhile_run h hb, ← hk, wordKind,
        String.ofList_toList, ofText?_text]
  | @identifier c rest _ hc h hb hk =>
      refine ⟨c, rest, rfl, ?_⟩
      rw [cut_word hc, cutWord, takeWhile_run h hb, dropWhile_run h hb, wordKind, ofText?_eq_none hk]
  | @number c rest x _ hc h hb hp hx =>
      refine ⟨c, rest, rfl, ?_⟩
      rw [cut_number hc]
      simp only [cutNumber, takeWhile_run h hb, dropWhile_run h hb, hx]
  | @string body _ h =>
      refine ⟨'"', body ++ ['"'], rfl, ?_⟩
      rw [List.append_assoc, cut_quote]
      exact cutString_run h behind
  | @unexpected c rest _ h hb =>
      refine ⟨c, rest, rfl, ?_⟩
      have hrest : ∀ d ∈ rest, (!isRecognizable d) = true := fun d hd =>
        (Bool.not_eq_true' _).mpr (h d (List.mem_cons_of_mem c hd))
      rw [cut_unexpected (h c List.mem_cons_self), cutUnexpected, takeWhile_run hrest hb,
        dropWhile_run hrest hb]
  | @malformed c rest _ hc h hb hp =>
      refine ⟨c, rest, rfl, ?_⟩
      have hcount : (c :: rest).count '.' = rest.count '.' := by
        refine List.count_cons_of_ne ?_
        rintro rfl
        cases hc
      rw [cut_number hc]
      simp only [cutNumber, takeWhile_run h hb, dropWhile_run h hb,
        (numberOf?_eq_none_iff _).mpr (hcount ▸ hp)]
  | @unterminated body h =>
      refine ⟨'"', body, rfl, ?_⟩
      have hquote : Stops (· ≠ '"') [] := fun d hd => absurd hd (Option.not_mem_none d)
      have htake := takeWhile_run (all_of_not_mem h) hquote
      have hdrop := dropWhile_run (all_of_not_mem h) hquote
      simp only [cut_quote, cutString, htake, hdrop]

/-- The only pieces that tile a text are those it is cut into. -/
theorem tiles_iff {ps : List Piece} {text : List Char} : Tiles ps text ↔ pieces text = ps := by
  constructor
  · intro h
    induction h with
    | nil => exact pieces_nil
    | cons h _ ih =>
        obtain ⟨c, rest, htext, hcut⟩ := h.cut
        rw [htext, List.cons_append, pieces_cons, hcut, ih]
  · rintro rfl
    exact tiles_pieces text

end

end Lox.Source
