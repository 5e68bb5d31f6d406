import Lox.Proofs.Source.Segments
import Lox.Proofs.Source.Spaced

/-!
What is left of a text when blanks, comments, characters that may not occur and an open string are
taken out of it character by character. It is what the lexemes of the text are when they are written
one behind the other.
-/

namespace Lox.Source

/-- What was kept so far and what was read of an open string, both with the last character first. -/
structure Sieve where
  kept : List Char := []
  pending : List Char := []
  inComment : Bool := false
  inString : Bool := false
  previous : Option Char := none

namespace Sieve

/-- Whether a comment or a string starts or ends at the character. The first slash of a comment was
kept already; a string is kept when it ends, but for its last quote. -/
def mark (s : Sieve) (c : Char) : Sieve :=
  if s.inComment then { s with inComment := c ≠ '\n' }
  else if !s.inString then
    let s := if c = '/' && s.previous = some '/' then
      { s with inComment := true, kept := s.kept.tail } else s
    if c = '"' then { s with inString := true } else s
  else if c = '"' then
    { s with inString := false, kept := s.pending ++ '"' :: s.kept, pending := [] }
  else { s with pending := c :: s.pending }

def keeps (s : Sieve) (c : Char) : Bool :=
  !s.inString && !s.inComment && !isBlank c && (c.toNat ≤ 127 && isRecognizable c)

/-- A slash that has opened a comment does not pair with the next one. -/
def read (s : Sieve) (c : Char) : Sieve :=
  let s := s.mark c
  { s with
    kept := if s.keeps c then c :: s.kept else s.kept
    previous := if s.inComment then none else some c }

end Sieve

def sieved (source : String) : String :=
  String.ofList (source.toList.foldl Sieve.read {}).kept.reverse

namespace Sieve

variable {s : Sieve} {p : Piece} {c : Char} {run behind : List Char}

/-- The sieve stands between two pieces. Behind a comment it waits for the line to end; elsewhere it
has not just read a slash that the text goes on with. -/
structure Between (s : Sieve) (behind : List Char) : Prop where
  pending : s.pending = []
  outside : s.inString = false
  comment : s.inComment = true → Stops (· ≠ '\n') behind
  slash : s.inComment = false → s.previous = some '/' → Stops (· = '/') behind

/-! ### Single characters -/

theorem keeps_eq (s : Sieve) (c : Char) :
    s.keeps c = (!s.inString && !s.inComment && !isBlank c && isRecognizable c) := by
  have hascii : (decide (c.toNat ≤ 127) && isRecognizable c) = isRecognizable c := by
    cases hr : isRecognizable c with
    | false => rw [Bool.and_false]
    | true => rw [decide_eq_true (le_of_isRecognizable hr), Bool.and_true]
  rw [keeps, hascii]

/-- Outside comments and strings, a character that opens neither is kept or passed over. -/
theorem read_plain (hc : s.inComment = false) (hs : s.inString = false) (hq : c ≠ '"')
    (hslash : c = '/' → s.previous ≠ some '/') :
    s.read c = { s with
      kept := if !isBlank c && isRecognizable c then c :: s.kept else s.kept
      previous := some c } := by
  have hmark : s.mark c = s := by
    have hpair : ¬ (c = '/' ∧ s.previous = some '/') := fun h => hslash h.1 h.2
    simp [mark, hc, hs, hq, hpair]
  simp [read, hmark, keeps_eq, hc, hs]

theorem read_in_comment (hc : s.inComment = true) (hn : c ≠ '\n') :
    s.read c = { s with previous := none } := by
  simp [read, mark, keeps_eq, hc, hn]

theorem read_in_string (hc : s.inComment = false) (hs : s.inString = true) (hq : c ≠ '"') :
    s.read c = { s with pending := c :: s.pending, previous := some c } := by
  simp [read, mark, keeps_eq, hc, hs, hq]

/-! ### Runs of characters -/

theorem foldl_in_comment (hc : s.inComment = true) (hp : s.previous = none) (h : '\n' ∉ run) :
    run.foldl read s = s := by
  induction run with
  | nil => rfl
  | cons c run ih =>
      simp only [List.mem_cons, not_or] at h
      rw [List.foldl_cons, read_in_comment hc (Ne.symm h.1), ← hp]
      exact ih h.2

theorem foldl_in_string (hc : s.inComment = false) (hs : s.inString = true) (h : '"' ∉ run) :
    ∃ previous, run.foldl read s =
      { s with pending := run.reverse ++ s.pending, previous := previous } := by
  induction run generalizing s with
  | nil => exact ⟨s.previous, rfl⟩
  | cons c run ih =>
      simp only [List.mem_cons, not_or] at h
      rw [List.foldl_cons, read_in_string hc hs (Ne.symm h.1)]
      obtain ⟨previous, hrun⟩ := ih (s := { s with pending := c :: s.pending, previous := some c })
        hc hs h.2
      exact ⟨previous, by rw [hrun]; simp⟩

/-- Outside comments and strings, a run that opens neither leaves what is kept of its characters. -/
theorem foldl_outside (hc : s.inComment = false) (hs : s.inString = false) (hq : '"' ∉ run)
    (hhead : ∀ c ∈ run.head?, c = '/' → s.previous ≠ some '/') (htail : '/' ∉ run.tail) :
    run.foldl read s = { s with
      kept := (run.filter fun c => !isBlank c && isRecognizable c).reverse ++ s.kept
      previous := run.getLast?.or s.previous } := by
  induction run generalizing s with
  | nil => rfl
  | cons c run ih =>
      simp only [List.mem_cons, not_or] at hq
      rw [List.foldl_cons, read_plain hc hs (Ne.symm hq.1) (hhead c rfl)]
      have hrun : ∀ d ∈ run.head?, d ≠ '/' := by
        rintro d hd rfl
        exact htail (List.mem_of_head? hd)
      rw [ih (by exact hc) (by exact hs) hq.2 (fun d hd h => absurd h (hrun d hd))
        fun h => htail (List.mem_of_mem_tail h)]
      rw [List.filter_cons]
      cases run with
      | nil => split <;> simp
      | cons d run => split <;> simp [List.getLast?_cons]

/-! ### Lexemes -/

/-- Characters that are kept where they stand outside comments and strings. -/
structure Bare (c : Char) : Prop where
  recognizable : isRecognizable c = true
  blank : isBlank c = false
  quote : c ≠ '"'

theorem Bare.of_symbolOf? {sym : Symbol} (h : symbolOf? c = some sym) : Bare c :=
  ⟨isRecognizable_of_symbolOf? h, (symbolOf?_apart h).1, (symbolOf?_apart h).2.1⟩

theorem Bare.of_wordPart (h : isWordPart c = true) : Bare c ∧ c ≠ '/' := by
  refine ⟨⟨isRecognizable_of_word h, Bool.eq_false_iff.mpr fun hb => ?_, ?_⟩, ?_⟩
  · rcases eq_of_isBlank hb with rfl | rfl | rfl | rfl <;> exact absurd h (by decide)
  · rintro rfl
    exact absurd h (by decide)
  · rintro rfl
    exact absurd h (by decide)

theorem Bare.of_numberPart (h : isNumberPart c = true) : Bare c ∧ c ≠ '/' := by
  rw [isNumberPart, Bool.or_eq_true] at h
  rcases h with h | h
  · exact Bare.of_wordPart (by simp [isWordPart, Char.isAlphanum, h])
  · rw [of_decide_eq_true h]
    exact ⟨.of_symbolOf? rfl, by decide⟩

/-- A lexeme that is no string stands outside comments and strings, and holds no slash but one that
is all of it. -/
structure Plain (lexeme behind : List Char) : Prop where
  bare : ∀ c ∈ lexeme, Bare c
  tail : '/' ∉ lexeme.tail
  last : lexeme.getLast? = some '/' → Stops (· = '/') behind

theorem Plain.of_slashless (h : ∀ c ∈ run, Bare c ∧ c ≠ '/') : Plain run behind :=
  ⟨fun c hc => (h c hc).1, fun hm => (h _ (List.mem_of_mem_tail hm)).2 rfl,
    fun hl => absurd rfl (h _ (List.mem_of_getLast? hl)).2⟩

theorem Plain.word {rest : List Char} (hc : isWordStart c = true)
    (h : ∀ d ∈ rest, isWordPart d = true) : Plain (c :: rest) behind := by
  refine .of_slashless fun d hd => Bare.of_wordPart ?_
  rcases List.mem_cons.mp hd with rfl | hd
  · simp only [isWordStart, isWordPart, Char.isAlphanum, Bool.or_eq_true] at hc ⊢
    exact hc.imp_left .inl
  · exact h d hd

theorem Plain.symbol {sym : Symbol} (hb : sym = .slash → Stops (· = '/') behind) :
    Plain sym.text.toList behind := by
  rcases spelled sym with ⟨c, hs, hc⟩ | ⟨c, first, hs, hc, -⟩
  · rw [hs]
    refine ⟨fun d hd => ?_, by simp, fun hl => hb ?_⟩
    · rw [List.mem_singleton.mp hd]
      exact .of_symbolOf? hc
    · cases hl
      cases hc
      rfl
  · rw [hs]
    refine ⟨fun d hd => ?_, by simp, fun hl => by cases hl⟩
    rcases List.mem_cons.mp hd with rfl | hd
    · exact .of_symbolOf? hc
    · rw [List.mem_singleton.mp hd]
      exact .of_symbolOf? (show symbolOf? '=' = some .equal from rfl)

/-! ### Pieces -/

theorem Between.not_inComment (h : s.Between (c :: behind)) (hc : c ≠ '\n') :
    s.inComment = false :=
  Bool.eq_false_iff.mpr fun hs => of_decide_eq_false (h.comment hs c rfl) hc

theorem Between.apart (h : s.Between (c :: behind)) (hs : s.inComment = false) :
    c = '/' → s.previous ≠ some '/' :=
  fun hc hp => of_decide_eq_false (h.slash hs hp c rfl) hc

/-- What is read of a piece in front of the next one. -/
structure Sifts (s : Sieve) (p : Piece) (behind : List Char) : Prop where
  kept : (p.text.foldl read s).kept = (if p.isToken then p.text.reverse else []) ++ s.kept
  between : behind ≠ [] → (p.text.foldl read s).Between behind

theorem Between.plain {kind : Kind} {lexeme : List Char} (hne : lexeme ≠ [])
    (h : s.Between (lexeme ++ behind)) (hp : Plain lexeme behind) :
    s.Sifts (.token kind lexeme) behind := by
  obtain ⟨c, rest, rfl⟩ := List.exists_cons_of_ne_nil hne
  have hline : c ≠ '\n' := by
    rintro rfl
    exact absurd (hp.bare _ List.mem_cons_self).blank (by decide)
  have hs := h.not_inComment hline
  have hq : '"' ∉ c :: rest := fun hm => (hp.bare _ hm).quote rfl
  have hhead : ∀ d ∈ (c :: rest).head?, d = '/' → s.previous ≠ some '/' := by
    rintro d ⟨⟩
    exact h.apart hs
  have hall : (c :: rest).filter (fun c => !isBlank c && isRecognizable c) = c :: rest :=
    List.filter_eq_self.mpr fun d hd => by
      simp [(hp.bare d hd).blank, (hp.bare d hd).recognizable]
  have hfold := foldl_outside hs h.outside hq hhead hp.tail
  rw [hall] at hfold
  refine ⟨(congrArg kept hfold :), fun _ => ?_⟩
  rw [Piece.text, hfold]
  refine ⟨h.pending, h.outside, fun hs' => absurd (hs.symm.trans hs') Bool.false_ne_true,
    fun _ hl => hp.last ?_⟩
  rwa [List.getLast?_eq_some_getLast (List.cons_ne_nil c rest)] at hl ⊢

theorem Between.blank (hc : isBlank c = true) (h : s.Between (c :: behind)) :
    s.Sifts (.blank c) behind := by
  have hslash : c ≠ '/' ∧ c ≠ '"' := by
    rcases eq_of_isBlank hc with rfl | rfl | rfl | rfl <;> decide
  have hread : s.read c = { s with inComment := false, previous := some c } := by
    cases hs : s.inComment with
    | true =>
        obtain rfl : c = '\n' := by simpa using h.comment hs c rfl
        simp [read, mark, keeps_eq, hs, hc]
    | false =>
        rw [read_plain hs h.outside hslash.2 fun he => absurd he hslash.1]
        simp [hc, hs]
  refine ⟨(congrArg kept hread :), fun _ => ?_⟩
  rw [Piece.text, List.foldl_cons, List.foldl_nil, hread]
  refine ⟨h.pending, h.outside, fun hs => Bool.noConfusion hs, fun _ hl => ?_⟩
  exact absurd (Option.some.inj hl) hslash.1

theorem Between.comment_sifts {body : List Char} (hb : '\n' ∉ body) (hn : Stops (· ≠ '\n') behind)
    (h : s.Between ((Piece.comment body).text ++ behind)) : s.Sifts (.comment body) behind := by
  have hs := h.not_inComment (by decide)
  have hfirst : s.read '/' = { s with kept := '/' :: s.kept, previous := some '/' } :=
    read_plain hs h.outside (by decide) (h.apart hs)
  -- the second slash takes the first one out again
  have hsecond : (s.read '/').read '/' = { s with inComment := true, previous := none } := by
    rw [hfirst]
    simp [read, mark, keeps_eq, hs, h.outside]
  have hfold : (Piece.comment body).text.foldl read s =
      { s with inComment := true, previous := none } := by
    rw [Piece.text, List.foldl_cons, List.foldl_cons, hsecond]
    exact foldl_in_comment rfl rfl hb
  refine ⟨(congrArg kept hfold :), fun _ => ?_⟩
  rw [hfold]
  exact ⟨h.pending, h.outside, fun _ => hn, fun hs => Bool.noConfusion hs⟩

theorem Between.open_string {after : List Char} (h : s.Between ('"' :: after)) :
    s.read '"' = { s with inString := true, previous := some '"' } := by
  have hs := h.not_inComment (by decide)
  simp [read, mark, keeps_eq, hs, h.outside]

theorem Between.string_sifts {kind : Kind} {body : List Char} (hb : '"' ∉ body)
    (h : s.Between ('"' :: body ++ ['"'] ++ behind)) :
    s.Sifts (.token kind ('"' :: body ++ ['"'])) behind := by
  have hs := h.not_inComment (by decide)
  obtain ⟨previous, hbody⟩ : ∃ previous, body.foldl read
      { s with inString := true, previous := some '"' } =
      { s with inString := true, pending := body.reverse ++ s.pending, previous := previous } :=
    foldl_in_string hs rfl hb
  have hfold : ('"' :: body ++ ['"']).foldl read s =
      { s with kept := ('"' :: body ++ ['"']).reverse ++ s.kept, previous := some '"' } := by
    rw [List.cons_append, List.foldl_cons, h.open_string, List.foldl_append, hbody]
    simp [read, mark, keeps_eq, hs, h.pending, h.outside, show isBlank '"' = false from rfl,
      show isRecognizable '"' = true from rfl]
  refine ⟨(congrArg kept hfold :), fun _ => ?_⟩
  rw [Piece.text, hfold]
  refine ⟨h.pending, h.outside, fun hs' => absurd (hs.symm.trans hs') Bool.false_ne_true,
    fun _ hl => ?_⟩
  cases hl

theorem Between.unexpected (hne : run ≠ []) (hr : ∀ d ∈ run, isRecognizable d = false)
    (h : s.Between (run ++ behind)) : s.Sifts (.unexpected run) behind := by
  have hno {d : Char} (hd : isRecognizable d = true) : d ∉ run := fun hm =>
    absurd ((hr d hm).symm.trans hd) Bool.false_ne_true
  obtain ⟨c, rest, rfl⟩ := List.exists_cons_of_ne_nil hne
  have hs := h.not_inComment fun hc => hno (d := '\n') rfl (hc ▸ List.mem_cons_self)
  have hhead : ∀ d ∈ (c :: rest).head?, d = '/' → s.previous ≠ some '/' := by
    rintro d ⟨⟩
    exact h.apart hs
  have hnone : (c :: rest).filter (fun c => !isBlank c && isRecognizable c) = [] :=
    List.filter_eq_nil_iff.mpr fun d hd => by simp [hr d hd]
  have hfold := foldl_outside hs h.outside (hno rfl) hhead
    (fun hm => hno (d := '/') rfl (List.mem_of_mem_tail hm))
  rw [hnone] at hfold
  refine ⟨(congrArg kept hfold :), fun _ => ?_⟩
  rw [Piece.text, hfold]
  refine ⟨h.pending, h.outside, fun hs' => absurd (hs.symm.trans hs') Bool.false_ne_true,
    fun _ hl => ?_⟩
  rw [List.getLast?_eq_some_getLast (List.cons_ne_nil c rest), Option.some_or] at hl
  exact absurd (List.mem_of_getLast? ((List.getLast?_eq_some_getLast _).trans hl)) (hno rfl)

/-- What stands in an open string is never kept. -/
theorem Between.unterminated {body : List Char} (hb : '"' ∉ body) (h : s.Between ('"' :: body)) :
    s.Sifts (.unterminated body) [] := by
  have hs := h.not_inComment (by decide)
  obtain ⟨previous, hbody⟩ : ∃ previous, body.foldl read
      { s with inString := true, previous := some '"' } =
      { s with inString := true, pending := body.reverse ++ s.pending, previous := previous } :=
    foldl_in_string hs rfl hb
  refine ⟨?_, fun hne => absurd rfl hne⟩
  rw [Piece.text, List.foldl_cons, h.open_string, hbody]
  rfl

theorem Between.piece (hf : Fits p behind) (hm : ∀ run, p ≠ .malformed run)
    (h : s.Between (p.text ++ behind)) : s.Sifts p behind := by
  cases hf with
  | blank hc => exact h.blank (by simpa [isBlank, or_assoc] using hc)
  | comment hb hn => exact h.comment_sifts hb hn
  | @symbol sym _ _ hc =>
      refine h.plain (fun hnil => ?_) (.symbol hc)
      have hlength := congrArg List.length hnil
      have := length_symbol sym
      rw [String.length_toList, List.length_nil] at hlength
      omega
  | @keyword k _ _ =>
      obtain ⟨c, rest, hk, hc, hrest⟩ := spelled_keyword k
      rw [Piece.text, hk] at h
      rw [hk]
      exact h.plain (List.cons_ne_nil c rest) (.word hc hrest)
  | identifier hc hrest => exact h.plain (List.cons_ne_nil _ _) (.word hc hrest)
  | @number c rest _ _ hc hrest =>
      refine h.plain (List.cons_ne_nil c rest) (.of_slashless fun d hd => Bare.of_numberPart ?_)
      rcases List.mem_cons.mp hd with rfl | hd
      · simp [isNumberPart, hc]
      · exact hrest d hd
  | string hb => exact h.string_sifts hb
  | unexpected hr _ => exact h.unexpected (List.cons_ne_nil _ _) hr
  | malformed => exact absurd rfl (hm _)
  | unterminated hb => rw [List.append_nil] at h; exact h.unterminated hb

/-- Piece by piece, the sieve keeps what the tokens are written with. -/
theorem Between.tiles {ps : List Piece} {text : List Char} (ht : Tiles ps text)
    (hm : ∀ p ∈ ps, ∀ run, p ≠ .malformed run) (h : s.Between text) :
    (text.foldl read s).kept =
      ((ps.filter Piece.isToken).flatMap Piece.text).reverse ++ s.kept := by
  induction ht generalizing s with
  | nil => rfl
  | @cons p ps behind hf ht ih =>
      have hp := h.piece hf (hm p List.mem_cons_self)
      have hrest : (behind.foldl read (p.text.foldl read s)).kept =
          ((ps.filter Piece.isToken).flatMap Piece.text).reverse ++ (p.text.foldl read s).kept := by
        cases ht with
        | nil => rfl
        | cons hf' ht' =>
            have hbetween := hp.between (List.append_ne_nil_of_left_ne_nil hf'.ne_nil _)
            exact ih (fun q hq => hm q (List.mem_cons_of_mem p hq)) hbetween
      rw [List.foldl_append, hrest, hp.kept, List.filter_cons]
      split <;> simp

end Sieve

theorem sieved_eq {source : String} (h : ∀ p ∈ pieces source.toList, ∀ run, p ≠ .malformed run) :
    sieved source = String.ofList ((tokenPieces source).flatMap Piece.text) := by
  have hstart : Sieve.Between {} source.toList :=
    ⟨rfl, rfl, fun hs => Bool.noConfusion hs, fun _ hl => by cases hl⟩
  rw [sieved, hstart.tiles (tiles_pieces _) h, List.append_nil, List.reverse_reverse, tokenPieces]

/-- The end mark has no text. -/
theorem toList_join_lexemes (source : String) :
    (String.join ((tokens source).map Token.lexeme)).toList =
      (tokenPieces source).flatMap Piece.text := by
  have hheld : (heldTokens source).map (fun t => t.lexeme.toList) =
      (tokenPieces source).map Piece.text := map_lexeme_itemsFrom _ 1
  rw [String.toList_join, tokens_eq, List.map_append, List.flatMap_append, List.flatMap_map,
    List.flatMap_def, hheld, ← List.flatMap_def]
  simp

/-- Unless a number is malformed, the lexemes of a text written one behind the other are what is left
of it when it is sieved character by character. They are the tokens in the row of pieces that tiles
the text; all other pieces in it are blanks, comments, runs of characters that may not occur, or an
open string. -/
theorem lexemes_are_sieved {source : String}
    (h : ∀ f ∈ faults source, ∀ run, f.cause ≠ .malformedNumber run) :
    String.join ((tokens source).map Token.lexeme) = sieved source ∧
    ∀ ps, Tiles ps source.toList →
      sieved source = String.ofList ((ps.filter Piece.isToken).flatMap Piece.text) ∧
      ∀ p ∈ ps, p.isToken = false → (∃ c, p = .blank c) ∨ (∃ body, p = .comment body) ∨
        (∃ run, p = .unexpected run) ∨ ∃ body, p = .unterminated body := by
  have hpieces : ∀ p ∈ pieces source.toList, ∀ run, p ≠ .malformed run := by
    rintro _ hp run rfl
    obtain ⟨line, hline⟩ := item_mem_of_mem hp 1
    have hmem : Item.fault ⟨line, .malformedNumber (String.ofList run)⟩ ∈ items source := by
      rw [items_eq]
      exact List.mem_append_left _ (hline _ rfl)
    exact h _ (List.mem_filterMap.mpr ⟨_, hmem, rfl⟩) _ rfl
  refine ⟨?_, fun ps ht => ?_⟩
  · rw [sieved_eq hpieces, ← toList_join_lexemes, String.ofList_toList]
  · obtain rfl := tiles_iff.mp ht
    refine ⟨sieved_eq hpieces, fun p hp htoken => ?_⟩
    cases p with
    | token => cases htoken
    | blank c => exact .inl ⟨c, rfl⟩
    | comment body => exact .inr (.inl ⟨body, rfl⟩)
    | unexpected run => exact .inr (.inr (.inl ⟨run, rfl⟩))
    | malformed run => exact absurd rfl (hpieces _ hp run)
    | unterminated body => exact .inr (.inr (.inr ⟨body, rfl⟩))

def littered : String := "a / \"//é\" #é// /\n@+\"b"

/-- The slashes in the string are no comment, and the last quote is that of an open string. -/
theorem littered_is_sieved :
    (∀ f ∈ faults littered, ∀ run, f.cause ≠ .malformedNumber run) ∧
    sieved littered = "a/\"//é\"+" ∧
    String.join ((tokens littered).map Token.lexeme) = sieved littered := by
  have hfaults : faults littered =
      [⟨1, .unexpected "#é"⟩, ⟨2, .unexpected "@"⟩, ⟨2, .unterminatedString⟩] := by decide +kernel
  have hno : ∀ f ∈ faults littered, ∀ run, f.cause ≠ .malformedNumber run := by
    rw [hfaults]
    simp
  exact ⟨hno, by decide +kernel, (lexemes_are_sieved hno).1⟩

end Lox.Source
