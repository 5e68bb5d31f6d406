import Lox.Proofs.Source.Joined

/-!
How tokens are spelled. The text of a symbol or a reserved word is that of its kind, and no two
kinds share it; the text of an identifier is a word that is not reserved.
-/

namespace Lox

/-- The one text of a kind, for the kinds that have one. -/
def Kind.spelling? : Kind → Option String
  | .symbol s => some s.text
  | .keyword k => some k.text
  | _ => none

namespace Source

/-- A letter or an underscore, and letters, digits and underscores behind it. -/
def IsWord (text : List Char) : Prop :=
  ∃ c rest, text = c :: rest ∧ isWordStart c = true ∧ ∀ d ∈ rest, isWordPart d = true

end Source

open Source

structure Token.Spelled (t : Token) : Prop where
  fixed : ∀ text ∈ t.kind.spelling?, t.lexeme = text
  word : t.kind = .identifier → IsWord t.lexeme.toList ∧ ∀ k : Keyword, k.text ≠ t.lexeme
  /-- The digits of a number denote it. -/
  number : ∀ x, t.kind = .number x → ∃ digits places, x = Decimal.ofDigits digits places

theorem Symbol.text_injective : ∀ {s t : Symbol}, s.text = t.text → s = t := by
  have hfind : ∀ s : Symbol, Symbol.all.find? (·.text = s.text) = some s := by
    intro s
    cases s <;> decide
  intro s t h
  exact Option.some.inj ((hfind s).symm.trans (h ▸ hfind t))

theorem Keyword.text_injective {k l : Keyword} (h : k.text = l.text) : k = l :=
  Option.some.inj ((ofText?_text k).symm.trans (h ▸ ofText?_text l))

theorem Keyword.isWord_text (k : Keyword) : IsWord k.text.toList := by
  obtain ⟨c, rest, htext, hc, hrest⟩ := spelled_keyword k
  exact ⟨c, rest, htext, hc, hrest⟩

/-- No symbol looks like a word. -/
theorem Symbol.not_isWord_text (s : Symbol) : ¬IsWord s.text.toList := by
  rintro ⟨c, rest, htext, hc, -⟩
  rcases spelled s with ⟨d, hd, hsymbol⟩ | ⟨d, first, hd, hsymbol, -⟩
  all_goals
    rw [hd] at htext
    obtain rfl := (List.cons.inj htext).1
    rw [(symbolOf?_apart hsymbol).2.2.2] at hc
    cases hc

theorem Kind.fixed_of_spelling? {k : Kind} {text : String} (h : k.spelling? = some text) :
    (∃ s, k = .symbol s ∧ s.text = text) ∨ ∃ w, k = .keyword w ∧ w.text = text := by
  cases k with
  | symbol s => exact .inl ⟨s, rfl, Option.some.inj h⟩
  | keyword w => exact .inr ⟨w, rfl, Option.some.inj h⟩
  | _ => cases h

theorem Kind.eq_of_spelling? {k l : Kind} {text : String} (hk : k.spelling? = some text)
    (hl : l.spelling? = some text) : k = l := by
  rcases fixed_of_spelling? hk with ⟨s, rfl, rfl⟩ | ⟨w, rfl, rfl⟩ <;>
    rcases fixed_of_spelling? hl with ⟨t, rfl, htext⟩ | ⟨v, rfl, htext⟩
  · rw [Symbol.text_injective htext]
  · exact absurd (htext ▸ v.isWord_text) s.not_isWord_text
  · exact absurd (htext ▸ w.isWord_text) t.not_isWord_text
  · rw [Keyword.text_injective htext]

namespace Source

theorem ofDigits_of_numberOf? {run : List Char} {x : Float} (h : numberOf? run = some x) :
    ∃ digits places, x = Decimal.ofDigits digits places := by
  unfold numberOf? at h
  simp only at h
  split at h <;> cases h
  exact ⟨_, _, rfl⟩

theorem Fits.spelled {kind : Kind} {lexeme behind : List Char} (h : Fits (.token kind lexeme) behind)
    (line : Nat) : Token.Spelled ⟨kind, String.ofList lexeme, line⟩ := by
  cases h with
  | symbol | keyword =>
    refine ⟨?_, fun hk => (by cases hk), fun x hx => by cases hx⟩
    rintro _ ⟨⟩
    exact String.ofList_toList
  | identifier hc hrest _ hk =>
    refine ⟨fun _ ht => (by cases ht), fun _ => ?_, fun x hx => by cases hx⟩
    rw [String.toList_ofList]
    refine ⟨⟨_, _, rfl, hc, hrest⟩, fun k heq => hk k ?_⟩
    rw [heq, String.toList_ofList]
  | number _ _ _ _ hx =>
    refine ⟨fun _ ht => (by cases ht), fun hk => (by cases hk), ?_⟩
    rintro _ ⟨⟩
    exact ofDigits_of_numberOf? hx
  | string => exact ⟨fun _ ht => (by cases ht), fun hk => (by cases hk), fun x hx => by cases hx⟩

/-- Every token of a text is spelled as its kind is. -/
theorem spelled_of_mem_tokens {source : String} {t : Token} (ht : t ∈ tokens source) : t.Spelled := by
  rw [tokens_eq, List.mem_append] at ht
  rcases ht with ht | ht
  · obtain ⟨i, hi, hit⟩ := List.mem_filterMap.mp ht
    cases i with
    | fault => cases hit
    | token u =>
      cases hit
      obtain ⟨behind, hfits⟩ := fits_of_mem (tiles_pieces source.toList) (piece_of_token hi)
      have hspelled := hfits.spelled t.line
      rwa [String.ofList_toList] at hspelled
  · cases List.mem_singleton.mp ht
    exact ⟨fun _ ht => (by cases ht), fun hk => (by cases hk), fun x hx => by cases hx⟩

end Source

end Lox
