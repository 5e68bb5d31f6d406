import Lox.Proofs.Copy.Lineless
import Lox.Proofs.Decimal.Faithful
import Lox.Proofs.Source.Spelled
import Lox.Proofs.Tree.Printed
import Lox.Proofs.Tree.Shape

/-!
Trees that can be told from their text. The tokens in such a tree are spelled as their kinds are,
and its literals are neither strings nor numbers beyond all bounds. The form of a node then shows
what node it is, however its names are spelled, and by induction what is below it.
-/

namespace Lox

open Source (isWordStart isWordPart IsWord)

/-! ### Tokens -/

/-- A token of one of the given kinds, with the text of its kind. -/
structure Token.Of (kinds : List Kind) (t : Token) : Prop where
  kind : t.kind ∈ kinds
  spelled : t.Spelled

variable {t u : Token} {kinds : List Kind}

theorem Token.lineless_eq (hk : t.kind = u.kind) (hl : t.lexeme = u.lexeme) :
    t.lineless = u.lineless := by
  cases t
  cases u
  cases hk
  cases hl
  rfl

/-- The text of a token tells its kind, if all kinds in question have one text. -/
theorem Token.Of.eq_of_lexeme (hkinds : ∀ k ∈ kinds, k.spelling?.isSome) (ht : t.Of kinds)
    (hu : u.Of kinds) (h : t.lexeme = u.lexeme) : t.lineless = u.lineless := by
  obtain ⟨text, htext⟩ := Option.isSome_iff_exists.mp (hkinds t.kind ht.kind)
  obtain ⟨more, hmore⟩ := Option.isSome_iff_exists.mp (hkinds u.kind hu.kind)
  have hsame : text = more :=
    (ht.spelled.fixed text htext).symm.trans (h.trans (hu.spelled.fixed more hmore))
  exact Token.lineless_eq (Kind.eq_of_spelling? htext (hsame ▸ hmore)) h

/-- The texts of the kinds that have one. -/
def spellings (kinds : List Kind) : List String := kinds.filterMap Kind.spelling?

theorem Token.Of.lexeme_mem (hkinds : ∀ k ∈ kinds, k.spelling?.isSome) (ht : t.Of kinds) :
    t.lexeme ∈ spellings kinds := by
  obtain ⟨text, htext⟩ := Option.isSome_iff_exists.mp (hkinds t.kind ht.kind)
  refine List.mem_filterMap.mpr ⟨t.kind, ht.kind, ?_⟩
  rw [htext, ht.spelled.fixed text htext]

theorem Token.Of.eq_of_single {k : Kind} (hk : k.spelling?.isSome) (ht : t.Of [k]) (hu : u.Of [k]) :
    t.lineless = u.lineless := by
  obtain ⟨text, htext⟩ := Option.isSome_iff_exists.mp hk
  have hkt := List.mem_singleton.mp ht.kind
  have hku := List.mem_singleton.mp hu.kind
  refine Token.lineless_eq (hkt.trans hku.symm) ?_
  rw [ht.spelled.fixed text (hkt ▸ htext), hu.spelled.fixed text (hku ▸ htext)]

def Token.IsName (t : Token) : Prop := t.Of [.identifier]

theorem Token.IsName.kind_eq (ht : t.IsName) : t.kind = .identifier := List.mem_singleton.mp ht.kind

theorem Token.IsName.eq_of_word (ht : t.IsName) (hu : u.IsName) (h : t.word = u.word) :
    t.lineless = u.lineless :=
  Token.lineless_eq (ht.kind_eq.trans hu.kind_eq.symm) (String.toList_injective (Bracketed.word.inj h))

/-! ### Literals -/

def Literal.Legible : Literal → Prop
  | .nil | .boolean _ => True
  | .number x => ∃ b, Decimal.magnitude x = .finite b
  | .string _ => False

/-- The words that are literals. -/
def literalWords : List String := ["nil", "true", "false"]

/-- A number begins with a digit or a sign, so it looks neither like a word nor like a list. -/
theorem exists_numberText {x : Float} (h : (Literal.number x).Legible) :
    ∃ c cs, (Decimal.markedText x).toList = c :: cs ∧ isWordStart c = false ∧
      ∀ d ∈ c :: cs, Bracketed.isPlain d = true := by
  obtain ⟨b, hb⟩ := h
  obtain ⟨d, ds, hmarked, hd, hds⟩ := b.exists_marked
  have hdigit {c : Char} (hc : c.isDigit = true) : Bracketed.isPlain c = true :=
    Bracketed.isPlain_of (by decide) hc
  have hplain : ∀ c ∈ d :: ds, Bracketed.isPlain c = true := by
    intro c hc
    rcases List.mem_cons.mp hc with rfl | hc
    · exact hdigit hd
    · rcases hds c hc with h | rfl
      · exact hdigit h
      · decide
  rw [Decimal.toList_markedText hb, hmarked]
  unfold Decimal.signMark
  split
  · refine ⟨'-', d :: ds, rfl, by decide, fun c hc => ?_⟩
    rcases List.mem_cons.mp hc with rfl | hc
    · decide
    · exact hplain c hc
  · exact ⟨d, ds, rfl, (Source.digit_apart hd).2.2, hplain⟩

theorem numberText_ne {x : Float} (h : (Literal.number x).Legible) {w : String}
    (hw : w ∈ literalWords) : Decimal.markedText x ≠ w := by
  obtain ⟨c, cs, htext, hc, -⟩ := exists_numberText h
  rintro rfl
  have hstart : ∀ w ∈ literalWords, w.toList.head?.all isWordStart = true := by decide
  have hc' := hstart _ hw
  rw [htext, List.head?_cons, Option.all_some, hc] at hc'
  cases hc'

theorem Literal.eq_of_text {l m : Literal} (hl : l.Legible) (hm : m.Legible) (h : l.text = m.text) :
    l = m := by
  cases l <;> cases m <;> first | exact hl.elim | exact hm.elim | skip
  case nil.nil => rfl
  case boolean.boolean b c => revert h; cases b <;> cases c <;> decide
  case nil.boolean b => revert h; cases b <;> decide
  case boolean.nil b => revert h; cases b <;> decide
  case number.number x y =>
    obtain ⟨b, hb⟩ := hl
    obtain ⟨c, hc⟩ := hm
    rw [Decimal.eq_of_markedText hb hc h]
  case nil.number x => exact absurd h.symm (numberText_ne hm (by decide))
  case number.nil x => exact absurd h (numberText_ne hl (by decide))
  case boolean.number b x => exact absurd h.symm (numberText_ne hm (by cases b <;> decide))
  case number.boolean x b => exact absurd h (numberText_ne hl (by cases b <;> decide))

/-! ### What is legible -/

mutual

def Expr.Legible : Expr → Prop
  | .literal l => l.Legible
  | .grouping e => e.Legible
  | .unary op e => op.Of unaryOperators ∧ e.Legible
  | .binary l op r => op.Of binaryOperators ∧ l.Legible ∧ r.Legible
  | .logical l op r => op.Of logicalOperators ∧ l.Legible ∧ r.Legible
  | .read _ name => name.IsName
  | .assign _ name e => name.IsName ∧ e.Legible
  | .call callee paren args => paren.Of [.symbol .rightParen] ∧ callee.Legible ∧ Expr.ListLegible args

def Expr.ListLegible : List Expr → Prop
  | [] => True
  | e :: es => e.Legible ∧ Expr.ListLegible es

end

mutual

def Stmt.Legible : Stmt → Prop
  | .expression e => e.Legible
  | .print e => e.Legible
  | .var name none => name.IsName
  | .var name (some e) => name.IsName ∧ e.Legible
  | .block body => Stmt.ListLegible body
  | .conditional c yes none => c.Legible ∧ yes.Legible
  | .conditional c yes (some no) => c.Legible ∧ yes.Legible ∧ no.Legible
  | .whileLoop c body => c.Legible ∧ body.Legible
  | .function f => Stmt.FunctionLegible f
  | .returning keyword none => keyword.Of [.keyword .kwReturn]
  | .returning keyword (some e) => keyword.Of [.keyword .kwReturn] ∧ e.Legible
  | .classDecl name methods => name.IsName ∧ Stmt.MethodsLegible methods

def Stmt.ListLegible : List Stmt → Prop
  | [] => True
  | s :: ss => s.Legible ∧ Stmt.ListLegible ss

def Stmt.FunctionLegible : Function → Prop
  | ⟨name, params, body⟩ => name.IsName ∧ (∀ p ∈ params, p.IsName) ∧ Stmt.ListLegible body

def Stmt.MethodsLegible : List Function → Prop
  | [] => True
  | f :: fs => Stmt.FunctionLegible f ∧ Stmt.MethodsLegible fs

end

theorem Expr.listLegible_iff {es : List Expr} : Expr.ListLegible es ↔ ∀ e ∈ es, e.Legible := by
  induction es with
  | nil => simp [Expr.ListLegible]
  | cons e es ih => simp [Expr.ListLegible, ih]

theorem Stmt.listLegible_iff {ss : List Stmt} : Stmt.ListLegible ss ↔ ∀ s ∈ ss, s.Legible := by
  induction ss with
  | nil => simp [Stmt.ListLegible]
  | cons s ss ih => simp [Stmt.ListLegible, ih]

theorem Stmt.methodsLegible_iff {fs : List Function} :
    Stmt.MethodsLegible fs ↔ ∀ f ∈ fs, Stmt.FunctionLegible f := by
  induction fs with
  | nil => simp [Stmt.MethodsLegible]
  | cons f fs ih => simp [Stmt.MethodsLegible, ih]

theorem Stmt.functionLegible_iff {f : Function} : Stmt.FunctionLegible f ↔
    f.name.IsName ∧ (∀ p ∈ f.params, p.IsName) ∧ ∀ s ∈ f.body, s.Legible := by
  cases f
  rw [Stmt.FunctionLegible, Stmt.listLegible_iff]

/-! ### Their forms hold plain words -/

namespace Bracketed

theorem plain_headed {head : String} {parts : List Bracketed} (hh : isPlainWord head.toList = true)
    (hp : AllPlain parts) : (headed head parts).Plain :=
  ⟨hh, hp⟩

end Bracketed

theorem Token.IsName.exists_text (ht : t.IsName) : ∃ c cs, t.lexeme.toList = c :: cs ∧
    isWordStart c = true ∧ ∀ d ∈ c :: cs, Bracketed.isPlain d = true := by
  obtain ⟨c, cs, htext, hc, hcs⟩ := (ht.spelled.word ht.kind_eq).1
  have hstart : isWordPart c = true := by
    simp only [isWordStart, isWordPart, Char.isAlphanum, Bool.or_eq_true] at hc ⊢
    exact hc.imp_left .inl
  refine ⟨c, cs, htext, hc, fun d hd => Bracketed.isPlain_of (p := isWordPart) (by decide) ?_⟩
  rcases List.mem_cons.mp hd with rfl | hd
  · exact hstart
  · exact hcs d hd

theorem Token.IsName.plain (ht : t.IsName) : t.word.Plain := by
  obtain ⟨c, cs, htext, -, hplain⟩ := ht.exists_text
  refine Bracketed.isPlainWord_iff.mpr ?_
  rw [htext]
  exact ⟨List.cons_ne_nil _ _, hplain⟩

theorem Literal.Legible.plain {l : Literal} (h : l.Legible) : (Bracketed.word l.text.toList).Plain := by
  have hwords : ∀ w ∈ literalWords, Bracketed.isPlainWord w.toList = true := by decide
  cases l with
  | nil => exact hwords "nil" (by decide)
  | boolean b => exact hwords (toString b) (by cases b <;> decide)
  | number x =>
    obtain ⟨c, cs, htext, -, hplain⟩ := exists_numberText h
    refine Bracketed.isPlainWord_iff.mpr ?_
    rw [show (Literal.number x).text.toList = c :: cs from htext]
    exact ⟨List.cons_ne_nil _ _, hplain⟩
  | string s => exact h.elim

/-- An operator is a plain head. -/
theorem Token.Of.plain_headed {parts : List Bracketed} (ht : t.Of kinds)
    (hkinds : ∀ k ∈ kinds, k.spelling?.isSome)
    (hplain : ∀ w ∈ spellings kinds, Bracketed.isPlainWord w.toList = true)
    (hp : Bracketed.AllPlain parts) : (Bracketed.headed t.lexeme parts).Plain :=
  Bracketed.plain_headed (hplain _ (ht.lexeme_mem hkinds)) hp

open Bracketed (plain_headed)

mutual

theorem Expr.plain_form : (e : Expr) → e.Legible → e.form.Plain
  | .literal l, h => Literal.Legible.plain h
  | .grouping e, h => plain_headed (by decide) ⟨Expr.plain_form e h, trivial⟩
  | .unary op e, h => h.1.plain_headed (by decide) (by decide) ⟨Expr.plain_form e h.2, trivial⟩
  | .binary l op r, h =>
      h.1.plain_headed (by decide) (by decide)
        ⟨Expr.plain_form l h.2.1, Expr.plain_form r h.2.2, trivial⟩
  | .logical l op r, h =>
      h.1.plain_headed (by decide) (by decide)
        ⟨Expr.plain_form l h.2.1, Expr.plain_form r h.2.2, trivial⟩
  | .read _ name, h => Token.IsName.plain h
  | .assign _ name e, h => plain_headed (by decide) ⟨h.1.plain, Expr.plain_form e h.2, trivial⟩
  | .call callee _ args, h =>
      plain_headed (by decide) ⟨Expr.plain_form callee h.2.1, Expr.allPlain_forms args h.2.2⟩

theorem Expr.allPlain_forms : (es : List Expr) → Expr.ListLegible es →
    Bracketed.AllPlain (Expr.forms es)
  | [], _ => trivial
  | e :: es, h => ⟨Expr.plain_form e h.1, Expr.allPlain_forms es h.2⟩

end

theorem plain_words {ts : List Token} (h : ∀ t ∈ ts, t.IsName) :
    (Bracketed.list (ts.map Token.word)).Plain :=
  Bracketed.allPlain_iff.mpr fun b hb => by
    obtain ⟨t, ht, rfl⟩ := List.mem_map.mp hb
    exact (h t ht).plain

mutual

theorem Stmt.plain_form : (s : Stmt) → s.Legible → s.form.Plain
  | .expression e, h | .print e, h => plain_headed (by decide) ⟨e.plain_form h, trivial⟩
  | .var name none, h => plain_headed (by decide) ⟨Token.IsName.plain h, trivial⟩
  | .var name (some e), h => plain_headed (by decide) ⟨h.1.plain, e.plain_form h.2, trivial⟩
  | .block body, h => plain_headed (by decide) (Stmt.allPlain_forms body h)
  | .conditional c yes none, h =>
      plain_headed (by decide) ⟨c.plain_form h.1, Stmt.plain_form yes h.2, trivial⟩
  | .conditional c yes (some no), h =>
      plain_headed (by decide)
        ⟨c.plain_form h.1, Stmt.plain_form yes h.2.1, Stmt.plain_form no h.2.2, trivial⟩
  | .whileLoop c body, h =>
      plain_headed (by decide) ⟨c.plain_form h.1, Stmt.plain_form body h.2, trivial⟩
  | .function f, h => Stmt.plain_functionForm f h
  | .returning _ none, _ => plain_headed (by decide) trivial
  | .returning _ (some e), h => plain_headed (by decide) ⟨e.plain_form h.2, trivial⟩
  | .classDecl name methods, h =>
      plain_headed (by decide) ⟨h.1.plain, Stmt.allPlain_methodForms methods h.2⟩

theorem Stmt.allPlain_forms : (ss : List Stmt) → Stmt.ListLegible ss →
    Bracketed.AllPlain (Stmt.forms ss)
  | [], _ => trivial
  | s :: ss, h => ⟨Stmt.plain_form s h.1, Stmt.allPlain_forms ss h.2⟩

theorem Stmt.plain_functionForm : (f : Function) → Stmt.FunctionLegible f → (Stmt.functionForm f).Plain
  | ⟨_, _, body⟩, h =>
      plain_headed (by decide) ⟨h.1.plain, plain_words h.2.1, Stmt.allPlain_forms body h.2.2⟩

theorem Stmt.allPlain_methodForms : (fs : List Function) → Stmt.MethodsLegible fs →
    Bracketed.AllPlain (Stmt.methodForms fs)
  | [], _ => trivial
  | f :: fs, h => ⟨Stmt.plain_functionForm f h.1, Stmt.allPlain_methodForms fs h.2⟩

end

end Lox
