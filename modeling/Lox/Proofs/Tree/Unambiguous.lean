import Lox.Proofs.Tree.Legible

/-!
Trees with one text are the same apart from lines and identities. The head of a list and the number
of its parts tell the node, so names that are spelled like heads do no harm.
-/

namespace Lox

open Bracketed (headed)
open Source (isWordStart)

/-! ### What node a form is of -/

inductive Expr.Shape
  | literal | grouping | unary | binary | logical | read | assign | call
  deriving DecidableEq

def Expr.shape : Expr → Expr.Shape
  | .literal _ => .literal
  | .grouping _ => .grouping
  | .unary _ _ => .unary
  | .binary _ _ _ => .binary
  | .logical _ _ _ => .logical
  | .read _ _ => .read
  | .assign _ _ _ => .assign
  | .call _ _ _ => .call

/-- The node with the given head and number of parts. A minus in front of one part is unary. -/
def headShape (head : String) (parts : Nat) : Expr.Shape :=
  if head = "group" then .grouping
  else if head = "call" then .call
  else if head = "=" then .assign
  else if head ∈ spellings logicalOperators then .logical
  else if parts = 1 then .unary
  else .binary

/-- A word is a name unless it is a literal. -/
def wordShape (word : List Char) : Expr.Shape :=
  if word.head?.any isWordStart = true ∧ String.ofList word ∉ literalWords then .read else .literal

def Bracketed.shape : Bracketed → Option Expr.Shape
  | .word cs => some (wordShape cs)
  | .list (.word head :: parts) => some (headShape (String.ofList head) parts.length)
  | .list _ => none

theorem shape_headed (head : String) (parts : List Bracketed) :
    (headed head parts).shape = some (headShape head parts.length) := by
  rw [headed, Bracketed.shape, String.ofList_toList]

theorem Literal.Legible.shape {l : Literal} (h : l.Legible) : wordShape l.text.toList = .literal := by
  cases l with
  | nil => decide
  | boolean b => cases b <;> decide
  | number x =>
    obtain ⟨c, cs, htext, hc, -⟩ := exists_numberText h
    have hchars : (Literal.number x).text.toList = c :: cs := htext
    simp [wordShape, hchars, hc]
  | string s => exact h.elim

theorem Token.IsName.shape {t : Token} (h : t.IsName) : wordShape t.lexeme.toList = .read := by
  obtain ⟨c, cs, htext, hc, -⟩ := h.exists_text
  have hword : String.ofList t.lexeme.toList ∉ literalWords := by
    rw [String.ofList_toList]
    intro hmem
    have hkeyword : ∀ w ∈ literalWords, ∃ k ∈ Keyword.all, k.text = w := by decide
    obtain ⟨k, -, hk⟩ := hkeyword _ hmem
    exact (h.spelled.word h.kind_eq).2 k hk
  refine if_pos ⟨?_, hword⟩
  rw [htext]
  exact hc

theorem Token.Of.shape {t : Token} {kinds : List Kind} {n : Nat} {sh : Expr.Shape} (ht : t.Of kinds)
    (hkinds : ∀ k ∈ kinds, k.spelling?.isSome) (hw : ∀ w ∈ spellings kinds, headShape w n = sh) :
    headShape t.lexeme n = sh := hw _ (ht.lexeme_mem hkinds)

theorem Expr.shape_form (e : Expr) (h : e.Legible) : e.form.shape = some e.shape := by
  cases e with
  | literal l => exact congrArg some (Literal.Legible.shape h)
  | read id name => exact congrArg some (Token.IsName.shape h)
  | unary op e =>
    have hs : headShape op.lexeme 1 = .unary := h.1.shape (by decide) (by decide)
    exact (shape_headed _ _).trans (congrArg some hs)
  | binary l op r =>
    have hs : headShape op.lexeme 2 = .binary := h.1.shape (by decide) (by decide)
    exact (shape_headed _ _).trans (congrArg some hs)
  | logical l op r =>
    have hs : headShape op.lexeme 2 = .logical := h.1.shape (by decide) (by decide)
    exact (shape_headed _ _).trans (congrArg some hs)
  | grouping e => exact shape_headed _ _
  | assign id name e => exact shape_headed _ _
  | call callee paren args => exact shape_headed _ _

theorem Expr.shape_eq {e e' : Expr} (h : e.Legible) (h' : e'.Legible) (heq : e.form = e'.form) :
    e.shape = e'.shape := by
  have := congrArg Bracketed.shape heq
  rw [e.shape_form h, e'.shape_form h'] at this
  exact Option.some.inj this

/-! ### Expressions -/

/-- Lists with one head have the same parts. -/
theorem parts_of_headed {head head' : String} {parts parts' : List Bracketed}
    (h : headed head parts = headed head' parts') : head = head' ∧ parts = parts' := by
  obtain ⟨hword, hparts⟩ := List.cons.inj (Bracketed.list.inj h)
  exact ⟨String.toList_injective (Bracketed.word.inj hword), hparts⟩

/-- An operator between two operands. -/
theorem operator_parts {kinds : List Kind} {op op' : Token} {f g f' g' : Bracketed}
    (hkinds : ∀ k ∈ kinds, k.spelling?.isSome) (ho : op.Of kinds) (ho' : op'.Of kinds)
    (h : headed op.lexeme [f, g] = headed op'.lexeme [f', g']) :
    op.lineless = op'.lineless ∧ f = f' ∧ g = g' := by
  obtain ⟨hlexeme, hparts⟩ := parts_of_headed h
  obtain ⟨hf, hg⟩ := List.cons.inj hparts
  exact ⟨ho.eq_of_lexeme hkinds ho' hlexeme, hf, (List.cons.inj hg).1⟩

mutual

theorem Expr.lineless_of_form : (e e' : Expr) → e.Legible → e'.Legible → e.form = e'.form →
    e.lineless = e'.lineless
  | .literal l, e', h, h', heq => by
      have hs := Expr.shape_eq h h' heq
      cases e' with
      | literal m =>
        have htext : l.text = m.text := String.toList_injective (Bracketed.word.inj heq)
        rw [Literal.eq_of_text h h' htext]
      | _ => cases hs
  | .grouping e, e', h, h', heq => by
      have hs := Expr.shape_eq h h' heq
      cases e' with
      | grouping e' =>
        have hparts := List.cons.inj (parts_of_headed heq).2
        exact congrArg Expr.grouping (Expr.lineless_of_form e e' h h' hparts.1)
      | _ => cases hs
  | .unary op e, e', h, h', heq => by
      have hs := Expr.shape_eq h h' heq
      cases e' with
      | unary op' e' =>
        obtain ⟨hop, hparts⟩ := parts_of_headed heq
        have he := Expr.lineless_of_form e e' h.2 h'.2 (List.cons.inj hparts).1
        exact congrArg₂ Expr.unary (h.1.eq_of_lexeme (by decide) h'.1 hop) he
      | _ => cases hs
  | .binary l op r, e', h, h', heq => by
      have hs := Expr.shape_eq h h' heq
      cases e' with
      | binary l' op' r' =>
        obtain ⟨hop, hl, hr⟩ := operator_parts (by decide) h.1 h'.1 heq
        have hl := Expr.lineless_of_form l l' h.2.1 h'.2.1 hl
        have hr := Expr.lineless_of_form r r' h.2.2 h'.2.2 hr
        change Expr.binary l.lineless op.lineless r.lineless =
          Expr.binary l'.lineless op'.lineless r'.lineless
        rw [hl, hop, hr]
      | _ => cases hs
  | .logical l op r, e', h, h', heq => by
      have hs := Expr.shape_eq h h' heq
      cases e' with
      | logical l' op' r' =>
        obtain ⟨hop, hl, hr⟩ := operator_parts (by decide) h.1 h'.1 heq
        have hl := Expr.lineless_of_form l l' h.2.1 h'.2.1 hl
        have hr := Expr.lineless_of_form r r' h.2.2 h'.2.2 hr
        change Expr.logical l.lineless op.lineless r.lineless =
          Expr.logical l'.lineless op'.lineless r'.lineless
        rw [hl, hop, hr]
      | _ => cases hs
  | .read id name, e', h, h', heq => by
      have hs := Expr.shape_eq h h' heq
      cases e' with
      | read id' name' => exact congrArg (Expr.read 0) (Token.IsName.eq_of_word h h' heq)
      | _ => cases hs
  | .assign id name e, e', h, h', heq => by
      have hs := Expr.shape_eq h h' heq
      cases e' with
      | assign id' name' e' =>
        obtain ⟨hname, hparts⟩ := List.cons.inj (parts_of_headed heq).2
        have he := Expr.lineless_of_form e e' h.2 h'.2 (List.cons.inj hparts).1
        exact congrArg₂ (Expr.assign 0) (h.1.eq_of_word h'.1 hname) he
      | _ => cases hs
  | .call callee paren args, e', h, h', heq => by
      have hs := Expr.shape_eq h h' heq
      cases e' with
      | call callee' paren' args' =>
        obtain ⟨hc, hparts⟩ := List.cons.inj (parts_of_headed heq).2
        have hc := Expr.lineless_of_form callee callee' h.2.1 h'.2.1 hc
        have hp := h.1.eq_of_single (by decide) h'.1
        have ha := Expr.listLineless_of_forms args args' h.2.2 h'.2.2 hparts
        change Expr.call callee.lineless paren.lineless (Expr.listLineless args) =
          Expr.call callee'.lineless paren'.lineless (Expr.listLineless args')
        rw [hc, hp, ha]
      | _ => cases hs

theorem Expr.listLineless_of_forms : (es es' : List Expr) → Expr.ListLegible es → Expr.ListLegible es' →
    Expr.forms es = Expr.forms es' → Expr.listLineless es = Expr.listLineless es'
  | [], [], _, _, _ => rfl
  | [], _ :: _, _, _, heq => by cases heq
  | _ :: _, [], _, _, heq => by cases heq
  | e :: es, e' :: es', h, h', heq => by
      obtain ⟨he, hes⟩ := List.cons.inj heq
      exact congrArg₂ List.cons (Expr.lineless_of_form e e' h.1 h'.1 he)
        (Expr.listLineless_of_forms es es' h.2 h'.2 hes)

end

/-! ### Statements -/

def Stmt.head : Stmt → String
  | .expression _ => ";"
  | .print _ => "print"
  | .var _ _ => "var"
  | .block _ => "block"
  | .conditional _ _ _ => "if"
  | .whileLoop _ _ => "while"
  | .function _ => "fun"
  | .returning _ _ => "return"
  | .classDecl _ _ => "class"

theorem Stmt.exists_parts (s : Stmt) : ∃ parts, s.form = headed s.head parts := by
  cases s with
  | var name initial => cases initial <;> exact ⟨_, rfl⟩
  | conditional c yes no => cases no <;> exact ⟨_, rfl⟩
  | returning keyword value => cases value <;> exact ⟨_, rfl⟩
  | function f => cases f; exact ⟨_, rfl⟩
  | _ => exact ⟨_, rfl⟩

theorem Stmt.head_eq {s s' : Stmt} (heq : s.form = s'.form) : s.head = s'.head := by
  obtain ⟨parts, hp⟩ := s.exists_parts
  obtain ⟨parts', hp'⟩ := s'.exists_parts
  rw [hp, hp'] at heq
  exact (parts_of_headed heq).1

theorem lineless_of_words : (ps ps' : List Token) → (∀ p ∈ ps, p.IsName) → (∀ p ∈ ps', p.IsName) →
    ps.map Token.word = ps'.map Token.word → ps.map Token.lineless = ps'.map Token.lineless
  | [], [], _, _, _ => rfl
  | [], _ :: _, _, _, heq => by cases heq
  | _ :: _, [], _, _, heq => by cases heq
  | p :: ps, p' :: ps', h, h', heq => by
      obtain ⟨hp, hps⟩ := List.cons.inj heq
      obtain ⟨hn, hns⟩ := List.forall_mem_cons.mp h
      obtain ⟨hn', hns'⟩ := List.forall_mem_cons.mp h'
      exact congrArg₂ List.cons (hn.eq_of_word hn' hp) (lineless_of_words ps ps' hns hns' hps)

mutual

theorem Stmt.lineless_of_form : (s s' : Stmt) → s.Legible → s'.Legible → s.form = s'.form →
    s.lineless = s'.lineless
  | .expression e, s', h, h', heq => by
      have hs := Stmt.head_eq heq
      cases s' with
      | expression e' =>
        have he := Expr.lineless_of_form e e' h h' (List.cons.inj (parts_of_headed heq).2).1
        exact congrArg Stmt.expression he
      | _ => exact absurd hs (by simp [Stmt.head])
  | .print e, s', h, h', heq => by
      have hs := Stmt.head_eq heq
      cases s' with
      | print e' =>
        have he := Expr.lineless_of_form e e' h h' (List.cons.inj (parts_of_headed heq).2).1
        exact congrArg Stmt.print he
      | _ => exact absurd hs (by simp [Stmt.head])
  | .block body, s', h, h', heq => by
      have hs := Stmt.head_eq heq
      cases s' with
      | block body' =>
        exact congrArg Stmt.block (Stmt.listLineless_of_forms body body' h h' (parts_of_headed heq).2)
      | _ => exact absurd hs (by simp [Stmt.head])
  | .var name none, s', h, h', heq => by
      have hs := Stmt.head_eq heq
      cases s' with
      | var name' initial' =>
        cases initial' with
        | none =>
          have hname := Token.IsName.eq_of_word h h' (List.cons.inj (parts_of_headed heq).2).1
          exact congrArg (Stmt.var · none) hname
        | some e' => cases (List.cons.inj (parts_of_headed heq).2).2
      | _ => exact absurd hs (by simp [Stmt.head])
  | .var name (some e), s', h, h', heq => by
      have hs := Stmt.head_eq heq
      cases s' with
      | var name' initial' =>
        cases initial' with
        | none => cases (List.cons.inj (parts_of_headed heq).2).2
        | some e' =>
          obtain ⟨hname, hparts⟩ := List.cons.inj (parts_of_headed heq).2
          have he := Expr.lineless_of_form e e' h.2 h'.2 (List.cons.inj hparts).1
          exact congrArg₂ (fun name e => Stmt.var name (some e)) (h.1.eq_of_word h'.1 hname) he
      | _ => exact absurd hs (by simp [Stmt.head])
  | .conditional c yes none, s', h, h', heq => by
      have hs := Stmt.head_eq heq
      cases s' with
      | conditional c' yes' no' =>
        cases no' with
        | none =>
          obtain ⟨hc, hparts⟩ := List.cons.inj (parts_of_headed heq).2
          have hc := Expr.lineless_of_form c c' h.1 h'.1 hc
          have hyes := Stmt.lineless_of_form yes yes' h.2 h'.2 (List.cons.inj hparts).1
          exact congrArg₂ (Stmt.conditional · · none) hc hyes
        | some no' => cases (List.cons.inj (List.cons.inj (parts_of_headed heq).2).2).2
      | _ => exact absurd hs (by simp [Stmt.head])
  | .conditional c yes (some no), s', h, h', heq => by
      have hs := Stmt.head_eq heq
      cases s' with
      | conditional c' yes' no' =>
        cases no' with
        | none => cases (List.cons.inj (List.cons.inj (parts_of_headed heq).2).2).2
        | some no' =>
          obtain ⟨hc, hparts⟩ := List.cons.inj (parts_of_headed heq).2
          obtain ⟨hyes, hparts⟩ := List.cons.inj hparts
          have hc := Expr.lineless_of_form c c' h.1 h'.1 hc
          have hyes := Stmt.lineless_of_form yes yes' h.2.1 h'.2.1 hyes
          have hno := Stmt.lineless_of_form no no' h.2.2 h'.2.2 (List.cons.inj hparts).1
          change Stmt.conditional c.lineless yes.lineless (some no.lineless) =
            Stmt.conditional c'.lineless yes'.lineless (some no'.lineless)
          rw [hc, hyes, hno]
      | _ => exact absurd hs (by simp [Stmt.head])
  | .whileLoop c body, s', h, h', heq => by
      have hs := Stmt.head_eq heq
      cases s' with
      | whileLoop c' body' =>
        obtain ⟨hc, hparts⟩ := List.cons.inj (parts_of_headed heq).2
        have hc := Expr.lineless_of_form c c' h.1 h'.1 hc
        have hbody := Stmt.lineless_of_form body body' h.2 h'.2 (List.cons.inj hparts).1
        exact congrArg₂ Stmt.whileLoop hc hbody
      | _ => exact absurd hs (by simp [Stmt.head])
  | .function f, s', h, h', heq => by
      have hs := Stmt.head_eq heq
      cases s' with
      | function f' => exact congrArg Stmt.function (Stmt.functionLineless_of_form f f' h h' heq)
      | _ => exact absurd hs (by simp [Stmt.head])
  | .returning keyword none, s', h, h', heq => by
      have hs := Stmt.head_eq heq
      cases s' with
      | returning keyword' value' =>
        cases value' with
        | none => exact congrArg (Stmt.returning · none) (Token.Of.eq_of_single (by decide) h h')
        | some e' => cases (parts_of_headed heq).2
      | _ => exact absurd hs (by simp [Stmt.head])
  | .returning keyword (some e), s', h, h', heq => by
      have hs := Stmt.head_eq heq
      cases s' with
      | returning keyword' value' =>
        cases value' with
        | none => cases (parts_of_headed heq).2
        | some e' =>
          have he := Expr.lineless_of_form e e' h.2 h'.2 (List.cons.inj (parts_of_headed heq).2).1
          exact congrArg₂ (fun keyword e => Stmt.returning keyword (some e))
            (h.1.eq_of_single (by decide) h'.1) he
      | _ => exact absurd hs (by simp [Stmt.head])
  | .classDecl name methods, s', h, h', heq => by
      have hs := Stmt.head_eq heq
      cases s' with
      | classDecl name' methods' =>
        obtain ⟨hname, hparts⟩ := List.cons.inj (parts_of_headed heq).2
        have hmethods := Stmt.methodsLineless_of_forms methods methods' h.2 h'.2 hparts
        exact congrArg₂ Stmt.classDecl (h.1.eq_of_word h'.1 hname) hmethods
      | _ => exact absurd hs (by simp [Stmt.head])

theorem Stmt.listLineless_of_forms : (ss ss' : List Stmt) → Stmt.ListLegible ss → Stmt.ListLegible ss' →
    Stmt.forms ss = Stmt.forms ss' → Stmt.listLineless ss = Stmt.listLineless ss'
  | [], [], _, _, _ => rfl
  | [], _ :: _, _, _, heq => by cases heq
  | _ :: _, [], _, _, heq => by cases heq
  | s :: ss, s' :: ss', h, h', heq => by
      obtain ⟨hs, hss⟩ := List.cons.inj heq
      exact congrArg₂ List.cons (Stmt.lineless_of_form s s' h.1 h'.1 hs)
        (Stmt.listLineless_of_forms ss ss' h.2 h'.2 hss)

theorem Stmt.functionLineless_of_form : (f f' : Function) → Stmt.FunctionLegible f →
    Stmt.FunctionLegible f' → Stmt.functionForm f = Stmt.functionForm f' →
    Stmt.functionLineless f = Stmt.functionLineless f'
  | ⟨name, params, body⟩, ⟨name', params', body'⟩, h, h', heq => by
      obtain ⟨hname, hparts⟩ := List.cons.inj (parts_of_headed heq).2
      obtain ⟨hparams, hbody⟩ := List.cons.inj hparts
      have hname := h.1.eq_of_word h'.1 hname
      have hparams := lineless_of_words params params' h.2.1 h'.2.1 (Bracketed.list.inj hparams)
      have hbody := Stmt.listLineless_of_forms body body' h.2.2 h'.2.2 hbody
      change FunctionDecl.mk name.lineless (params.map Token.lineless) (Stmt.listLineless body) =
        FunctionDecl.mk name'.lineless (params'.map Token.lineless) (Stmt.listLineless body')
      rw [hname, hparams, hbody]

theorem Stmt.methodsLineless_of_forms : (fs fs' : List Function) → Stmt.MethodsLegible fs →
    Stmt.MethodsLegible fs' → Stmt.methodForms fs = Stmt.methodForms fs' →
    Stmt.methodsLineless fs = Stmt.methodsLineless fs'
  | [], [], _, _, _ => rfl
  | [], _ :: _, _, _, heq => by cases heq
  | _ :: _, [], _, _, heq => by cases heq
  | f :: fs, f' :: fs', h, h', heq => by
      obtain ⟨hf, hfs⟩ := List.cons.inj heq
      exact congrArg₂ List.cons (Stmt.functionLineless_of_form f f' h.1 h'.1 hf)
        (Stmt.methodsLineless_of_forms fs fs' h.2 h'.2 hfs)

end

/-! ### Texts -/

/-- Legible statements with the same texts are the same apart from lines and identities. -/
theorem Stmt.listLineless_of_texts {ss ss' : List Stmt} (h : Stmt.ListLegible ss)
    (h' : Stmt.ListLegible ss') (htexts : ss.map Stmt.text = ss'.map Stmt.text) :
    Stmt.listLineless ss = Stmt.listLineless ss' := by
  refine Stmt.listLineless_of_forms ss ss' h h' ?_
  induction ss generalizing ss' with
  | nil =>
    cases ss' with
    | nil => rfl
    | cons => cases htexts
  | cons s ss ih =>
    cases ss' with
    | nil => cases htexts
    | cons s' ss' =>
      obtain ⟨hs, hss⟩ := List.cons.inj htexts
      have hform : s.form = s'.form := by
        refine Bracketed.text_inj (s.plain_form h.1) (s'.plain_form h'.1) ?_
        rw [s.text_form, s'.text_form, hs]
      rw [Stmt.forms, Stmt.forms, hform, ih h.2 h'.2 hss]

end Lox
