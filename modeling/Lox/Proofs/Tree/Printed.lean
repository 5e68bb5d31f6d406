import Lox.Proofs.Tree.Brackets
import Lox.Tree.Text

/-!
The text of a tree as a text in brackets. The form of a tree has a list for every node that is
written with brackets, with the head of the node as its first word.
-/

namespace Lox

namespace Bracketed

/-- A list that begins with the given word. -/
def headed (head : String) (parts : List Bracketed) : Bracketed := .list (.word head.toList :: parts)

theorem text_headed (head : String) (parts : List Bracketed) :
    (headed head parts).text = '(' :: (head.toList ++ spaced parts) := rfl

end Bracketed

def Token.word (t : Token) : Bracketed := .word t.lexeme.toList

mutual

def Expr.form : Expr → Bracketed
  | .literal l => .word l.text.toList
  | .grouping e => .headed "group" [e.form]
  | .unary op e => .headed op.lexeme [e.form]
  | .binary l op r => .headed op.lexeme [l.form, r.form]
  | .logical l op r => .headed op.lexeme [l.form, r.form]
  | .read _ name => name.word
  | .assign _ name e => .headed "=" [name.word, e.form]
  | .call callee _ args => .headed "call" (callee.form :: Expr.forms args)

def Expr.forms : List Expr → List Bracketed
  | [] => []
  | e :: es => e.form :: Expr.forms es

end

mutual

def Stmt.form : Stmt → Bracketed
  | .expression e => .headed ";" [e.form]
  | .print e => .headed "print" [e.form]
  | .var name none => .headed "var" [name.word]
  | .var name (some e) => .headed "var" [name.word, e.form]
  | .block body => .headed "block" (Stmt.forms body)
  | .conditional c yes none => .headed "if" [c.form, yes.form]
  | .conditional c yes (some no) => .headed "if" [c.form, yes.form, no.form]
  | .whileLoop c body => .headed "while" [c.form, body.form]
  | .function f => Stmt.functionForm f
  | .returning _ none => .headed "return" []
  | .returning _ (some e) => .headed "return" [e.form]
  | .classDecl name methods => .headed "class" (name.word :: Stmt.methodForms methods)

def Stmt.forms : List Stmt → List Bracketed
  | [] => []
  | s :: ss => s.form :: Stmt.forms ss

def Stmt.functionForm : Function → Bracketed
  | ⟨name, params, body⟩ =>
    .headed "fun" (name.word :: .list (params.map Token.word) :: Stmt.forms body)

def Stmt.methodForms : List Function → List Bracketed
  | [] => []
  | f :: fs => Stmt.functionForm f :: Stmt.methodForms fs

end

/-! ### The text of the form is the text of the tree -/

open Bracketed (headed text_headed)

theorem Token.text_word (t : Token) : t.word.text = t.lexeme.toList := rfl

mutual

theorem Expr.text_form : (e : Expr) → e.form.text = e.text.toList
  | .literal _ => rfl
  | .grouping e => by
      simp [Expr.form, Expr.text, text_headed, Bracketed.spaced, Expr.text_form e]
  | .unary op e => by
      simp [Expr.form, Expr.text, text_headed, Bracketed.spaced, Expr.text_form e]
  | .binary l op r => by
      simp [Expr.form, Expr.text, text_headed, Bracketed.spaced, Expr.text_form l, Expr.text_form r]
  | .logical l op r => by
      simp [Expr.form, Expr.text, text_headed, Bracketed.spaced, Expr.text_form l, Expr.text_form r]
  | .read _ _ => rfl
  | .assign _ name e => by
      simp [Expr.form, Expr.text, text_headed, Bracketed.spaced, Token.text_word, Expr.text_form e]
  | .call callee _ args => by
      simp [Expr.form, Expr.text, text_headed, Bracketed.spaced, Expr.text_form callee,
        Expr.spaced_forms args]

theorem Expr.spaced_forms : (es : List Expr) →
    Bracketed.spaced (Expr.forms es) = (Expr.spaced es).toList ++ [')']
  | [] => rfl
  | e :: es => by
      simp [Expr.forms, Expr.spaced, Bracketed.spaced, Expr.text_form e, Expr.spaced_forms es]

end

theorem Bracketed.row_words : (ts : List Token) →
    Bracketed.row (ts.map Token.word) = (" ".intercalate (ts.map Token.lexeme)).toList ++ [')']
  | [] => rfl
  | [t] => by simp [Bracketed.row, Bracketed.spaced, Token.text_word]
  | t :: u :: ts => by
      have hrest := Bracketed.row_words (u :: ts)
      have hspaced : Bracketed.spaced ((u :: ts).map Token.word) =
          ' ' :: Bracketed.row ((u :: ts).map Token.word) := rfl
      rw [List.map_cons, Bracketed.row, hspaced, hrest]
      simp [Token.text_word, String.intercalate_cons_cons]

mutual

theorem Stmt.text_form : (s : Stmt) → s.form.text = s.text.toList
  | .expression e | .print e => by
      simp [Stmt.form, Stmt.text, text_headed, Bracketed.spaced, Expr.text_form e]
  | .var name none => by
      simp [Stmt.form, Stmt.text, text_headed, Bracketed.spaced, Token.text_word]
  | .var name (some e) => by
      simp [Stmt.form, Stmt.text, text_headed, Bracketed.spaced, Token.text_word, Expr.text_form e]
  | .block body => by
      simp [Stmt.form, Stmt.text, text_headed, Stmt.spaced_forms body]
  | .conditional c yes none => by
      simp [Stmt.form, Stmt.text, text_headed, Bracketed.spaced, Expr.text_form c, Stmt.text_form yes]
  | .conditional c yes (some no) => by
      simp [Stmt.form, Stmt.text, text_headed, Bracketed.spaced, Expr.text_form c, Stmt.text_form yes,
        Stmt.text_form no]
  | .whileLoop c body => by
      simp [Stmt.form, Stmt.text, text_headed, Bracketed.spaced, Expr.text_form c, Stmt.text_form body]
  | .function f => Stmt.text_functionForm f
  | .returning _ none => by simp [Stmt.form, Stmt.text, text_headed, Bracketed.spaced]
  | .returning _ (some e) => by
      simp [Stmt.form, Stmt.text, text_headed, Bracketed.spaced, Expr.text_form e]
  | .classDecl name methods => by
      simp [Stmt.form, Stmt.text, text_headed, Bracketed.spaced, Token.text_word,
        Stmt.spaced_methodForms methods]

theorem Stmt.spaced_forms : (ss : List Stmt) →
    Bracketed.spaced (Stmt.forms ss) = (Stmt.spaced ss).toList ++ [')']
  | [] => rfl
  | s :: ss => by
      simp [Stmt.forms, Stmt.spaced, Bracketed.spaced, Stmt.text_form s, Stmt.spaced_forms ss]

theorem Stmt.text_functionForm : (f : Function) →
    (Stmt.functionForm f).text = (Stmt.functionText f).toList
  | ⟨name, params, body⟩ => by
      simp [Stmt.functionForm, Stmt.functionText, text_headed, Bracketed.spaced, Bracketed.text,
        Token.text_word, Bracketed.row_words, Stmt.spaced_forms body]

theorem Stmt.spaced_methodForms : (fs : List Function) →
    Bracketed.spaced (Stmt.methodForms fs) = (Stmt.methodTexts fs).toList ++ [')']
  | [] => rfl
  | f :: fs => by
      simp [Stmt.methodForms, Stmt.methodTexts, Bracketed.spaced, Stmt.text_functionForm f,
        Stmt.spaced_methodForms fs]

end

end Lox
