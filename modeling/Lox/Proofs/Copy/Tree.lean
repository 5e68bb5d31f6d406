import Lox.Fault
import Lox.Proofs.Tree.Identity

/-!
Copies of programs. A copy has the form of the original; its occurrences bear other identities, and
its tokens stand at other lines.
-/

namespace Lox

/-- How copies are made: which identity may become which, and what becomes of a line. -/
structure Copying where
  same : Nat → Nat → Prop
  line : Nat → Nat

/-- Copies with the lines of the original. -/
abbrev Copying.inPlace (same : Nat → Nat → Prop) : Copying := ⟨same, fun l => l⟩

/-- Copies of which the identities do not matter. -/
abbrev Copying.anyhow (line : Nat → Nat) : Copying := ⟨fun _ _ => True, line⟩

def Token.relined (f : Nat → Nat) (t : Token) : Token := { t with line := f t.line }

@[simp] theorem Token.kind_relined (f : Nat → Nat) (t : Token) : (t.relined f).kind = t.kind := rfl

@[simp] theorem Token.lexeme_relined (f : Nat → Nat) (t : Token) :
    (t.relined f).lexeme = t.lexeme := rfl

@[simp] theorem Token.line_relined (f : Nat → Nat) (t : Token) :
    (t.relined f).line = f t.line := rfl

def Fault.relined {κ : Type} (f : Nat → Nat) (e : Fault κ) : Fault κ := ⟨f e.line, e.cause⟩

mutual

/-- The second expression is a copy of the first one. -/
inductive Expr.Copy (k : Copying) : Expr → Expr → Prop
  | literal (l : Literal) : Expr.Copy k (.literal l) (.literal l)
  | grouping {e e' : Expr} (he : e.Copy k e') : Expr.Copy k (.grouping e) (.grouping e')
  | unary {e e' : Expr} (op : Token) (he : e.Copy k e') :
      Expr.Copy k (.unary op e) (.unary (op.relined k.line) e')
  | binary {l l' r r' : Expr} (op : Token) (hl : l.Copy k l') (hr : r.Copy k r') :
      Expr.Copy k (.binary l op r) (.binary l' (op.relined k.line) r')
  | logical {l l' r r' : Expr} (op : Token) (hl : l.Copy k l') (hr : r.Copy k r') :
      Expr.Copy k (.logical l op r) (.logical l' (op.relined k.line) r')
  | read {id id' : Nat} (name : Token) (hid : k.same id id') :
      Expr.Copy k (.read id name) (.read id' (name.relined k.line))
  | assign {id id' : Nat} {e e' : Expr} (name : Token) (hid : k.same id id') (he : e.Copy k e') :
      Expr.Copy k (.assign id name e) (.assign id' (name.relined k.line) e')
  | call {callee callee' : Expr} {args args' : List Expr} (paren : Token)
      (hc : callee.Copy k callee') (ha : Expr.ListCopy k args args') :
      Expr.Copy k (.call callee paren args) (.call callee' (paren.relined k.line) args')

inductive Expr.ListCopy (k : Copying) : List Expr → List Expr → Prop
  | nil : Expr.ListCopy k [] []
  | cons {e e' : Expr} {es es' : List Expr} (he : e.Copy k e') (hes : Expr.ListCopy k es es') :
      Expr.ListCopy k (e :: es) (e' :: es')

end

mutual

inductive Stmt.Copy (k : Copying) : Stmt → Stmt → Prop
  | expression {e e' : Expr} (he : e.Copy k e') : Stmt.Copy k (.expression e) (.expression e')
  | print {e e' : Expr} (he : e.Copy k e') : Stmt.Copy k (.print e) (.print e')
  | declared (name : Token) : Stmt.Copy k (.var name none) (.var (name.relined k.line) none)
  | initialized {e e' : Expr} (name : Token) (he : e.Copy k e') :
      Stmt.Copy k (.var name (some e)) (.var (name.relined k.line) (some e'))
  | block {body body' : List Stmt} (hb : Stmt.ListCopy k body body') :
      Stmt.Copy k (.block body) (.block body')
  | conditional {c c' : Expr} {yes yes' : Stmt} (hc : c.Copy k c') (hy : yes.Copy k yes') :
      Stmt.Copy k (.conditional c yes none) (.conditional c' yes' none)
  | alternative {c c' : Expr} {yes yes' no no' : Stmt} (hc : c.Copy k c') (hy : yes.Copy k yes')
      (hn : no.Copy k no') :
      Stmt.Copy k (.conditional c yes (some no)) (.conditional c' yes' (some no'))
  | whileLoop {c c' : Expr} {body body' : Stmt} (hc : c.Copy k c') (hb : body.Copy k body') :
      Stmt.Copy k (.whileLoop c body) (.whileLoop c' body')
  | function {f f' : Function} (hf : Stmt.FunctionCopy k f f') :
      Stmt.Copy k (.function f) (.function f')
  | returning (keyword : Token) :
      Stmt.Copy k (.returning keyword none) (.returning (keyword.relined k.line) none)
  | returningValue {e e' : Expr} (keyword : Token) (he : e.Copy k e') :
      Stmt.Copy k (.returning keyword (some e)) (.returning (keyword.relined k.line) (some e'))
  | classDecl {methods methods' : List Function} (name : Token)
      (hm : Stmt.MethodsCopy k methods methods') :
      Stmt.Copy k (.classDecl name methods) (.classDecl (name.relined k.line) methods')

inductive Stmt.ListCopy (k : Copying) : List Stmt → List Stmt → Prop
  | nil : Stmt.ListCopy k [] []
  | cons {s s' : Stmt} {ss ss' : List Stmt} (hs : s.Copy k s') (hss : Stmt.ListCopy k ss ss') :
      Stmt.ListCopy k (s :: ss) (s' :: ss')

inductive Stmt.FunctionCopy (k : Copying) : Function → Function → Prop
  | intro {body body' : List Stmt} (name : Token) (params : List Token)
      (hb : Stmt.ListCopy k body body') :
      Stmt.FunctionCopy k ⟨name, params, body⟩
        ⟨name.relined k.line, params.map (Token.relined k.line), body'⟩

inductive Stmt.MethodsCopy (k : Copying) : List Function → List Function → Prop
  | nil : Stmt.MethodsCopy k [] []
  | cons {f f' : Function} {fs fs' : List Function} (hf : Stmt.FunctionCopy k f f')
      (hfs : Stmt.MethodsCopy k fs fs') : Stmt.MethodsCopy k (f :: fs) (f' :: fs')

end

/-- What one way of copying makes of a program, the other one may make of it. -/
structure Copying.Sub (k k' : Copying) : Prop where
  same : ∀ i j, k.same i j → k'.same i j
  line : k'.line = k.line

theorem Copying.Sub.refl (k : Copying) : k.Sub k := ⟨fun _ _ h => h, rfl⟩

section

variable {k k' : Copying}

mutual

theorem Expr.Copy.mono {e e' : Expr} (hk : k.Sub k') : e.Copy k e' → e.Copy k' e'
  | .literal l => .literal l
  | .grouping he => .grouping (he.mono hk)
  | .unary op he => hk.line ▸ .unary op (he.mono hk)
  | .binary op hl hr => hk.line ▸ .binary op (hl.mono hk) (hr.mono hk)
  | .logical op hl hr => hk.line ▸ .logical op (hl.mono hk) (hr.mono hk)
  | .read name hid => hk.line ▸ .read name (hk.same _ _ hid)
  | .assign name hid he => hk.line ▸ .assign name (hk.same _ _ hid) (he.mono hk)
  | .call paren hc ha => hk.line ▸ .call paren (hc.mono hk) (ha.mono hk)

theorem Expr.ListCopy.mono {es es' : List Expr} (hk : k.Sub k') :
    Expr.ListCopy k es es' → Expr.ListCopy k' es es'
  | .nil => .nil
  | .cons he hes => .cons (he.mono hk) (hes.mono hk)

end

mutual

theorem Stmt.Copy.mono {s s' : Stmt} (hk : k.Sub k') : s.Copy k s' → s.Copy k' s'
  | .expression he => .expression (he.mono hk)
  | .print he => .print (he.mono hk)
  | .declared name => hk.line ▸ .declared name
  | .initialized name he => hk.line ▸ .initialized name (he.mono hk)
  | .block hb => .block (hb.mono hk)
  | .conditional hc hy => .conditional (hc.mono hk) (hy.mono hk)
  | .alternative hc hy hn => .alternative (hc.mono hk) (hy.mono hk) (hn.mono hk)
  | .whileLoop hc hb => .whileLoop (hc.mono hk) (hb.mono hk)
  | .function hf => .function (hf.mono hk)
  | .returning keyword => hk.line ▸ .returning keyword
  | .returningValue keyword he => hk.line ▸ .returningValue keyword (he.mono hk)
  | .classDecl name hm => hk.line ▸ .classDecl name (hm.mono hk)

theorem Stmt.ListCopy.mono {ss ss' : List Stmt} (hk : k.Sub k') :
    Stmt.ListCopy k ss ss' → Stmt.ListCopy k' ss ss'
  | .nil => .nil
  | .cons hs hss => .cons (hs.mono hk) (hss.mono hk)

theorem Stmt.FunctionCopy.mono {f f' : Function} (hk : k.Sub k') :
    Stmt.FunctionCopy k f f' → Stmt.FunctionCopy k' f f'
  | .intro name params hb => hk.line ▸ .intro name params (hb.mono hk)

theorem Stmt.MethodsCopy.mono {fs fs' : List Function} (hk : k.Sub k') :
    Stmt.MethodsCopy k fs fs' → Stmt.MethodsCopy k' fs fs'
  | .nil => .nil
  | .cons hf hfs => .cons (hf.mono hk) (hfs.mono hk)

end

end

end Lox
