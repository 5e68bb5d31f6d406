import Lox.Proofs.Copy.Lineless

/-!
Statements that stand in for one another. Where two statements are the same apart from lines and
identities, a program may have the one or the other at any place, and no run of it tells which.
-/

namespace Lox

section

variable (a b : Stmt)

mutual

/-- The second statement is the first one with `b` for `a` at some places, both of them known up to
lines and identities. -/
inductive Stmt.Replaced : Stmt → Stmt → Prop
  | here {s s' : Stmt} (hs : s.lineless = a.lineless) (hs' : s'.lineless = b.lineless) :
      Stmt.Replaced s s'
  | keep (s : Stmt) : Stmt.Replaced s s
  | block {body body' : List Stmt} (hb : Stmt.ListReplaced body body') :
      Stmt.Replaced (.block body) (.block body')
  | conditional {yes yes' : Stmt} (c : Expr) (hy : Stmt.Replaced yes yes') :
      Stmt.Replaced (.conditional c yes none) (.conditional c yes' none)
  | alternative {yes yes' no no' : Stmt} (c : Expr) (hy : Stmt.Replaced yes yes')
      (hn : Stmt.Replaced no no') :
      Stmt.Replaced (.conditional c yes (some no)) (.conditional c yes' (some no'))
  | whileLoop {body body' : Stmt} (c : Expr) (hb : Stmt.Replaced body body') :
      Stmt.Replaced (.whileLoop c body) (.whileLoop c body')
  | function {f f' : Function} (hf : Stmt.FunctionReplaced f f') :
      Stmt.Replaced (.function f) (.function f')
  | classDecl {methods methods' : List Function} (name : Token)
      (hm : Stmt.MethodsReplaced methods methods') :
      Stmt.Replaced (.classDecl name methods) (.classDecl name methods')

inductive Stmt.ListReplaced : List Stmt → List Stmt → Prop
  | nil : Stmt.ListReplaced [] []
  | cons {s s' : Stmt} {ss ss' : List Stmt} (hs : Stmt.Replaced s s')
      (hss : Stmt.ListReplaced ss ss') : Stmt.ListReplaced (s :: ss) (s' :: ss')

inductive Stmt.FunctionReplaced : Function → Function → Prop
  | intro {body body' : List Stmt} (name : Token) (params : List Token)
      (hb : Stmt.ListReplaced body body') :
      Stmt.FunctionReplaced ⟨name, params, body⟩ ⟨name, params, body'⟩

inductive Stmt.MethodsReplaced : List Function → List Function → Prop
  | nil : Stmt.MethodsReplaced [] []
  | cons {f f' : Function} {fs fs' : List Function} (hf : Stmt.FunctionReplaced f f')
      (hfs : Stmt.MethodsReplaced fs fs') : Stmt.MethodsReplaced (f :: fs) (f' :: fs')

end

end

section

variable {a b : Stmt}

mutual

theorem Stmt.Replaced.lineless (h : b.lineless = a.lineless) {s s' : Stmt} :
    Stmt.Replaced a b s s' → s'.lineless = s.lineless
  | .here hs hs' => hs'.trans (h.trans hs.symm)
  | .keep _ => rfl
  | .block hb => congrArg Stmt.block (hb.lineless h)
  | .conditional _ hy => congrArg (Stmt.conditional _ · none) (hy.lineless h)
  | .alternative _ hy hn =>
      congrArg₂ (fun yes no => Stmt.conditional _ yes (some no)) (hy.lineless h) (hn.lineless h)
  | .whileLoop _ hb => congrArg (Stmt.whileLoop _) (hb.lineless h)
  | .function hf => congrArg Stmt.function (hf.lineless h)
  | .classDecl _ hm => congrArg (Stmt.classDecl _) (hm.lineless h)

theorem Stmt.ListReplaced.lineless (h : b.lineless = a.lineless) {ss ss' : List Stmt} :
    Stmt.ListReplaced a b ss ss' → Stmt.listLineless ss' = Stmt.listLineless ss
  | .nil => rfl
  | .cons hs hss => congrArg₂ List.cons (hs.lineless h) (hss.lineless h)

theorem Stmt.FunctionReplaced.lineless (h : b.lineless = a.lineless) {f f' : Function} :
    Stmt.FunctionReplaced a b f f' → Stmt.functionLineless f' = Stmt.functionLineless f
  | .intro name params hb =>
      congrArg (FunctionDecl.mk (name.relined fun _ => 0) (params.map (Token.relined fun _ => 0)))
        (hb.lineless h)

theorem Stmt.MethodsReplaced.lineless (h : b.lineless = a.lineless) {fs fs' : List Function} :
    Stmt.MethodsReplaced a b fs fs' → Stmt.methodsLineless fs' = Stmt.methodsLineless fs
  | .nil => rfl
  | .cons hf hfs => congrArg₂ List.cons (hf.lineless h) (hfs.lineless h)

end

end

/-- A program with other statements at some places, which are numbered anew. -/
structure Program.Replaced (a b : Stmt) (p p' : Program) : Prop where
  statements : Stmt.ListReplaced a b p.statements p'.statements
  faults : p'.faults = p.faults

/-- A program shows the same with `b` for `a`, and so does whatever is run after it. -/
theorem Program.Replaced.runRead {a b : Stmt} {p p' : Program} (h : p.Replaced a b p')
    (hab : b.lineless = a.lineless) {same : Nat → Nat → Prop} {s : Session}
    (hs : s.Copy (.inPlace same) s) (hp : p.NewTo s) (hp' : p'.NewTo s) (host : Host) (fuel : Nat) :
    (showing (s.runRead host fuel p')).lineless = (showing (s.runRead host fuel p)).lineless ∧
      ∀ runs, (s.runRead host fuel p').2.shows runs = (s.runRead host fuel p).2.shows runs := by
  have ha : p.Alike p' := ⟨h.statements.lineless hab, by rw [h.faults]⟩
  obtain ⟨hshow, hnext⟩ := (Session.Alike.refl hs).runRead hp hp' ha host fuel
  exact ⟨hshow, hnext.shows⟩

end Lox
