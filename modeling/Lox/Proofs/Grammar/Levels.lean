import Lox.Proofs.Grammar.Derivation

/-!
What derives with some levels left derives with more of them.
-/

namespace Lox.Grammar

variable {n m : Nat} {ts : List Token}

theorem Derives.succ {f : Form} {e : Expr} (h : Derives n f ts e) : Derives (n + 1) f ts e := by
  induction h with
  | expression _ ih => exact .expression ih
  | assign id hn he _ ih => exact .assign id hn he ih
  | join _ ho _ ihl ihr => exact .join ihl ho ihr
  | unary ho _ ih => exact .unary ho ih
  | call _ hl hs _ hm hr ihc iha => exact .call ihc hl hs iha hm hr
  | alone hf _ ih => exact .alone hf ih
  | literal h => exact .literal h
  | read id hn => exact .read id hn
  | grouping hl _ hr ih => exact .grouping hl ih hr

theorem Optionally.succ {e : Option Expr} : Optionally n ts e → Optionally (n + 1) ts e
  | .none => .none
  | .some h => .some h.succ

theorem Initializer.succ {e : Option Expr} : Initializer n ts e → Initializer (n + 1) ts e
  | .none => .none
  | .some he h => .some he h.succ

theorem VarDerives.succ {s : Stmt} : VarDerives n ts s → VarDerives (n + 1) ts s
  | .intro hk hn hi hs => .intro hk hn hi.succ hs

theorem ExpressionDerives.succ {s : Stmt} :
    ExpressionDerives n ts s → ExpressionDerives (n + 1) ts s
  | .intro h hs => .intro h.succ hs

theorem ClauseDerives.succ {s : Option Stmt} : ClauseDerives n ts s → ClauseDerives (n + 1) ts s
  | .none hs => .none hs
  | .var h => .var h.succ
  | .expression h => .expression h.succ

mutual

theorem StatementDerives.succ : {n : Nat} → {o : Bool} → {ts : List Token} → {s : Stmt} →
    StatementDerives n o ts s → StatementDerives (n + 1) o ts s
  | _, _, _, _, .expression h => .expression h.succ
  | _, _, _, _, .print hk h hs => .print hk h.succ hs
  | _, _, _, _, .returning hk h hs => .returning hk h.succ hs
  | _, _, _, _, .block hl h => .block hl h.succ
  | _, _, _, _, .conditional hk hl hc hr hy => .conditional hk hl hc.succ hr hy.succ
  | _, _, _, _, .alternative hk hl hc hr hy ho hn =>
      .alternative hk hl hc.succ hr hy.succ ho hn.succ
  | _, _, _, _, .whileLoop hk hl hc hr hb => .whileLoop hk hl hc.succ hr hb.succ
  | _, _, _, _, .forLoop hk hl hi hc hs hn hr hb =>
      .forLoop hk hl hi.succ hc.succ hs hn.succ hr hb.succ

theorem BlockDerives.succ : {n : Nat} → {ts : List Token} → {body : List Stmt} →
    BlockDerives n ts body → BlockDerives (n + 1) ts body
  | _, _, _, .intro hp hr => .intro (fun p hp' => (hp p hp').succ) hr

theorem FunctionDerives.succ : {n : Nat} → {ts : List Token} → {f : Function} →
    FunctionDerives n ts f → FunctionDerives (n + 1) ts f
  | _, _, _, .intro hn hl hs hp hm hr hb h => .intro hn hl hs hp hm hr hb h.succ

theorem DeclarationDerives.succ : {n : Nat} → {ts : List Token} → {s : Stmt} →
    DeclarationDerives n ts s → DeclarationDerives (n + 1) ts s
  | _, _, _, .klass hk hn hl hm hr => .klass hk hn hl (fun m hm' => (hm m hm').succ) hr
  | _, _, _, .function hk h => .function hk h.succ
  | _, _, _, .var h => .var h.succ
  | _, _, _, .statement h => .statement h.succ

end

/-- What still holds with one level more holds with any number more. -/
theorem of_le {P : Nat → Prop} (hP : ∀ n, P n → P (n + 1)) (h : n ≤ m) (hn : P n) : P m := by
  induction h with
  | refl => exact hn
  | step _ ih => exact hP _ ih

theorem StatementDerives.mono {o : Bool} {s : Stmt} (h : StatementDerives n o ts s) (hm : n ≤ m) :
    StatementDerives m o ts s :=
  of_le (P := fun n => StatementDerives n o ts s) (fun _ => StatementDerives.succ) hm h

end Lox.Grammar
