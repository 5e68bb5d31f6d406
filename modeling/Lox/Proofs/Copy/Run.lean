import Lox.Machine.Run
import Lox.Proofs.Copy.Machine

/-!
A copy of a program does on a copy of a machine what the program does on the machine.
-/

namespace Lox

inductive Flow.Copy (k : Copying) : Flow → Flow → Prop
  | normal : Flow.Copy k .normal .normal
  | returned {v v' : Value} (h : v.Copy k v') : Flow.Copy k (.returned v) (.returned v')

/-- Copies do the same with so much fuel. -/
structure AllRepeat (k : Copying) (host : Host) (fuel : Nat) : Prop where
  eval : ∀ {e e'}, e.Copy k e' → Repeats k (Value.Copy k) (eval host fuel e) (eval host fuel e')
  evalAll : ∀ {es es'}, Expr.ListCopy k es es' →
    Repeats k (List.Forall₂ (Value.Copy k)) (evalAll host fuel es) (evalAll host fuel es')
  apply : ∀ {c c' vs vs'} line, c.Copy k c' → List.Forall₂ (Value.Copy k) vs vs' →
    Repeats k (Value.Copy k) (apply host fuel c vs line) (apply host fuel c' vs' (k.line line))
  exec : ∀ {s s'}, s.Copy k s' → Repeats k (Flow.Copy k) (exec host fuel s) (exec host fuel s')
  execAll : ∀ {ss ss'}, Stmt.ListCopy k ss ss' →
    Repeats k (Flow.Copy k) (execAll host fuel ss) (execAll host fuel ss')

namespace AllRepeat

variable {k : Copying} {host : Host} {fuel : Nat}

theorem eval_succ (h : AllRepeat k host fuel) {e e' : Expr} (he : e.Copy k e') :
    Repeats k (Value.Copy k) (Lox.eval host (fuel + 1) e) (Lox.eval host (fuel + 1) e') := by
  unfold Lox.eval
  cases he with
  | literal l => exact .pure (.ofLiteral l)
  | grouping he => exact h.eval he
  | unary op he => exact .bind (h.eval he) fun v v' hv => .unary op hv
  | binary op hl hr =>
      exact .bind (h.eval hl) fun v v' hv => .bind (h.eval hr) fun u u' hu => .binary op hv hu
  | logical op hl hr =>
      refine .bind (h.eval hl) fun v v' hv => ?_
      rw [hv.decides_eq]
      split
      · exact .pure hv
      · exact h.eval hr
  | read name hid => exact .read name hid
  | assign name hid he =>
      exact .bind (h.eval he) fun v v' hv => .bind (.assign name hid hv) fun _ _ _ => .pure hv
  | call paren hc ha =>
      refine .bind (h.eval hc) fun v v' hv => .bind (h.evalAll ha) fun vs vs' hvs => ?_
      rw [← hvs.length_eq]
      exact .bind (.calleeOf paren.line vs.length hv) fun c c' hc =>
        .asCall paren.line (h.apply paren.line hc hvs)

theorem evalAll_succ (h : AllRepeat k host fuel) {es es' : List Expr}
    (hes : Expr.ListCopy k es es') : Repeats k (List.Forall₂ (Value.Copy k))
      (Lox.evalAll host (fuel + 1) es) (Lox.evalAll host (fuel + 1) es') := by
  unfold Lox.evalAll
  cases hes with
  | nil => exact .pure .nil
  | cons he hes =>
      exact .bind (h.eval he) fun v v' hv => .bind (h.evalAll hes) fun vs vs' hvs =>
        .pure (.cons hv hvs)

theorem apply_succ (h : AllRepeat k host fuel) {c c' : Callable} {vs vs' : List Value} (line : Nat)
    (hc : c.Copy k c') (hvs : List.Forall₂ (Value.Copy k) vs vs') :
    Repeats k (Value.Copy k) (Lox.apply host (fuel + 1) c vs line)
      (Lox.apply host (fuel + 1) c' vs' (k.line line)) := by
  unfold Lox.apply
  cases hc with
  | clock => exact .callNative host line _
  | closure hc =>
      refine .bind (.openCall hc hvs) ?_
      rintro frame _ rfl
      refine .bind (.within frame (h.execAll hc.decl.body)) fun flow flow' hf => ?_
      cases hf with
      | normal => exact .pure .nil
      | returned hv => exact .pure hv

/-- What goes on with a value once it has been seen. -/
theorem seen (h : AllRepeat k host fuel) {α β : Type} {Q : α → β → Prop} {e e' : Expr}
    (he : e.Copy k e') {f : Value → Eval α} {g : Value → Eval β}
    (hf : ∀ v v', v.Copy k v' → Repeats k Q (f v) (g v')) :
    Repeats k Q (do let v ← Lox.eval host fuel e; see v; f v)
      (do let v ← Lox.eval host fuel e'; see v; g v) :=
  .bind (h.eval he) fun v v' hv => .bind (.see hv) fun _ _ _ => hf v v' hv

theorem branch (h : AllRepeat k host fuel) {α β : Type} {Q : α → β → Prop} {e e' : Expr}
    (he : e.Copy k e') {x x' : Eval α} {y y' : Eval β} (hx : Repeats k Q x y)
    (hy : Repeats k Q x' y') :
    Repeats k Q (do let v ← Lox.eval host fuel e; see v; if v.truthy then x else x')
      (do let v ← Lox.eval host fuel e'; see v; if v.truthy then y else y') := by
  refine h.seen he fun v v' hv => ?_
  rw [hv.truthy]
  split
  · exact hx
  · exact hy

theorem exec_succ (h : AllRepeat k host fuel) {s s' : Stmt} (hs : s.Copy k s') :
    Repeats k (Flow.Copy k) (Lox.exec host (fuel + 1) s) (Lox.exec host (fuel + 1) s') := by
  unfold Lox.exec
  cases hs with
  | expression he => exact h.seen he fun v v' hv => .pure .normal
  | print he =>
      exact .bind (h.eval he) fun v v' hv => .bind (.printLine hv) fun _ _ _ => .pure .normal
  | declared name => exact .bind (.define name.lexeme .nil) fun _ _ _ => .pure .normal
  | initialized name he =>
      exact h.seen he fun v v' hv => .bind (.define name.lexeme hv) fun _ _ _ => .pure .normal
  | block hb =>
      dsimp only
      rw [← bind_assoc, ← bind_assoc]
      refine .bind .openHere ?_
      rintro frame _ rfl
      exact .within frame (h.execAll hb)
  | conditional hc hy => exact h.branch hc (h.exec hy) (.pure .normal)
  | alternative hc hy hn => exact h.branch hc (h.exec hy) (h.exec hn)
  | whileLoop hc hb =>
      refine h.branch hc (.bind (h.exec hb) fun flow flow' hf => ?_) (.pure .normal)
      cases hf with
      | normal => exact h.exec (.whileLoop hc hb)
      | returned hv => exact .pure (.returned hv)
  | function hf => exact .bind (.declare hf) fun _ _ _ => .pure .normal
  | returning keyword => exact .pure (.returned .nil)
  | returningValue keyword he => exact h.seen he fun v v' hv => .pure (.returned hv)
  | classDecl name hm => exact .raise name.line _

theorem execAll_succ (h : AllRepeat k host fuel) {ss ss' : List Stmt}
    (hss : Stmt.ListCopy k ss ss') : Repeats k (Flow.Copy k) (Lox.execAll host (fuel + 1) ss)
      (Lox.execAll host (fuel + 1) ss') := by
  unfold Lox.execAll
  cases hss with
  | nil => exact .pure .normal
  | cons hs hss =>
      refine .bind (h.exec hs) fun flow flow' hf => ?_
      cases hf with
      | normal => exact h.execAll hss
      | returned hv => exact .pure (.returned hv)

end AllRepeat

theorem allRepeat (k : Copying) (host : Host) (fuel : Nat) : AllRepeat k host fuel := by
  induction fuel with
  | zero =>
      refine ⟨fun _ => ?_, fun _ => ?_, fun _ _ _ => ?_, fun _ => ?_, fun _ => ?_⟩
      · unfold eval; exact .outOfFuel
      · unfold evalAll; exact .outOfFuel
      · unfold apply; exact .outOfFuel
      · unfold exec; exact .outOfFuel
      · unfold execAll; exact .outOfFuel
  | succ fuel ih =>
      exact ⟨ih.eval_succ, ih.evalAll_succ, ih.apply_succ, ih.exec_succ, ih.execAll_succ⟩

theorem Repeats.runAll {k : Copying} (host : Host) (fuel : Nat) {ss ss' : List Stmt}
    (h : Stmt.ListCopy k ss ss') :
    Repeats k (fun _ _ => True) (runAll host fuel ss) (Lox.runAll host fuel ss') := by
  induction ss generalizing ss' with
  | nil => cases h; exact .pure trivial
  | cons s ss ih =>
      cases h with
      | cons hs hss => exact .bind ((allRepeat k host fuel).exec hs) fun _ _ _ => ih hss

end Lox
