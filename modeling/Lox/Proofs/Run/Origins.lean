import Lox.Proofs.Run.Depth
import Lox.Proofs.Tree.Identity

/-!
Where functions come from. A run makes functions out of the declarations in the statements that it
executes and in the bodies of the functions that it finds in the store, so a property of functions
that passes on to the declarations in their bodies holds of all functions in the store if it holds of
those that were there and of those that are declared.
-/

namespace Lox

/-! ### The functions that statements declare -/

mutual

/-- The functions that are declared in a statement, each in front of those in its body. Methods are
none of them: no run makes a function out of a method. -/
def Stmt.functions : Stmt → List Function
  | .block body => Stmt.listFunctions body
  | .conditional _ yes none => yes.functions
  | .conditional _ yes (some no) => yes.functions ++ no.functions
  | .whileLoop _ body => body.functions
  | .function decl => Stmt.functionsFrom decl
  | _ => []

def Stmt.listFunctions : List Stmt → List Function
  | [] => []
  | s :: ss => s.functions ++ Stmt.listFunctions ss

def Stmt.functionsFrom : Function → List Function
  | ⟨name, params, body⟩ => ⟨name, params, body⟩ :: Stmt.listFunctions body

end

mutual

theorem Stmt.functions_inner {f : Function} : (s : Stmt) → f ∈ s.functions →
    Stmt.listFunctions f.body ⊆ s.functions ∧ Stmt.functionIds f ⊆ s.ids
  | .block body, h => Stmt.listFunctions_inner body h
  | .conditional c yes none, h => by
      obtain ⟨hf, hi⟩ := Stmt.functions_inner yes h
      exact ⟨hf, fun i h => List.mem_append_right _ (hi h)⟩
  | .conditional c yes (some no), h => by
      rcases List.mem_append.mp h with h | h
      · obtain ⟨hf, hi⟩ := Stmt.functions_inner yes h
        exact ⟨fun g h => List.mem_append_left _ (hf h),
          fun i h => List.mem_append_left _ (List.mem_append_right _ (hi h))⟩
      · obtain ⟨hf, hi⟩ := Stmt.functions_inner no h
        exact ⟨fun g h => List.mem_append_right _ (hf h), fun i h => List.mem_append_right _ (hi h)⟩
  | .whileLoop c body, h => by
      obtain ⟨hf, hi⟩ := Stmt.functions_inner body h
      exact ⟨hf, fun i h => List.mem_append_right _ (hi h)⟩
  | .function decl, h => Stmt.functionsFrom_inner decl h

theorem Stmt.listFunctions_inner {f : Function} : (ss : List Stmt) → f ∈ Stmt.listFunctions ss →
    Stmt.listFunctions f.body ⊆ Stmt.listFunctions ss ∧ Stmt.functionIds f ⊆ Stmt.listIds ss
  | s :: ss, h => by
      rcases List.mem_append.mp h with h | h
      · obtain ⟨hf, hi⟩ := Stmt.functions_inner s h
        exact ⟨fun g h => List.mem_append_left _ (hf h), fun i h => List.mem_append_left _ (hi h)⟩
      · obtain ⟨hf, hi⟩ := Stmt.listFunctions_inner ss h
        exact ⟨fun g h => List.mem_append_right _ (hf h), fun i h => List.mem_append_right _ (hi h)⟩

theorem Stmt.functionsFrom_inner {f : Function} : (g : Function) → f ∈ Stmt.functionsFrom g →
    Stmt.listFunctions f.body ⊆ Stmt.functionsFrom g ∧ Stmt.functionIds f ⊆ Stmt.functionIds g
  | ⟨name, params, body⟩, h => by
      rcases List.mem_cons.mp h with rfl | h
      · exact ⟨fun g h => List.mem_cons_of_mem _ h, fun i h => h⟩
      · obtain ⟨hf, hi⟩ := Stmt.listFunctions_inner body h
        exact ⟨fun g h => List.mem_cons_of_mem _ (hf h), hi⟩

end

theorem Stmt.mem_functionsFrom (f : Function) : f ∈ Stmt.functionsFrom f := by
  obtain ⟨name, params, body⟩ := f
  exact List.mem_cons_self

/-! ### Values and stores -/

variable {P : Function → Prop}

/-- A property of functions that passes on to what is declared in their bodies. -/
def Inherited (P : Function → Prop) : Prop := ∀ f, P f → ∀ g ∈ Stmt.listFunctions f.body, P g

/-- Of the functions of the host, programs find the clock only. -/
def Value.Of (P : Function → Prop) : Value → Prop
  | .closure c => P c.decl
  | .native n => n = clock
  | _ => True

def Callable.Of (P : Function → Prop) : Callable → Prop
  | .closure c => P c.decl
  | .native n => n = clock

def Flow.Of (P : Function → Prop) : Flow → Prop
  | .returned v => v.Of P
  | .normal => True

def Store.Of (P : Function → Prop) (s : Store) : Prop :=
  ∀ ⦃frame name v⦄, s.here? frame name = some v → v.Of P

theorem Value.of_type {v : Value} (h : v.type ≠ .function) : v.Of P := by
  cases v with
  | native n | closure c => exact absurd rfl h
  | _ => trivial

theorem Callable.of_calleeOf {line given : Nat} {v : Value} {c : Callable} (hv : v.Of P)
    (h : calleeOf line v given = .ok c) : c.Of P := by
  rw [calleeOf] at h
  split at h
  · cases h
  · next c' hc =>
    split at h
    · cases h
      cases v <;> cases hc <;> exact hv
    · cases h

namespace Store.Of

variable {s : Store}

theorem mono {Q : Function → Prop} (h : s.Of P) (hq : ∀ f, P f → Q f) : s.Of Q := by
  intro frame name v hv
  have hv := h hv
  cases v with
  | closure c => exact hq _ hv
  | _ => exact hv

theorem push (h : s.Of P) (enclosing : Option Nat) : (s.push enclosing).Of P := by
  intro frame name v hv
  rw [here?_push] at hv
  exact h hv

theorem define (h : s.Of P) (frame : Nat) (name : String) {v : Value} (hv : v.Of P) :
    (s.define frame name v).Of P := by
  intro g x u hu
  by_cases hf : frame < s.size
  · rw [here?_define s hf] at hu
    split at hu
    · cases hu
      exact hv
    · exact h hu
  · rw [define_of_le (Nat.not_lt.mp hf)] at hu
    exact h hu

theorem bindParams {frame : Nat} {ps : List Token} {vs : List Value} (h : s.Of P)
    (hvs : ∀ v ∈ vs, v.Of P) : (s.bindParams frame ps vs).Of P := by
  induction ps generalizing s vs with
  | nil => exact h
  | cons p ps ih =>
      cases vs with
      | nil => exact h
      | cons v vs =>
          exact ih (h.define frame _ (hvs v List.mem_cons_self))
            fun u hu => hvs u (List.mem_cons_of_mem _ hu)

end Store.Of

/-! ### Runs -/

/-- From a store whose functions have the property the run comes to another one, however it ends, and
to a result with what `Q` says. -/
def Eval.Carries {α : Type} (P : Function → Prop) (x : Eval α) (Q : α → Prop) : Prop :=
  ∀ m : Machine, m.store.Of P → match x m with
    | .ok a n => n.store.Of P ∧ Q a
    | .error _ n => n.store.Of P

namespace Eval.Carries

variable {α β : Type} {x : Eval α} {Q : α → Prop} {R : β → Prop}

theorem leaves (h : Carries P x Q) {m : Machine} (hm : m.store.Of P) :
    (x.leaves m).store.Of P := by
  have hx := h m hm
  rw [Eval.leaves]
  cases hr : x m with
  | ok a n => rw [hr] at hx; exact hx.1
  | error e n => rw [hr] at hx; exact hx

/-- A step that only changes the machine. -/
theorem step {f : Machine → α} {g : Machine → Machine}
    (hg : ∀ m, m.store.Of P → (g m).store.Of P) (hf : ∀ m, m.store.Of P → Q (f m)) :
    Carries P (fun m => .ok (f m) (g m)) Q := fun m hm => ⟨hg m hm, hf m hm⟩

theorem pure {a : α} (h : Q a) : Carries P (pure a) Q := fun _ hm => ⟨hm, h⟩

theorem throw (e : Stop) : Carries P (throw e : Eval α) Q := fun _ hm => hm

theorem bind {f : α → Eval β} (hx : Carries P x Q) (hf : ∀ a, Q a → Carries P (f a) R) :
    Carries P (x >>= f) R := by
  intro m hm
  have hxm := hx m hm
  simp only [Bind.bind, EStateM.bind]
  cases hr : x m with
  | error e n => rw [hr] at hxm; exact hxm
  | ok a n =>
      rw [hr] at hxm
      exact hf a hxm.2 n hxm.1

theorem orRaise {r : Except RuntimeFault α} (h : ∀ a, r = .ok a → Q a) :
    Carries P (orRaise r) Q := by
  cases r with
  | ok a => exact pure (h a rfl)
  | error f => exact fun _ hm => hm

theorem see (v : Value) : Carries P (see v) fun _ => True := step (fun _ => id) fun _ _ => trivial

theorem printLine (v : Value) : Carries P (printLine v) fun _ => True :=
  step (fun _ => id) fun _ _ => trivial

theorem openFrame (enclosing : Nat) : Carries P (openFrame enclosing) fun _ => True :=
  step (fun _ hm => hm.push _) fun _ _ => trivial

theorem openCall (c : Closure) {args : List Value} (h : ∀ v ∈ args, v.Of P) :
    Carries P (openCall c args) fun _ => True :=
  step (fun _ hm => Store.Of.bindParams (hm.push _) h) fun _ _ => trivial

theorem declare {decl : Function} (h : P decl) : Carries P (declareFunction decl) fun _ => True :=
  step (fun m hm => hm.define _ _ (v := .closure ⟨m.nextClosure, decl, m.current⟩) h)
    fun _ _ => trivial

theorem define (name : String) {v : Value} (hv : v.Of P) :
    Carries P (defineHere name v) fun _ => True :=
  step (fun _ hm => hm.define _ _ hv) fun _ _ => trivial

theorem read (id : Nat) (name : Token) : Carries P (readVariable id name) (Value.Of P) := by
  intro m hm
  rw [readVariable]
  cases hv : (m.frameOf? id name.lexeme).bind (m.store.here? · name.lexeme) with
  | none => exact hm
  | some v =>
      obtain ⟨frame, -, hv⟩ := Option.bind_eq_some_iff.mp hv
      exact ⟨hm, hm hv⟩

theorem assign (id : Nat) (name : Token) {v : Value} (hv : v.Of P) :
    Carries P (assignVariable id name v) fun _ => True := by
  intro m hm
  rw [assignVariable]
  cases m.frameOf? id name.lexeme with
  | none => exact hm
  | some frame => exact ⟨hm.define _ _ hv, trivial⟩

theorem within (frame : Nat) (h : Carries P x Q) : Carries P (within frame x) Q := by
  intro m hm
  have hx := h { m with current := frame } hm
  rw [Lox.within]
  cases hr : x { m with current := frame } <;> rw [hr] at hx <;> exact hx

theorem asCall (line : Nat) (h : Carries P x Q) : Carries P (asCall line x) Q := by
  intro m hm
  rw [Lox.asCall]
  by_cases hd : maxCallDepth ≤ m.callDepth
  · rw [if_pos hd]
    exact hm
  · have hx := h { m with callDepth := m.callDepth + 1 } hm
    rw [if_neg hd]
    cases hr : x { m with callDepth := m.callDepth + 1 } <;> rw [hr] at hx <;> exact hx

end Eval.Carries

/-- All runs with so much fuel. -/
structure AllCarry (P : Function → Prop) (host : Host) (fuel : Nat) : Prop where
  eval : ∀ e, (eval host fuel e).Carries P (Value.Of P)
  evalAll : ∀ es, (evalAll host fuel es).Carries P fun vs => ∀ v ∈ vs, v.Of P
  apply : ∀ {c args} line, Callable.Of P c → (∀ v ∈ args, v.Of P) →
    (apply host fuel c args line).Carries P (Value.Of P)
  exec : ∀ {s}, (∀ f ∈ Stmt.functions s, P f) → (exec host fuel s).Carries P (Flow.Of P)
  execAll : ∀ {body}, (∀ f ∈ Stmt.listFunctions body, P f) →
    (execAll host fuel body).Carries P (Flow.Of P)

namespace AllCarry

variable {host : Host} {fuel : Nat}

theorem eval_succ (h : AllCarry P host fuel) (e : Expr) :
    (Lox.eval host (fuel + 1) e).Carries P (Value.Of P) := by
  unfold Lox.eval
  cases e with
  | literal l => exact .pure (by cases l <;> trivial)
  | grouping e => exact h.eval e
  | unary op e =>
      refine .bind (h.eval e) fun v _ => .orRaise fun u hu => ?_
      refine applyUnary_cases (P := fun r => r = .ok u → u.Of P) (fun w hw hr => ?_)
        (fun f _ hr => ?_) hu
      · cases hr
        exact Value.of_type hw
      · cases hr
  | binary l op r =>
      refine .bind (h.eval l) fun v _ => .bind (h.eval r) fun w _ => .orRaise fun u hu => ?_
      refine applyBinary_cases (P := fun r => r = .ok u → u.Of P) (fun w hw hr => ?_)
        (fun f _ hr => ?_) hu
      · cases hr
        exact Value.of_type hw
      · cases hr
  | logical l op r =>
      refine .bind (h.eval l) fun v hv => ?_
      split
      · exact .pure hv
      · exact h.eval r
  | read id name => exact .read id name
  | assign id name e =>
      exact .bind (h.eval e) fun v hv => .bind (.assign id name hv) fun _ _ => .pure hv
  | call callee paren args =>
      refine .bind (h.eval callee) fun v hv => .bind (h.evalAll args) fun vs hvs => ?_
      refine .bind (.orRaise fun _ => Callable.of_calleeOf hv) fun c hc => ?_
      exact .asCall _ (h.apply _ hc hvs)

theorem evalAll_succ (h : AllCarry P host fuel) (es : List Expr) :
    (Lox.evalAll host (fuel + 1) es).Carries P fun vs => ∀ v ∈ vs, v.Of P := by
  unfold Lox.evalAll
  cases es with
  | nil => exact .pure (List.forall_mem_nil _)
  | cons e es =>
      refine .bind (h.eval e) fun v hv => .bind (h.evalAll es) fun vs hvs => .pure ?_
      exact List.forall_mem_cons.mpr ⟨hv, hvs⟩

/-- What is declared in the body of a function has the property because the function has it. -/
theorem apply_succ (hP : Inherited P) (h : AllCarry P host fuel) {c : Callable}
    {args : List Value} (line : Nat) (hc : c.Of P) (hargs : ∀ v ∈ args, v.Of P) :
    (Lox.apply host (fuel + 1) c args line).Carries P (Value.Of P) := by
  unfold Lox.apply
  cases c with
  | native n =>
      cases (hc : n = clock)
      exact .step (g := fun m => { m with steps := m.steps + 1 }) (fun _ => id) fun _ _ => trivial
  | closure c =>
      refine .bind (.openCall c hargs) fun frame _ => ?_
      refine .bind (.within frame (h.execAll (hP _ hc))) fun flow hflow => ?_
      cases flow with
      | normal => exact .pure trivial
      | returned v => exact .pure hflow

theorem seen {α : Type} {Q : α → Prop} (h : AllCarry P host fuel) (e : Expr) {f : Value → Eval α}
    (hf : ∀ v, v.Of P → (f v).Carries P Q) :
    Eval.Carries P (do let v ← Lox.eval host fuel e; see v; f v) Q :=
  .bind (h.eval e) fun v hv => .bind (.see v) fun _ _ => hf v hv

theorem exec_succ (h : AllCarry P host fuel) {s : Stmt} (hs : ∀ f ∈ s.functions, P f) :
    (Lox.exec host (fuel + 1) s).Carries P (Flow.Of P) := by
  unfold Lox.exec
  cases s with
  | expression e => exact h.seen e fun v _ => .pure trivial
  | print e => exact .bind (h.eval e) fun v _ => .bind (.printLine v) fun _ _ => .pure trivial
  | var name initial =>
      cases initial with
      | none => exact .bind (.define _ (v := .nil) trivial) fun _ _ => .pure trivial
      | some e => exact h.seen e fun v hv => .bind (.define _ hv) fun _ _ => .pure trivial
  | block body =>
      refine .bind (.step (Q := fun _ => True) (fun _ => id) fun _ _ => trivial) fun m _ => ?_
      exact .bind (.openFrame _) fun frame _ => .within frame (h.execAll hs)
  | conditional c yes no =>
      cases no with
      | none =>
          refine h.seen c fun v _ => ?_
          split
          · exact h.exec hs
          · exact .pure trivial
      | some no =>
          refine h.seen c fun v _ => ?_
          split
          · exact h.exec fun f hf => hs f (List.mem_append_left _ hf)
          · exact h.exec fun f hf => hs f (List.mem_append_right _ hf)
  | whileLoop c body =>
      refine h.seen c fun v _ => ?_
      split
      · refine .bind (h.exec hs) fun flow hflow => ?_
        cases flow with
        | normal => exact h.exec hs
        | returned v => exact .pure hflow
      · exact .pure trivial
  | function decl =>
      exact .bind (.declare (hs decl (Stmt.mem_functionsFrom decl))) fun _ _ => .pure trivial
  | returning keyword value =>
      cases value with
      | none => exact .pure trivial
      | some e => exact h.seen e fun v hv => .pure hv
  | classDecl name methods => exact .throw _

theorem execAll_succ (h : AllCarry P host fuel) {body : List Stmt}
    (hb : ∀ f ∈ Stmt.listFunctions body, P f) :
    (Lox.execAll host (fuel + 1) body).Carries P (Flow.Of P) := by
  unfold Lox.execAll
  cases body with
  | nil => exact .pure trivial
  | cons s ss =>
      refine .bind (h.exec fun f hf => hb f (List.mem_append_left _ hf)) fun flow hflow => ?_
      cases flow with
      | normal => exact h.execAll fun f hf => hb f (List.mem_append_right _ hf)
      | returned v => exact .pure hflow

end AllCarry

theorem allCarry (hP : Inherited P) (host : Host) (fuel : Nat) : AllCarry P host fuel := by
  induction fuel with
  | zero =>
      refine ⟨fun _ => ?_, fun _ => ?_, fun _ _ _ => ?_, fun _ => ?_, fun _ => ?_⟩
      · unfold eval; exact .throw _
      · unfold evalAll; exact .throw _
      · unfold apply; exact .throw _
      · unfold exec; exact .throw _
      · unfold execAll; exact .throw _
  | succ fuel ih =>
      exact ⟨ih.eval_succ, ih.evalAll_succ, ih.apply_succ hP, ih.exec_succ, ih.execAll_succ⟩

theorem runAll_carries (hP : Inherited P) (host : Host) (fuel : Nat) {body : List Stmt}
    (h : ∀ f ∈ Stmt.listFunctions body, P f) :
    (runAll host fuel body).Carries P fun _ => True := by
  induction body with
  | nil => exact .pure trivial
  | cons s ss ih =>
      refine .bind ((allCarry hP host fuel).exec fun f hf => h f (List.mem_append_left _ hf))
        fun _ _ => ?_
      exact ih fun f hf => h f (List.mem_append_right _ hf)

theorem store_of_start : Machine.start.store.Of P := by
  refine Store.Of.define ?_ _ _ rfl
  exact Store.Of.push (fun frame name v hv => by cases hv) _

end Lox
