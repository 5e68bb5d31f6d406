import Lox.Proofs.Run.Rounds

/-!
The course of a statement, or of the body of a function in one call: which statements are executed
in there and which conditions are looked at, one after the other. The calls on the way have courses
of their own.

A course ends with the first return that is executed in it, if there is one.
-/

namespace Lox

/-- What is done next, and in which machine; a statement with the fuel that it is given. -/
inductive Moment
  | statement (fuel : Nat) (s : Stmt) (m : Machine)
  | condition (c : Expr) (m : Machine)

/-- What is done, the first first, and how it ends. -/
structure Course where
  moments : List Moment
  ending : Ending

namespace Course

/-- Nothing is done any more. -/
def stop (r : Ending) : Course := ⟨[], r⟩

def behind (x : Moment) (c : Course) : Course := ⟨x :: c.moments, c.ending⟩

/-- What ends by itself is followed by what is next. -/
def andThen (c : Course) (next : Machine → Course) : Course :=
  match c.ending with
  | .ok .normal m => ⟨c.moments ++ (next m).moments, (next m).ending⟩
  | _ => c

/-- The value of a condition is seen, and one goes on with it. -/
def decided (r : EStateM.Result Stop Machine Value) (next : Value → Machine → Course) : Course :=
  match r with
  | .ok v m => next v (m.saw v)
  | .error e m => stop (.error e m)

def backIn (frame : Nat) (c : Course) : Course := ⟨c.moments, c.ending.backIn frame⟩

end Course

section

variable (host : Host)

mutual

/-- The course of a statement. -/
def follow : (fuel : Nat) → Stmt → Machine → Course
  | 0, _, m => .stop (.error .outOfFuel m)
  | fuel + 1, s, m => .behind (.statement (fuel + 1) s m) <|
    match s with
    | .block body => .backIn m.current (followAll fuel body m.entered)
    | .conditional c yes no => .behind (.condition c m) <|
      .decided (eval host fuel c m) fun v n =>
        if v.truthy then follow fuel yes n
        else
          match no with
          | some no => follow fuel no n
          | none => .stop (.ok .normal n)
    | .whileLoop c body => .behind (.condition c m) <|
      .decided (eval host fuel c m) fun v n =>
        if v.truthy then .andThen (follow fuel body n) (follow fuel s)
        else .stop (.ok .normal n)
    | s => .stop (exec host (fuel + 1) s m)

def followAll : (fuel : Nat) → List Stmt → Machine → Course
  | 0, _, m => .stop (.error .outOfFuel m)
  | _ + 1, [], m => .stop (.ok .normal m)
  | fuel + 1, s :: ss, m => .andThen (follow fuel s m) (followAll fuel ss)

end

end

variable {host : Host} {fuel : Nat} {m : Machine} {s t u : Stmt} {x : Moment} {c : Course}

/-! ### A course ends as the run does -/

theorem exec_conditional (e : Expr) (yes : Stmt) (no : Option Stmt) (m : Machine) :
    exec host (fuel + 1) (.conditional e yes no) m = match eval host fuel e m with
      | .error f n => .error f n
      | .ok v n =>
        if v.truthy then exec host fuel yes (n.saw v)
        else
          match no with
          | some no => exec host fuel no (n.saw v)
          | none => .ok .normal (n.saw v) := by
  conv_lhs => unfold exec
  simp only [bind, EStateM.bind]
  cases eval host fuel e m with
  | error f n => rfl
  | ok v n =>
      have hsee : see v n = .ok () (n.saw v) := rfl
      simp only [hsee]
      cases v.truthy <;> cases no <;> rfl

theorem exec_whileLoop (e : Expr) (body : Stmt) (m : Machine) :
    exec host (fuel + 1) (.whileLoop e body) m = match eval host fuel e m with
      | .error f n => .error f n
      | .ok v n =>
        if v.truthy then
          match exec host fuel body (n.saw v) with
          | .ok .normal n' => exec host fuel (.whileLoop e body) n'
          | r => r
        else .ok .normal (n.saw v) :=
  ForLoop.exec_loop (l := ⟨none, some e, none, body⟩) m

theorem ending_andThen {next : Machine → Course} {f : Machine → Ending}
    (h : ∀ n, (next n).ending = f n) : (c.andThen next).ending = match c.ending with
      | .ok .normal n => f n
      | r => r := by
  rw [Course.andThen]
  split
  · exact h _
  · rfl

structure Agrees (host : Host) (fuel : Nat) : Prop where
  one : ∀ s m, (follow host fuel s m).ending = exec host fuel s m
  all : ∀ ss m, (followAll host fuel ss m).ending = execAll host fuel ss m

theorem Agrees.one_succ (h : Agrees host fuel) (s : Stmt) (m : Machine) :
    (follow host (fuel + 1) s m).ending = exec host (fuel + 1) s m := by
  unfold follow
  cases s with
  | block body =>
      rw [exec_block, ← h.all]
      rfl
  | conditional e yes no =>
      rw [exec_conditional]
      change (Course.decided (eval host fuel e m) _).ending = _
      cases eval host fuel e m with
      | error f n => rfl
      | ok v n =>
          simp only [Course.decided]
          cases v.truthy with
          | true => exact h.one _ _
          | false =>
              cases no with
              | none => rfl
              | some no => exact h.one _ _
  | whileLoop e body =>
      rw [exec_whileLoop]
      change (Course.decided (eval host fuel e m) _).ending = _
      cases eval host fuel e m with
      | error f n => rfl
      | ok v n =>
          simp only [Course.decided]
          cases v.truthy with
          | true => exact (ending_andThen (h.one _)).trans (by rw [h.one]; rfl)
          | false => rfl
  | _ => rfl

theorem agrees (host : Host) (fuel : Nat) : Agrees host fuel := by
  induction fuel with
  | zero => exact ⟨fun s m => (exec_zero s m).symm, fun ss m => (execAll_zero ss m).symm⟩
  | succ fuel ih =>
      refine ⟨ih.one_succ, fun ss m => ?_⟩
      cases ss with
      | nil =>
          rw [execAll]
          rfl
      | cons s ss =>
          rw [execAll_cons, ← ih.one]
          exact ending_andThen (ih.all ss)

/-! ### What belongs to a statement -/

/-- A statement that is the other one or lies in it, outside all functions and methods in there. -/
inductive Stmt.Part : Stmt → Stmt → Prop
  | self {s : Stmt} : Part s s
  | block {t u : Stmt} {body : List Stmt} (hu : u ∈ body) (h : Part t u) : Part t (.block body)
  | yes {t yes : Stmt} {e : Expr} {no : Option Stmt} (h : Part t yes) :
      Part t (.conditional e yes no)
  | no {t yes no : Stmt} {e : Expr} (h : Part t no) : Part t (.conditional e yes (some no))
  | body {t body : Stmt} {e : Expr} (h : Part t body) : Part t (.whileLoop e body)

def Stmt.condition? : Stmt → Option Expr
  | .conditional e _ _ | .whileLoop e _ => some e
  | _ => none

namespace Moment

/-- What is done belongs to the statement. -/
def In (s : Stmt) : Moment → Prop
  | .statement _ t _ => t.Part s
  | .condition e _ => ∃ t : Stmt, t.Part s ∧ t.condition? = some e

def isReturn : Moment → Bool
  | .statement _ (.returning ..) _ => true
  | _ => false

/-- The return has the value: that of its expression, where it was executed, or nil. -/
def Gives (host : Host) (v : Value) : Moment → Prop
  | .statement _ (.returning _ none) _ => v = .nil
  | .statement (fuel + 1) (.returning _ (some e)) m => ∃ n, eval host fuel e m = .ok v n
  | _ => False

theorem In.mono (h : x.In u) (hp : ∀ {t : Stmt}, t.Part u → t.Part s) : x.In s := by
  cases x with
  | statement fuel t m => exact hp h
  | condition e m =>
      obtain ⟨t, ht, he⟩ := h
      exact ⟨t, hp ht, he⟩

end Moment

/-! ### Where a course ends -/

/-- A value for the call, or a stop. -/
def Ending.Leaves (host : Host) (x : Moment) : Ending → Prop
  | .ok (.returned v) _ => x.Gives host v
  | .ok .normal _ => False
  | .error _ _ => True

def Ending.isValue : Ending → Bool
  | .ok (.returned _) _ => true
  | _ => false

/-- A course either has no return in it, and comes to no value for the call; or it has one return,
which is its last moment, and comes to its value, unless it stops there. -/
inductive Confined (host : Host) : List Moment → Ending → Prop
  | quiet {xs : List Moment} {r : Ending} (h : ∀ x ∈ xs, x.isReturn = false)
      (hr : r.isValue = false) : Confined host xs r
  | left {xs : List Moment} {x : Moment} {r : Ending} (h : ∀ y ∈ xs, y.isReturn = false)
      (hx : x.isReturn = true) (hr : r.Leaves host x) : Confined host (xs ++ [x]) r

namespace Confined

variable {xs ys : List Moment} {r : Ending}

theorem stop (h : r.isValue = false) : Confined host [] r := .quiet (List.forall_mem_nil _) h

theorem one (hx : x.isReturn = true) (hr : r.Leaves host x) : Confined host [x] r :=
  List.nil_append [x] ▸ .left (List.forall_mem_nil _) hx hr

theorem behind (hx : x.isReturn = false) (h : Confined host xs r) : Confined host (x :: xs) r := by
  cases h with
  | quiet h hr => exact .quiet (List.forall_mem_cons.mpr ⟨hx, h⟩) hr
  | left h hy hr =>
      rw [← List.cons_append]
      exact .left (List.forall_mem_cons.mpr ⟨hx, h⟩) hy hr

theorem append (hx : ∀ x ∈ xs, x.isReturn = false) (h : Confined host ys r) :
    Confined host (xs ++ ys) r := by
  induction xs with
  | nil => exact h
  | cons x xs ih =>
      obtain ⟨hx, hxs⟩ := List.forall_mem_cons.mp hx
      exact behind hx (ih hxs)

/-- Behind a course that ends by itself there was no return. -/
theorem quiet_of_normal (h : Confined host xs (.ok .normal m)) : ∀ x ∈ xs, x.isReturn = false := by
  cases h with
  | quiet h hr => exact h
  | left h hx hr => exact hr.elim

theorem backIn (h : Confined host xs r) (frame : Nat) : Confined host xs (r.backIn frame) := by
  cases h with
  | quiet h hr => exact .quiet h (by rcases r with ⟨_ | _, _⟩ | _ <;> exact hr)
  | left h hx hr => exact .left h hx (by rcases r with ⟨_ | _, _⟩ | _ <;> exact hr)

end Confined

/-- All that is done belongs to the statement, up to a return at most. -/
structure Course.Kept (host : Host) (P : Moment → Prop) (c : Course) : Prop where
  own : ∀ x ∈ c.moments, P x
  confined : Confined host c.moments c.ending

namespace Course.Kept

variable {P Q : Moment → Prop} {r : Ending}

theorem stop (h : r.isValue = false) : Kept host P (.stop r) := ⟨List.forall_mem_nil _, .stop h⟩

theorem mono (h : c.Kept host P) (hp : ∀ x, P x → Q x) : c.Kept host Q :=
  ⟨fun x hx => hp x (h.own x hx), h.confined⟩

theorem behind (hx : x.isReturn = false) (hp : P x) (h : c.Kept host P) :
    (c.behind x).Kept host P :=
  ⟨List.forall_mem_cons.mpr ⟨hp, h.own⟩, h.confined.behind hx⟩

theorem backIn (h : c.Kept host P) (frame : Nat) : (c.backIn frame).Kept host P :=
  ⟨h.own, h.confined.backIn frame⟩

theorem andThen {next : Machine → Course} (h : c.Kept host P) (hn : ∀ m, (next m).Kept host P) :
    (c.andThen next).Kept host P := by
  rw [Course.andThen]
  split
  · next m hc =>
    have hquiet := h.confined
    rw [hc] at hquiet
    refine ⟨fun x hx => ?_, (hn m).confined.append hquiet.quiet_of_normal⟩
    exact (List.mem_append.mp hx).elim (h.own x) ((hn m).own x)
  · exact h

theorem decided {r : EStateM.Result Stop Machine Value} {next : Value → Machine → Course}
    (h : ∀ v m, (next v m).Kept host P) : (Course.decided r next).Kept host P := by
  cases r with
  | ok v m => exact h v _
  | error e m => exact stop rfl

end Course.Kept

/-- A statement without parts that is no return ends by itself or stops. -/
def Plain (run : Eval Flow) : Prop := ∀ m, Ending.isValue (run m) = false

theorem Plain.bind {α : Type} {run : Eval α} {f : α → Eval Flow} (h : ∀ a, Plain (f a)) :
    Plain (run >>= f) := by
  intro m
  simp only [Bind.bind, EStateM.bind]
  cases run m with
  | ok a n => exact h a n
  | error e n => rfl

theorem Plain.normal : Plain (return .normal) := fun _ => rfl

theorem kept_plain (hs : (Moment.statement (fuel + 1) s m).isReturn = false)
    (h : Plain (exec host (fuel + 1) s)) :
    (Course.behind (.statement (fuel + 1) s m) (.stop (exec host (fuel + 1) s m))).Kept host
      (Moment.In s) := .behind hs .self (.stop (h m))

theorem kept_returning (keyword : Token) (value : Option Expr) (m : Machine) :
    (Course.behind (.statement (fuel + 1) (.returning keyword value) m)
      (.stop (exec host (fuel + 1) (.returning keyword value) m))).Kept host
        (Moment.In (.returning keyword value)) := by
  refine ⟨List.forall_mem_singleton.mpr .self, .one rfl ?_⟩
  cases value with
  | none =>
      rw [exec]
      exact rfl
  | some e =>
      rw [exec]
      simp only [bind, EStateM.bind]
      cases he : eval host fuel e m with
      | ok v n => exact ⟨n, he⟩
      | error f n => trivial

structure AllKept (host : Host) (fuel : Nat) : Prop where
  one : ∀ s m, (follow host fuel s m).Kept host (Moment.In s)
  all : ∀ ss m, (followAll host fuel ss m).Kept host fun x => ∃ s ∈ ss, x.In s

theorem AllKept.one_succ (h : AllKept host fuel) (s : Stmt) (m : Machine) :
    (follow host (fuel + 1) s m).Kept host (Moment.In s) := by
  unfold follow
  cases s with
  | block body =>
      refine .behind rfl .self (.backIn ((h.all body _).mono fun x hx => ?_) _)
      obtain ⟨u, hu, hx⟩ := hx
      exact hx.mono (.block hu)
  | conditional e yes no =>
      refine .behind rfl .self (.behind rfl ⟨_, .self, rfl⟩ (.decided fun v n => ?_))
      split
      · exact (h.one yes n).mono fun x hx => hx.mono .yes
      · cases no with
        | none => exact .stop rfl
        | some no => exact (h.one no n).mono fun x hx => hx.mono .no
  | whileLoop e body =>
      refine .behind rfl .self (.behind rfl ⟨_, .self, rfl⟩ (.decided fun v n => ?_))
      split
      · -- the rounds that follow are the course of the whole loop, with less fuel
        exact ((h.one body n).mono fun x hx => hx.mono .body).andThen (h.one _)
      · exact .stop rfl
  | returning keyword value => exact kept_returning keyword value m
  | expression e =>
      refine kept_plain rfl ?_
      rw [exec]
      exact .bind fun v => .bind fun _ => .normal
  | print e =>
      refine kept_plain rfl ?_
      rw [exec]
      exact .bind fun v => .bind fun _ => .normal
  | var name initial =>
      refine kept_plain rfl ?_
      cases initial with
      | none =>
          rw [exec]
          exact .bind fun _ => .normal
      | some e =>
          rw [exec]
          exact .bind fun v => .bind fun _ => .bind fun _ => .normal
  | function decl =>
      refine kept_plain rfl ?_
      rw [exec]
      exact .bind fun _ => .normal
  | classDecl name methods =>
      refine kept_plain rfl ?_
      rw [exec]
      exact fun _ => rfl

/-- A course keeps to its statements, and a return in it is its last moment. -/
theorem allKept (host : Host) (fuel : Nat) : AllKept host fuel := by
  induction fuel with
  | zero => exact ⟨fun _ _ => .stop rfl, fun _ _ => .stop rfl⟩
  | succ fuel ih =>
      refine ⟨ih.one_succ, fun ss m => ?_⟩
      cases ss with
      | nil => exact .stop rfl
      | cons s ss =>
          refine ((ih.one s m).mono fun x hx => ⟨s, List.mem_cons_self, hx⟩).andThen fun n => ?_
          exact (ih.all ss n).mono fun x ⟨u, hu, hx⟩ => ⟨u, List.mem_cons_of_mem _ hu, hx⟩

end Lox
