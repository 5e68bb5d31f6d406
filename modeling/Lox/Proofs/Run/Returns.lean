import Lox.Proofs.Copy.Pieces
import Lox.Proofs.Run.Course

/-!
A return ends the call in which it is executed, and no other. A program without faults of scope has
its returns in functions only, so nothing at its top level is left by one.
-/

namespace Lox

variable {host : Host} {fuel : Nat} {m n : Machine} {s t : Stmt} {body : List Stmt}

/-! ### What a course says -/

namespace Confined

variable {xs : List Moment} {r : Ending} {v : Value}

/-- Nothing is done behind a return. -/
theorem nothing_behind (h : Confined host xs r) {front back : List Moment} {x : Moment}
    (hxs : xs = front ++ x :: back) (hx : x.isReturn = true) : back = [] ∧ r.Leaves host x := by
  cases h with
  | quiet h hr =>
      have hno := h x (by simp [hxs])
      exact absurd (hx.symm.trans hno) (by decide)
  | @left ys y _ h hy hr =>
      rcases List.eq_nil_or_concat back with rfl | ⟨back', z, rfl⟩
      · obtain ⟨-, hone⟩ := List.append_inj' hxs rfl
        cases hone
        exact ⟨rfl, hr⟩
      · -- there would be a return in front of the last moment
        rw [List.concat_eq_append, ← List.cons_append, ← List.append_assoc] at hxs
        obtain ⟨rfl, -⟩ := List.append_inj' hxs rfl
        have hno := h x (by simp)
        exact absurd (hx.symm.trans hno) (by decide)

/-- A value for the call comes from a return, which is executed last. -/
theorem last_return (h : Confined host xs (.ok (.returned v) m)) :
    ∃ front x, xs = front ++ [x] ∧ (∀ y ∈ front, y.isReturn = false) ∧ x.isReturn = true ∧
      x.Gives host v := by
  cases h with
  | quiet _ hr => cases hr
  | left h hx hr => exact ⟨_, _, rfl, h, hx, hr⟩

end Confined

/-- What is done is as `P` says. Behind a return nothing is done any more, and a value for the call
is that of the only return there is. -/
structure Course.UpToReturn (host : Host) (P : Moment → Prop) (c : Course) : Prop where
  own : ∀ x ∈ c.moments, P x
  nothing_behind : ∀ front x back, c.moments = front ++ x :: back → x.isReturn = true →
    back = [] ∧ c.ending.Leaves host x
  last_return : ∀ v m, c.ending = .ok (.returned v) m → ∃ front x, c.moments = front ++ [x] ∧
    (∀ y ∈ front, y.isReturn = false) ∧ x.isReturn = true ∧ x.Gives host v

theorem Course.Kept.upToReturn {P : Moment → Prop} {c : Course} (h : c.Kept host P) :
    c.UpToReturn host P where
  own := h.own
  nothing_behind _ _ _ hxs hx := h.confined.nothing_behind hxs hx
  last_return v m hv := by
    have hconfined := h.confined
    rw [hv] at hconfined
    exact hconfined.last_return

/-! ### Programs without faults of scope -/

theorem Stmt.findings_of_mem (inFunction : Bool) (hs : s ∈ body) (ss : Scopes) :
    ∃ ss', ∀ f ∈ s.findings inFunction ss', f ∈ Stmt.listFindings inFunction ss body := by
  induction body generalizing ss with
  | nil => cases hs
  | cons t body ih =>
      rw [Stmt.listFindings]
      rcases List.mem_cons.mp hs with rfl | hs
      · exact ⟨ss, fun f hf => List.mem_append_left _ hf⟩
      · obtain ⟨ss', hf⟩ := ih hs (ss.after t)
        exact ⟨ss', fun f hf' => List.mem_append_right _ (hf f hf')⟩

/-- A return outside functions is found on the walk through whatever it lies in. -/
theorem Stmt.Part.returnOutside {keyword : Token} {value : Option Expr}
    (h : (Stmt.returning keyword value).Part s) (ss : Scopes) :
    .fault ⟨keyword.line, .returnOutside⟩ ∈ s.findings false ss := by
  induction h generalizing ss with
  | self =>
      cases value with
      | none => exact List.mem_cons_self
      | some e => exact List.mem_append_left _ List.mem_cons_self
  | block hu h ih =>
      obtain ⟨ss', hmem⟩ := Stmt.findings_of_mem false hu ([] :: ss)
      exact hmem _ (ih ss')
  | @yes yes e no h ih =>
      cases no with
      | none => exact List.mem_append_right _ (ih ss)
      | some no => exact List.mem_append_left _ (List.mem_append_right _ (ih ss))
  | no h ih => exact List.mem_append_right _ (ih _)
  | body h ih => exact List.mem_append_right _ (ih ss)

/-- No statement of a program without faults of scope is left by a return. -/
theorem not_returned (hb : (Stmt.listFindings false [] body).filterMap Finding.fault? = [])
    (hs : s ∈ body) {v : Value} : exec host fuel s m ≠ .ok (.returned v) n := by
  intro h
  have hkept := (allKept host fuel).one s m
  have hconfined := hkept.confined
  rw [(agrees host fuel).one, h] at hconfined
  obtain ⟨front, x, hx, -, hreturn, -⟩ := hconfined.last_return
  have hown := hkept.own x (by simp [hx])
  cases x with
  | condition e m => cases hreturn
  | statement k t m =>
      cases t with
      | returning keyword value =>
          obtain ⟨ss, hmem⟩ := Stmt.findings_of_mem false hs []
          have hfault := (List.mem_filterMap (f := Finding.fault?)).mpr
            ⟨_, hmem _ (Stmt.Part.returnOutside hown ss), rfl⟩
          rw [hb] at hfault
          cases hfault
      | _ => cases hreturn

/-- The statements end by themselves one after the other, each starting where the one before it has
ended. -/
inductive Through (host : Host) (fuel : Nat) : List Stmt → Machine → Machine → Prop
  | done {m : Machine} : Through host fuel [] m m
  | next {s : Stmt} {ss : List Stmt} {m n k : Machine} (h : exec host fuel s m = .ok .normal n)
      (hss : Through host fuel ss n k) : Through host fuel (s :: ss) m k

/-- Statements left by no return are run to their end, or up to the first one that stops. -/
theorem runAll_through (h : ∀ s ∈ body, ∀ {m n v}, exec host fuel s m ≠ .ok (.returned v) n)
    (m : Machine) :
    (∃ n, Through host fuel body m n ∧ runAll host fuel body m = .ok () n) ∨
      ∃ front s back n e n', body = front ++ s :: back ∧ Through host fuel front m n ∧
        exec host fuel s n = .error e n' ∧ runAll host fuel body m = .error e n' := by
  induction body generalizing m with
  | nil => exact .inl ⟨m, .done, rfl⟩
  | cons s body ih =>
      rw [runAll]
      simp only [bind, EStateM.bind]
      rcases hs : exec host fuel s m with ⟨_ | v, n⟩ | ⟨e, n⟩
      · rcases ih (fun t ht => h t (List.mem_cons_of_mem _ ht)) n with ⟨k, hk, hr⟩ |
          ⟨front, t, back, k, e, n', rfl, hk, ht, hr⟩
        · exact .inl ⟨k, .next hs hk, hr⟩
        · exact .inr ⟨s :: front, t, back, k, e, n', rfl, .next hs hk, ht, hr⟩
      · exact absurd hs (h s List.mem_cons_self)
      · exact .inr ⟨[], s, body, m, e, n, rfl, .done, hs, rfl⟩

/-! ### Calls -/

/-- The machine in which the body of a called function starts. -/
def Machine.called (c : Closure) (args : List Value) (m : Machine) : Machine :=
  { m with
    store := (m.store.push (some c.frame)).bindParams m.store.size c.decl.params args
    current := m.store.size
    steps := m.steps + 1 }

/-- What a call comes to when its body has ended so: the value returned, or nil. -/
def Ending.answer (frame : Nat) : Ending → EStateM.Result Stop Machine Value
  | .ok (.returned v) n => .ok v { n with current := frame }
  | .ok .normal n => .ok .nil { n with current := frame }
  | .error e n => .error e { n with current := frame }

theorem apply_closure (c : Closure) (args : List Value) (line : Nat) (m : Machine) :
    apply host (fuel + 1) (.closure c) args line m =
      Ending.answer m.current (execAll host fuel c.decl.body (m.called c args)) := by
  rw [apply]
  simp only [bind, EStateM.bind, openCall, within, Machine.called]
  rcases execAll host fuel c.decl.body _ with ⟨_ | v, n⟩ | ⟨e, n⟩ <;> rfl

/-- A call comes to the value of the return in its course, or to nil if there is none. -/
theorem Course.Kept.value {P : Moment → Prop} {c : Course} {frame : Nat} {v : Value}
    (h : c.Kept host P) (hv : c.ending.answer frame = .ok v n) :
    (∃ front x, c.moments = front ++ [x] ∧ (∀ y ∈ front, y.isReturn = false) ∧
      x.isReturn = true ∧ x.Gives host v) ∨
    (∀ x ∈ c.moments, x.isReturn = false) ∧ v = .nil := by
  obtain ⟨-, hconfined⟩ := h
  rcases hr : c.ending with ⟨_ | u, k⟩ | ⟨e, k⟩
  · rw [hr] at hv hconfined
    cases hv
    exact .inr ⟨hconfined.quiet_of_normal, rfl⟩
  · rw [hr] at hv hconfined
    cases hv
    exact .inl hconfined.last_return
  · rw [hr] at hv
    cases hv

/-- **Returns.** A statement is left with a value by a return only, which lies in it outside all
functions in there; in its course, and in that of a list of statements, nothing comes behind a
return. Where scopes are found without a fault, no statement at the top level is left so, and all
are executed in order, up to the end or the first stop. The value of a call is that of the first
return in the course of the function's body, or nil if there is none. -/
theorem returns_leave_their_calls (host : Host) :
    (∀ fuel s m, (follow host fuel s m).ending = exec host fuel s m ∧
      (follow host fuel s m).UpToReturn host (Moment.In s)) ∧
    (∀ fuel ss m, (followAll host fuel ss m).ending = execAll host fuel ss m ∧
      (followAll host fuel ss m).UpToReturn host fun x => ∃ s ∈ ss, x.In s) ∧
    (∀ body, (Stmt.listFindings false [] body).filterMap Finding.fault? = [] →
      (∀ s ∈ body, ∀ fuel m v n, exec host fuel s m ≠ .ok (.returned v) n) ∧
      ∀ fuel (session : Session),
        (∃ n, Through host fuel body session.ready n ∧
          session.interpret host fuel body = session.ended (.ok () n)) ∨
        ∃ front s back n e n', body = front ++ s :: back ∧
          Through host fuel front session.ready n ∧ exec host fuel s n = .error e n' ∧
          session.interpret host fuel body = session.ended (.error e n')) ∧
    ∀ fuel (c : Closure) args line m,
      let course := followAll host fuel c.decl.body (m.called c args)
      apply host (fuel + 1) (.closure c) args line m = course.ending.answer m.current ∧
      ∀ v n, apply host (fuel + 1) (.closure c) args line m = .ok v n →
        (∃ front x, course.moments = front ++ [x] ∧ (∀ y ∈ front, y.isReturn = false) ∧
          x.isReturn = true ∧ x.Gives host v) ∨
        (∀ x ∈ course.moments, x.isReturn = false) ∧ v = .nil := by
  refine ⟨fun fuel s m => ⟨(agrees host fuel).one s m, ((allKept host fuel).one s m).upToReturn⟩,
    fun fuel ss m => ⟨(agrees host fuel).all ss m, ((allKept host fuel).all ss m).upToReturn⟩,
    fun body hb => ⟨fun s hs fuel m v n => not_returned hb hs, fun fuel session => ?_⟩,
    fun fuel c args line m => ?_⟩
  · rw [session.interpret_eq]
    rcases runAll_through (fun s hs {m n v} => not_returned hb hs) session.ready with
      ⟨n, hn, hr⟩ | ⟨front, s, back, n, e, n', hbody, hn, hs, hr⟩
    · exact .inl ⟨n, hn, by rw [hr]⟩
    · exact .inr ⟨front, s, back, n, e, n', hbody, hn, hs, by rw [hr]⟩
  · have happly := @apply_closure host fuel c args line m
    rw [← (agrees host fuel).all] at happly
    exact ⟨happly, fun v n hv => ((allKept host fuel).all _ _).value (happly.symm.trans hv)⟩

/-- `fun f() { while (true) return false; }` -/
def leaving : Function :=
  let token (kind : Kind) (lexeme : String) : Token := ⟨kind, lexeme, 1⟩
  ⟨token .identifier "f", [], [.whileLoop (.literal (.boolean true))
    (.returning (token (.keyword .kwReturn) "return") (some (.literal (.boolean false))))]⟩

theorem leaving_leaves_its_loop :
    (Stmt.listFindings false [] [.function leaving]).filterMap Finding.fault? = [] ∧
    (∀ fuel m v n, exec .still fuel (.function leaving) m ≠ .ok (.returned v) n) ∧
    ∃ n, apply .still 5 (.closure ⟨0, leaving, globals⟩) [] 1 .start = .ok (.boolean false) n ∧
      ∃ front x, (followAll .still 4 leaving.body
          (Machine.start.called ⟨0, leaving, globals⟩ [])).moments = front ++ [x] ∧
        (∀ y ∈ front, y.isReturn = false) ∧ x.Gives .still (.boolean false) := by
  obtain ⟨-, -, hprogram, hcall⟩ := returns_leave_their_calls .still
  have hfaultless :
      (Stmt.listFindings false [] [.function leaving]).filterMap Finding.fault? = [] := by decide
  obtain ⟨n, hn⟩ : ∃ n, apply .still 5 (.closure ⟨0, leaving, globals⟩) [] 1 .start =
      .ok (.boolean false) n := ⟨_, rfl⟩
  refine ⟨hfaultless, fun fuel m v n => (hprogram _ hfaultless).1 _ List.mem_cons_self fuel m v n,
    n, hn, ?_⟩
  rcases (hcall 4 ⟨0, leaving, globals⟩ [] 1 .start).2 _ n hn with
    ⟨front, x, hx, hf, -, hv⟩ | ⟨-, hv⟩
  · exact ⟨front, x, hx, hf, hv⟩
  · cases hv

end Lox
