import Lox.Proofs.Run.Gains

/-!
How names come into frames while programs run: through declarations and calls. Blocks, conditionals,
loops and calls leave the frames that were there with the names that they had.
-/

namespace Lox

theorem Stmt.listSites_append (around : List Path) (path : Path) (i : Nat)
    (front back : List Stmt) :
    Stmt.listSites [] around path i (front ++ back) =
      Stmt.listSites [] around path i front ++
        Stmt.listSites [] around path (i + front.length) back := by
  induction front generalizing i with
  | nil => rfl
  | cons s front ih =>
      simp only [List.cons_append, Stmt.listSites, Scopes.after_nil, ih, List.append_assoc,
        List.length_cons, Nat.add_comm front.length, Nat.add_assoc]

namespace Task

variable {host : Host} {fuel fuel' : Nat} {T : List Site} {may may' : Nat → String → Prop}
  {task task' : Task} {m m' : Machine} {past : Past} {s : Stmt}

theorem Ready.mono (h : task.Ready T may ⟨m, past⟩)
    (hmay : ∀ x, may m.current x → may' m.current x) : task.Ready T may' ⟨m, past⟩ := by
  cases task with
  | eval | evalAll =>
      obtain ⟨a, ss, ps, hat, ht, hs, hw⟩ := h
      obtain rfl := hat.current
      exact ⟨_, ss, ps, hat, ht, hs, fun x hx => hmay x (hw x hx)⟩
  | apply => exact h
  | exec =>
      obtain ⟨a, ss, ps, path, hat, hss, hp, hs, hplaced, hw⟩ := h
      obtain rfl := hat.current
      exact ⟨_, ss, ps, path, hat, hss, hp, hs, hplaced, fun x hx => hmay x (hw x hx)⟩
  | execAll =>
      obtain ⟨a, ss, ps, path, i, hat, hss, hp, hs, hplaced, hw⟩ := h
      obtain rfl := hat.current
      exact ⟨_, ss, ps, path, i, hat, hss, hp, hs, hplaced, fun x => hmay x (hw x)⟩

theorem Ready.current_lt (h : task.Ready T may ⟨m, past⟩) (hv : Tape.Valid T ⟨m, past⟩)
    (ht : task.isCall = false) : m.current < m.store.size := by
  have hlt {a : Nat} {ss : Scopes} {ps : List Path} (hat : Tape.At ⟨m, past⟩ a ss ps) :
      m.current < m.store.size := by
    obtain rfl := hat.current
    exact hat.covers.lt_size hv.size
  cases task with
  | eval | evalAll => obtain ⟨a, ss, ps, hat, -⟩ := h; exact hlt hat
  | apply => cases ht
  | exec => obtain ⟨a, ss, ps, path, hat, -⟩ := h; exact hlt hat
  | execAll => obtain ⟨a, ss, ps, path, i, hat, -⟩ := h; exact hlt hat

/-- Expressions are evaluated in the frame of what asks for them. -/
theorem Follows.current_eq {past' : Past} (h : Follows T may m past task' m' past')
    (he : task'.isExpression = true) : m'.current = m.current := by
  rcases h.current with hc | ⟨-, body, rfl⟩
  · exact hc
  · cases he

/-- A statement need only be allowed what it declares. -/
theorem Ready.tighten (h : (Task.exec s).Ready T may ⟨m, past⟩) :
    (Task.exec s).Ready T (fun f x => f = m.current ∧ s.declares? = some x) ⟨m, past⟩ := by
  obtain ⟨a, ss, ps, path, hat, hss, hp, hs, hplaced, -⟩ := h
  exact ⟨a, ss, ps, path, hat, hss, hp, hs, hplaced, fun x hx => ⟨hat.current.symm, hx⟩⟩

theorem Ready.scoped (h : task.Ready T may ⟨m, past⟩) (hs : task.isScoped = true) :
    task.Ready T (fun _ _ => False) ⟨m, past⟩ := by
  cases task with
  | apply => exact h
  | exec s =>
      refine h.tighten.mono fun x hx => ?_
      cases s <;> cases hs <;> cases hx.2
  | _ => cases hs

theorem Ready.grows (host : Host) (fuel : Nat) (hr : task.Ready T may ⟨m, past⟩)
    (hv : Tape.Valid T ⟨m, past⟩) : ∃ past', Tape.Valid T ⟨task.leaves host fuel m, past'⟩ ∧
      Tape.Grows ⟨m, past⟩ ⟨task.leaves host fuel m, past'⟩ := by
  have hsafe := Told.safe host T fuel
  have htell := Told.allTell host fuel
  cases task with
  | eval e =>
      obtain ⟨a, ss, ps, hat, ht, hs, -⟩ := hr
      obtain ⟨past', hv', hg, -⟩ := (hsafe.eval hv hat ht hs).leaves (htell.eval a e)
      exact ⟨past', hv', hg⟩
  | evalAll es =>
      obtain ⟨a, ss, ps, hat, ht, hs, -⟩ := hr
      obtain ⟨past', hv', hg, -⟩ := (hsafe.evalAll hv hat ht hs).leaves (htell.evalAll a es)
      exact ⟨past', hv', hg⟩
  | apply c args line =>
      obtain ⟨hfit, hargs, hl⟩ := hr
      obtain ⟨past', hv', hg, -⟩ := (hsafe.apply hv hfit hargs hl).leaves (htell.apply c args line)
      exact ⟨past', hv', hg⟩
  | exec s =>
      obtain ⟨a, ss, ps, path, hat, hss, hp, hs, hplaced, -⟩ := hr
      obtain ⟨past', hv', hg, -⟩ :=
        (hsafe.exec hv hat hss hp hs hplaced).leaves (htell.exec a path s)
      exact ⟨past', hv', hg⟩
  | execAll body =>
      obtain ⟨a, ss, ps, path, i, hat, hss, hp, hs, hplaced, -⟩ := hr
      obtain ⟨past', hv', hg, -⟩ :=
        (hsafe.execAll hv hat hss hp hs hplaced).leaves (htell.execAll a path i body)
      exact ⟨past', hv', hg⟩

/-! ### Where declarations stand -/

/-- Of the tasks that declare in the frame in which they are done, each is asked for by another one
there, or its frame is new. -/
theorem Asks.opens (h : Asks host fuel task m task' m') (hr : task.Ready T may ⟨m, past⟩)
    (ho : task'.isOpen = true) : task.isOpen = true ∨ m.store.size ≤ m'.current := by
  cases h with
  | body h | block h => cases h; exact .inr (Nat.le_refl _)
  | statement | rest => exact .inl rfl
  | @yes e yes no =>
      obtain ⟨a, ss, ps, path, -, -, -, -, hplaced, -⟩ := hr
      cases no with
      | none => exact absurd ho (by rw [Task.isOpen, hplaced.2]; decide)
      | some no => exact absurd ho (by rw [Task.isOpen, hplaced.1.2]; decide)
  | no =>
      obtain ⟨a, ss, ps, path, -, -, -, -, hplaced, -⟩ := hr
      exact absurd ho (by rw [Task.isOpen, hplaced.2.2]; decide)
  | round =>
      obtain ⟨a, ss, ps, path, -, -, -, -, hplaced, -⟩ := hr
      exact absurd ho (by rw [Task.isOpen, hplaced.2]; decide)
  | _ => cases ho

/-- What is declared in the course of a task with a scope of its own is declared in new frames. -/
theorem Within.fresh (h : Within host fuel task m fuel' task' m') (hv : Tape.Valid T ⟨m, past⟩)
    (hr : task.Ready T may ⟨m, past⟩) (hn : task.isOpen = false) :
    (∃ past', Tape.Valid T ⟨m', past'⟩ ∧ ∃ may', task'.Ready T may' ⟨m', past'⟩) ∧
      m.store.size ≤ m'.store.size ∧ (task'.isOpen = true → m.store.size ≤ m'.current) := by
  induction h with
  | self => exact ⟨⟨past, hv, may, hr⟩, Nat.le_refl _, fun ho => by rw [hn] at ho; cases ho⟩
  | @part fuel₁ task₁ m₁ task₂ m₂ _ ha ih =>
      obtain ⟨⟨past₁, hv₁, may₁, hr₁⟩, hsize, hopen⟩ := ih
      obtain ⟨past₂, hf⟩ := ha.follows hv₁ hr₁
      refine ⟨⟨past₂, hf.valid, _, hf.ready⟩, Nat.le_trans hsize hf.store.size, fun ho => ?_⟩
      rcases hf.current with hc | ⟨hc, -⟩
      · rw [hc]
        rcases ha.opens hr₁ ho with ho | hc'
        · exact hopen ho
        · exact Nat.le_trans hsize (hc ▸ hc')
      · exact Nat.le_trans hsize hc

end Task

/-! ### The moments of a run -/

namespace Run

variable {runs : List Run} {r : Run} {fuel : Nat} {task : Task} {m : Machine}

/-- A program that may be run adds its occurrences to those of the session. -/
theorem sites_after {body : List Stmt} {s : Session} (hf : Source.faults r.source = [])
    (ha : (Session.after runs).accept (Source.tokens r.source) = (.ok body, s)) :
    (Chronicle.after (runs ++ [r])).sites = (Chronicle.after runs).sites ++
      Stmt.listSites [] [] [(Chronicle.after runs).programs] 0 body := by
  rw [← Chronicle.session_after] at ha
  rw [Chronicle.after_concat]
  unfold Source.faults at hf
  unfold Source.tokens at ha
  unfold Chronicle.run
  simp only [hf, Chronicle.runTokens, ha, Chronicle.interpret]
  cases Told.runAll r.host r.fuel [(Chronicle.after runs).programs] 0 body
      ⟨Session.ready s, (Chronicle.after runs).past⟩ with
  | ok => rfl
  | error e => cases e <;> rfl

/-- The run is at work at the initial value of a declaration in a frame. -/
def Initializes (r : Run) (s : Session) (fuel : Nat) (task : Task) (m : Machine) (frame : Nat)
    (x : String) : Prop :=
  ∃ fuel' name e m', r.Does s fuel' (.exec (.var name (some e))) m' ∧ name.lexeme = x ∧
    m'.current = frame ∧ Task.Within r.host fuel' (.exec (.var name (some e))) m' fuel task m

/-- Whatever a run does it is ready for. An expression may give a value to the name that it is the
initial value of, a statement to a name that it declares. -/
theorem Does.ready (h : r.Does (Session.after runs) fuel task m) :
    ∃ past, Tape.Valid (Chronicle.after (runs ++ [r])).sites ⟨m, past⟩ ∧
      task.Ready (Chronicle.after (runs ++ [r])).sites (fun frame x =>
        task.isExpression = true → r.Initializes (Session.after runs) fuel task m frame x)
        ⟨m, past⟩ := by
  induction h with
  | @statement front stmt back s m hf ha hm =>
      rw [sites_after hf ha]
      rw [← Chronicle.session_after] at ha
      obtain ⟨hplaced, hv⟩ := (Chronicle.valid_after runs).accept ha
      rw [Stmt.listSites_append] at hv ⊢
      have hready := Told.valid_same (m := s.ready) hv.tape ⟨rfl, rfl, rfl⟩
      have hplaced := Stmt.listPlaced_iff.mp hplaced
      obtain ⟨past, hv', hg, -⟩ := (Told.runAll_goes r.host r.fuel hready rfl
        (fun o ho => List.mem_append_right _ (List.mem_append_left _ ho))
        (Stmt.listPlaced_iff.mpr fun s hs => hplaced s (List.mem_append_left _ hs))).ok
        (Told.runAll_tells r.host r.fuel [(Chronicle.after runs).programs] 0 front) hm
      refine ⟨past, hv', globals, [], [], (0 + front.length) :: [(Chronicle.after runs).programs],
        ⟨.root, .root, hg.current⟩, .nil, fun q h => (by cases h), fun o ho => ?_,
        hplaced stmt (List.mem_append_right _ List.mem_cons_self), fun x hx he => by cases he⟩
      exact List.mem_append_right _ (List.mem_append_right _ (List.mem_append_left _ ho))
  | @part fuel task m task' m' h ha ih =>
      obtain ⟨past, hv, hr⟩ := ih
      cases task with
      | eval | evalAll =>
          obtain ⟨past', hf⟩ := ha.follows hv hr
          refine ⟨past', hf.valid, hf.ready.mono fun x hx he => ?_⟩
          rw [hf.current_eq he] at hx ⊢
          obtain ⟨fuel', name, e, m₀, h₀, hname, hcurrent, hin⟩ := hx (hr.current_lt hv rfl) rfl
          exact ⟨fuel', name, e, m₀, h₀, hname, hcurrent, hin.part ha⟩
      | exec s =>
          obtain ⟨past', hf⟩ := ha.follows hv hr.tighten
          refine ⟨past', hf.valid, hf.ready.mono fun x hx he => ?_⟩
          rw [hf.current_eq he] at hx ⊢
          obtain ⟨-, hx⟩ := hx (hr.current_lt hv rfl)
          cases ha with
          | initial => cases hx; exact ⟨_, _, _, _, h, rfl, rfl, .part .self .initial⟩
          | expression | print | condition | test | result => cases hx
          | _ => cases he
      | apply | execAll =>
          obtain ⟨past', hf⟩ := ha.follows hv hr
          refine ⟨past', hf.valid, hf.ready.mono fun x hx he => ?_⟩
          cases ha <;> cases he

end Run

/-! ### Scopes are hygienic -/

/-- Executing a block, a conditional or a loop and calling a function leaves the frames that were
there with the names that they had, however it ends, and the machine is back in its frame. What is
declared on the way is declared in new frames. -/
theorem scopes_are_hygienic (runs : List Run) (r : Run) {fuel : Nat} {task : Task} {m : Machine}
    (h : r.Does (Session.after runs) fuel task m) (hs : task.isScoped = true) :
    (task.leaves r.host fuel m).current = m.current ∧
    m.store.size ≤ (task.leaves r.host fuel m).store.size ∧
    (∀ f < m.store.size,
      (task.leaves r.host fuel m).store.enclosing? f = m.store.enclosing? f ∧
      ∀ x, ((task.leaves r.host fuel m).store.here? f x).isSome = (m.store.here? f x).isSome) ∧
    ∀ fuel' s n, task.Within r.host fuel m fuel' (.exec s) n → s.isDeclaration = true →
      m.store.size ≤ n.current := by
  obtain ⟨past, hv, hr⟩ := h.ready
  obtain ⟨past', -, hg⟩ := hr.grows r.host fuel hv
  have hgains := Task.gains r.host _ fuel hv (hr.scoped hs)
  have hclosed : task.isOpen = false := by
    cases task with
    | exec s => cases s <;> cases hs <;> rfl
    | apply => rfl
    | _ => cases hs
  refine ⟨hg.current, hg.store.size, fun f hf => ⟨hg.store.links f hf, fun x => ?_⟩,
    fun fuel' s n hin hd => (hin.fresh hv hr hclosed).2.2 hd⟩
  refine Bool.eq_iff_iff.mpr ⟨fun hx => ?_, hg.store.bound f x⟩
  exact (hgains f hf x hx).elim id False.elim

/-- A block whose variable is assigned in its own initial value. -/
def assignedEarly : Run where
  host := ⟨fun _ => 0, fun _ _ => .error ""⟩
  fuel := 9
  source := "\x7bvar a = (a = true);\x7d"

/-- The assignment in such a block, of a program that is nothing else. -/
def earlyAssignment? : Except Outcome (List Stmt) → Option Nat
  | .ok [.block [.var _ (some (.grouping (.assign id _ (.literal (.boolean true)))))]] => some id
  | _ => none

theorem of_earlyAssignment? {o : Except Outcome (List Stmt)} {id : Nat}
    (h : earlyAssignment? o = some id) :
    ∃ a b, o = .ok [.block [.var a (some (.grouping (.assign id b (.literal (.boolean true)))))]] := by
  unfold earlyAssignment? at h
  split at h
  · cases h
    exact ⟨_, _, rfl⟩
  · cases h

theorem assignedEarly_accepted :
    ∃ a id b s, (Session.after []).accept (Source.tokens assignedEarly.source) =
        (.ok [.block [.var a (some (.grouping (.assign id b (.literal (.boolean true)))))]], s) ∧
      Source.faults assignedEarly.source = [] ∧ s.machine.hops[id]? = some 0 ∧
      s.machine.store.size = 1 := by
  let r := (Session.after []).accept (Source.tokens assignedEarly.source)
  have hread : (earlyAssignment? r.1).bind (r.2.machine.hops[·]?) = some 0 := by decide +kernel
  obtain ⟨id, hid, hhops⟩ := Option.bind_eq_some_iff.mp hread
  obtain ⟨a, b, hr⟩ := of_earlyAssignment? hid
  exact ⟨a, id, b, r.2, Prod.ext hr rfl, by decide +kernel, hhops, by decide +kernel⟩

/-- The block leaves the global variables alone. -/
theorem assignedEarly_is_hygienic :
    ∃ s m, assignedEarly.Does (Session.after []) 9 (.exec s) m ∧ (Task.exec s).isScoped = true ∧
      ∀ x, (((Task.exec s).leaves assignedEarly.host 9 m).store.here? globals x).isSome =
        (m.store.here? globals x).isSome := by
  obtain ⟨a, id, b, s, ha, hf, -, hsize⟩ := assignedEarly_accepted
  have hdoes := @Run.Does.statement _ _ [] _ [] _ _ hf ha rfl
  refine ⟨_, _, hdoes, rfl, ((scopes_are_hygienic [] assignedEarly hdoes rfl).2.2.1 globals ?_).2⟩
  exact Nat.lt_of_lt_of_eq Nat.zero_lt_one hsize.symm

/-! ### Local variables come from declarations -/

/-- A new frame starts with no names. -/
theorem Store.here?_new (st : Store) (enclosing : Option Nat) (x : String) :
    (st.push enclosing).here? st.size x = none := by
  rw [Store.here?_push, Store.here?_of_le (Nat.le_refl _)]

/-- The frame of a call binds the parameters and nothing else. -/
theorem Store.isSome_bindParams (st : Store) {frame : Nat} (hf : frame < st.size) (x : String)
    {ps : List Token} {vs : List Value} (hl : ps.length = vs.length) :
    ((st.bindParams frame ps vs).here? frame x).isSome ↔
      (st.here? frame x).isSome ∨ ∃ p ∈ ps, p.lexeme = x := by
  induction ps generalizing st vs with
  | nil => simp [Store.bindParams]
  | cons p ps ih =>
      cases vs with
      | nil => cases hl
      | cons v vs =>
          rw [Store.bindParams, ih _ (by simpa using hf) (by simpa using hl), here?_define st hf]
          by_cases hp : p.lexeme = x <;> simp [hp]

/-- An assignment that means a local variable finds it bound, unless the run is still at work at the
initial value of that variable, in its frame. So executing a statement gives names only to its own
frame, and only those that it declares; a block starts with no names, and a call with those of its
parameters. -/
theorem locals_come_from_declarations (runs : List Run) (r : Run) :
    (∀ fuel id name e m v n d,
      r.Does (Session.after runs) (fuel + 1) (.eval (.assign id name e)) m →
      eval r.host fuel e m = .ok v n → n.hops[id]? = some d →
      ∃ frame, n.store.ancestor? d n.current = some frame ∧
        ((n.store.here? frame name.lexeme).isSome ∨ d = 0 ∧ r.Initializes (Session.after runs)
          (fuel + 1) (.eval (.assign id name e)) m frame name.lexeme)) ∧
    (∀ fuel s m, r.Does (Session.after runs) fuel (.exec s) m → ∀ f < m.store.size, ∀ x,
      (((Task.exec s).leaves r.host fuel m).store.here? f x).isSome →
        (m.store.here? f x).isSome ∨ f = m.current ∧ s.declares? = some x) ∧
    (∀ (m : Machine), ∃ frame n, openFrame m.current m = .ok frame n ∧ frame = m.store.size ∧
      ∀ x, n.store.here? frame x = none) ∧
    ∀ (c : Closure) args (m : Machine), c.decl.params.length = args.length →
      ∃ frame n, openCall c args m = .ok frame n ∧ frame = m.store.size ∧
        ∀ x, (n.store.here? frame x).isSome ↔ ∃ p ∈ c.decl.params, p.lexeme = x := by
  refine ⟨fun fuel id name e m v n d h he hd => ?_, fun fuel s m h f hf x hx => ?_,
    fun m => ⟨_, _, rfl, rfl, fun x => ?_⟩, fun c args m hl => ⟨_, _, rfl, rfl, fun x => ?_⟩⟩
  · obtain ⟨past, hv, hr⟩ := h.ready
    obtain ⟨s, -, -, -, hhops, hlocal, hmay⟩ := Task.assigns hv hr he
    obtain ⟨frame, hframe, hanc, hb⟩ := hlocal d (hhops.symm.trans hd)
    refine ⟨frame, hanc, ?_⟩
    rcases hb with hb | ⟨hd, -⟩
    · exact .inl hb
    · exact (hmay frame hframe).elim .inl fun hi => .inr ⟨hd, hi rfl⟩
  · obtain ⟨past, hv, hr⟩ := h.ready
    exact Task.gains r.host _ fuel hv hr.tighten f hf x hx
  · exact Store.here?_new _ _ x
  · rw [Store.isSome_bindParams _ (by simp) x hl, Store.here?_new]
    simp

/-- The assignment of the block is about to store its value, and there is no such variable yet. -/
theorem assignedEarly_assigns : ∃ id name e m frame,
    assignedEarly.Does (Session.after []) 5 (.eval (.assign id name e)) m ∧
    eval assignedEarly.host 4 e m = .ok (.boolean true) m ∧ m.hops[id]? = some 0 ∧
    m.store.ancestor? 0 m.current = some frame ∧ m.store.here? frame name.lexeme = none := by
  obtain ⟨a, id, b, s, ha, hf, hhops, -⟩ := assignedEarly_accepted
  have hblock := @Run.Does.statement _ _ [] _ [] _ _ hf ha rfl
  have hbody : assignedEarly.Does (Session.after []) 8 (.execAll _) _ := hblock.part (.block rfl)
  have hassign := ((hbody.part .statement).part .initial).part .inner
  exact ⟨id, b, _, _, _, hassign, rfl, hhops, rfl, Store.here?_new _ _ _⟩

/-- The run is still at work at the initial value of the variable that is assigned. -/
theorem assignedEarly_initializes : ∃ id name e m frame,
    assignedEarly.Does (Session.after []) 5 (.eval (.assign id name e)) m ∧
    m.store.here? frame name.lexeme = none ∧
    assignedEarly.Initializes (Session.after []) 5 (.eval (.assign id name e)) m frame
      name.lexeme := by
  obtain ⟨id, name, e, m, frame, hdoes, he, hhops, hframe, hnone⟩ := assignedEarly_assigns
  obtain ⟨frame', hframe', hbound | ⟨-, hinit⟩⟩ :=
    (locals_come_from_declarations [] assignedEarly).1 4 id name e m _ m 0 hdoes he hhops
  all_goals obtain rfl : frame = frame' := Option.some.inj (hframe.symm.trans hframe')
  · rw [hnone] at hbound
    cases hbound
  · exact ⟨id, name, e, m, frame, hdoes, hnone, hinit⟩

/-- In its own initial value a variable is assigned before it is bound. -/
theorem assignment_may_bind :
    ¬ ∀ (runs : List Run) (r : Run) fuel id name e m v n d,
      r.Does (Session.after runs) (fuel + 1) (.eval (.assign id name e)) m →
      eval r.host fuel e m = .ok v n → n.hops[id]? = some d →
      ∃ frame, n.store.ancestor? d n.current = some frame ∧
        (n.store.here? frame name.lexeme).isSome := by
  intro hall
  obtain ⟨id, name, e, m, frame, hdoes, he, hhops, hframe, hnone⟩ := assignedEarly_assigns
  obtain ⟨frame', hframe', hbound⟩ := hall [] assignedEarly 4 id name e m _ m 0 hdoes he hhops
  obtain rfl : frame = frame' := Option.some.inj (hframe.symm.trans hframe')
  rw [hnone] at hbound
  cases hbound

end Lox
