import Lox.Proofs.Run.Valid

/-!
What the single steps of a run do to the invariant.
-/

namespace Lox

namespace Store

variable {st : Store} {f : Nat} {x : String}

/-- Around the global variables there is nothing more to look at. -/
theorem binder?_globals (hr : st.enclosing? globals = none) (h : st.binder? globals x = some f) :
    f = globals ∧ globals < st.size := by
  rw [binder?] at h
  cases hs : st.size with
  | zero => rw [hs] at h; cases h
  | succ n =>
      rw [hs, binder?.go, hr] at h
      split at h
      · cases h; exact ⟨rfl, Nat.succ_pos n⟩
      · cases h

end Store

theorem Lies.length_eq {st : Store} {past : Past} {f : Nat} {ss : Scopes} {ps : List Path}
    (hr : st.enclosing? globals = none) (hc : Covers st f ss) (hl : Lies st past f ps) :
    ps.length = ss.length := by
  induction hc generalizing ps with
  | root =>
      cases hl with
      | root => rfl
      | inside hl => rw [hr] at hl; cases hl
  | inside _ hl' _ ih =>
      cases hl with
      | root => rw [hr] at hl'; cases hl'
      | inside hl _ _ _ h =>
          rw [hl] at hl'
          cases hl'
          rw [List.length_cons, List.length_cons, ih h]

/-- A tape with its machine in another frame. -/
def Tape.moved (t : Tape) (frame : Nat) : Tape :=
  { t with machine := { t.machine with current := frame } }

namespace Told

variable {α : Type} {T : List Site} {t : Tape} {a : Nat} {ss : Scopes} {ps : List Path}
  {Q : α → Tape → Prop}

/-! ### Runs inside runs -/

theorem Goes.within {frame : Nat} {x : Told α} (hx : Goes T (Tape.moved t frame) x Q)
    (hQ : ∀ a t' c, Q a t' → Q a (Tape.moved t' c)) : Goes T t (within frame x) Q := by
  rw [Goes] at hx ⊢
  rw [Told.within]
  unfold Tape.moved at hx hQ
  cases hr : x { t with machine := { t.machine with current := frame } } with
  | error e t' =>
      simp only [hr] at hx ⊢
      exact ⟨valid_same hx.1 ⟨rfl, rfl, rfl⟩, ⟨hx.2.1.store, hx.2.1.past, rfl, hx.2.1.hops⟩, hx.2.2⟩
  | ok a t' =>
      simp only [hr] at hx ⊢
      exact ⟨valid_same hx.1 ⟨rfl, rfl, rfl⟩, ⟨hx.2.1.store, hx.2.1.past, rfl, hx.2.1.hops⟩,
        hQ a t' _ hx.2.2⟩

theorem Goes.asCall {line : Nat} {x : Told α} (hv : t.Valid T)
    (hx : ∀ t', t'.Valid T → t.Grows t' → Goes T t' x Q)
    (hQ : ∀ a t' n, Q a t' → Q a { t' with machine := { t'.machine with callDepth := n } }) :
    Goes T t (asCall line x) Q := by
  rw [Goes, Told.asCall]
  by_cases hd : maxCallDepth ≤ t.machine.callDepth
  · simp only [if_pos hd]
    have h : Goes T t (lift (Lox.raise line .stackOverflow)) Q := Goes.raise hv fun x h => by cases h
    exact h
  · simp only [if_neg hd]
    have h := hx { t with machine := { t.machine with callDepth := t.machine.callDepth + 1 } }
      (valid_same hv ⟨rfl, rfl, rfl⟩) (grows_same ⟨rfl, rfl, rfl⟩ rfl)
    rw [Goes] at h
    cases hr : x { t with machine := { t.machine with callDepth := t.machine.callDepth + 1 } } with
    | error e t' =>
        simp only [hr] at h ⊢
        exact ⟨valid_same h.1 ⟨rfl, rfl, rfl⟩,
          ⟨h.2.1.store, h.2.1.past, h.2.1.current, h.2.1.hops⟩, h.2.2⟩
    | ok a t' =>
        simp only [hr] at h ⊢
        exact ⟨valid_same h.1 ⟨rfl, rfl, rfl⟩, ⟨h.2.1.store, h.2.1.past, h.2.1.current, h.2.1.hops⟩,
          hQ a t' _ h.2.2⟩

/-! ### Reads and assignments -/

/-- What is told of an occurrence changes no activation, no function and, by itself, no name. -/
theorem valid_note {o : Occurrence} {e : Event} (hv : t.Valid T) (he : e.Fine T t.past)
    (ho : e.occurrence? = some o) (hw : ∀ f x, e.writes? f x = none) :
    Tape.Valid T { t with past := e :: t.past } := by
  have hentry (b : Nat) : Past.entered? (e :: t.past) b = t.past.entered? b := by cases e <;> trivial
  have hmaker (f : Nat) : Past.maker? (e :: t.past) f = t.past.maker? f := by cases e <;> trivial
  have hk : t.past.Keeps (e :: t.past) :=
    ⟨fun b r hr => by rw [hentry, hr], fun f r hr => by rw [hmaker, hr]⟩
  exact { hv with
    entered := fun b r hr => hv.entered b r (by rwa [hentry] at hr)
    made := fun f r hr => hv.made f r (by rwa [hmaker] at hr)
    values := fun f x v hx => (hv.values f x v hx).mono (.refl _) hk
    written := fun f x hf => by rw [Past.written?_cons, hw, Option.none_or]; exact hv.written f x hf
    fine := ⟨he, hv.fine⟩ }

theorem grows_note (t : Tape) {e : Event} {o : Occurrence} (ho : e.occurrence? = some o) :
    t.Grows { t with past := e :: t.past } := by
  cases e with
  | read | assigned => exact ⟨.refl _, ⟨fun _ _ hr => hr, fun _ _ hr => hr⟩, rfl, rfl⟩
  | _ => cases ho

theorem settles_of_at {s : Site} (hv : t.Valid T) (hat : t.At a s.scopes s.around) (hs : s ∈ T) :
    Occurrence.Settles T t.past ⟨a, s.id, s.name, t.machine⟩ s := by
  obtain rfl := hat.current
  refine ⟨hs, rfl, rfl, hv.hops s hs, rfl, fun p hp => hat.lies.innermost hp, hv.root,
    hat.covers.ancestor?_length, fun d hd => ?_⟩
  have hlt : d < s.around.length := by
    rw [Lies.length_eq hv.root hat.covers hat.lies]
    exact Scopes.depth?_lt hd
  have hscope : s.around[d]? = some s.around[d] := List.getElem?_eq_getElem hlt
  obtain ⟨frame, hframe, hleads⟩ := hat.lies.leads hscope
  refine ⟨s.around[d], frame, ?_, hframe, hleads⟩
  rw [Site.scope?, hd]
  exact hscope

/-- A local variable that is read is bound: what its scope has declared only is not read. -/
theorem bound_of_at {s : Site} {d : Nat} (hv : t.Valid T) (hat : t.At a s.scopes s.around)
    (ht : Scopes.Settled s.scopes.tail) (hs : s ∈ T) (hr : s.reads = true)
    (hd : t.machine.hops[s.id]? = some d) :
    ∃ frame v, t.machine.frameOf? s.id s.name.lexeme = some frame ∧
      t.machine.store.here? frame s.name.lexeme = some v ∧
      t.past.written? frame s.name.lexeme = some v := by
  obtain rfl := hat.current
  have hdepth : s.depth? = some d := (hv.hops s hs).symm.trans hd
  obtain ⟨frame, hframe, hbound⟩ := hat.covers.bound ht hdepth (hv.sound s hs hr)
  obtain ⟨v, hx⟩ := Option.isSome_iff_exists.mp hbound
  obtain ⟨_, g, -, hg, hleads⟩ := (settles_of_at hv hat hs).leads d hdepth
  cases hg.symm.trans hframe
  obtain ⟨o, ho⟩ := hleads.entry
  refine ⟨frame, v, ?_, hx, ?_⟩
  · rw [Machine.frameOf?, hd]
    exact hframe
  · rw [← hv.written frame _ (hv.entered frame _ ho).1]
    exact hx

theorem Goes.read {s : Site} (hv : t.Valid T) (hat : t.At a s.scopes s.around)
    (ht : Scopes.Settled s.scopes.tail) (hs : s ∈ T) (hr : s.reads = true) :
    Goes T t (read a s.id s.name) fun v t' => v.Fits T t'.machine.store t'.past := by
  have hfine : Event.Fine T t.past (.read a s.id s.name t.machine) :=
    ⟨⟨s, settles_of_at hv hat hs⟩, fun d hd => bound_of_at hv hat ht hs hr hd⟩
  have hv' := valid_note hv hfine rfl fun _ _ => rfl
  have hg := grows_note t (e := .read a s.id s.name t.machine) rfl
  rw [Goes, Told.read]
  simp only [Bind.bind, EStateM.bind, note, tell, lift, readVariable]
  cases hx : (t.machine.frameOf? s.id s.name.lexeme).bind
      (t.machine.store.here? · s.name.lexeme) with
  | some v =>
      obtain ⟨frame, -, hframe⟩ := Option.bind_eq_some_iff.mp hx
      exact ⟨hv', hg, hv'.values _ _ _ hframe⟩
  | none =>
      refine ⟨hv', hg, fun line x he => ?_⟩
      cases he
      refine ⟨_, _, _, rfl, rfl, ?_, rfl, rfl⟩
      cases hd : t.machine.hops[s.id]? with
      | none => exact hd
      | some d =>
          obtain ⟨frame, v, hf, hb, -⟩ := bound_of_at hv hat ht hs hr hd
          rw [hf, Option.bind_some, hb] at hx
          cases hx

/-! ### Names that get values -/

theorem valid_define {e : Event} {frame : Nat} {x : String} {v : Value} (hv : t.Valid T)
    (hf : frame < t.machine.store.size)
    (hfit : v.Fits T (t.machine.store.define frame x v) (e :: t.past)) (he : e.Fine T t.past)
    (hentry : ∀ b, Past.entered? (e :: t.past) b = t.past.entered? b)
    (hmaker : ∀ f, Past.maker? (e :: t.past) f = t.past.maker? f)
    (hw : ∀ f y, f ≠ globals → (t.machine.store.define frame x v).here? f y =
      Past.written? (e :: t.past) f y) :
    Tape.Valid T ⟨{ t.machine with store := t.machine.store.define frame x v }, e :: t.past⟩ ∧
      t.Grows ⟨{ t.machine with store := t.machine.store.define frame x v }, e :: t.past⟩ := by
  have hgrow := Store.Grows.define t.machine.store frame x v
  have hk : t.past.Keeps (e :: t.past) :=
    ⟨fun b r hr => by rw [hentry, hr], fun f r hr => by rw [hmaker, hr]⟩
  refine ⟨?_, hgrow, hk, rfl, rfl⟩
  exact { hv with
    root := by rw [Store.enclosing?_define]; exact hv.root
    size := by rw [Store.size_define]; exact hv.size
    entered := fun b r hr => by
      rw [Store.size_define]
      exact hv.entered b r (by rwa [hentry] at hr)
    made := fun f r hr => hv.made f r (by rwa [hmaker] at hr)
    values := fun f y w hx => by
      rw [Store.here?_define _ hf] at hx
      split at hx
      · cases hx
        exact hfit
      · exact (hv.values f y w hx).mono hgrow hk
    written := hw
    fine := ⟨he, hv.fine⟩ }

theorem Goes.define (hv : t.Valid T) (hat : t.At a ss ps) (name : Token) {v : Value}
    (hfit : v.Fits T t.machine.store t.past) :
    Goes T t (define a name.lexeme v) fun _ t' =>
      t'.At a ((ss.declare name).define name) ps := by
  obtain rfl := hat.current
  have ha := hat.covers.lt_size hv.size
  have hk : t.past.Keeps (.bound t.machine.current name.lexeme v :: t.past) :=
    ⟨fun _ _ h => h, fun _ _ h => h⟩
  obtain ⟨hv', hg⟩ := valid_define hv ha (hfit.mono (.define ..) hk) trivial
    (fun _ => rfl) (fun _ => rfl) fun f y hf =>
      Past.written?_bound ha name.lexeme v (hv.written f y hf)
  exact ⟨hv', hg, hat.covers.define hv.size name v, hat.lies.mono hg.store hg.past, rfl⟩

theorem Goes.assign {s : Site} {v : Value} (hv : t.Valid T) (hat : t.At a s.scopes s.around)
    (hs : s ∈ T) (hfit : v.Fits T t.machine.store t.past) :
    Goes T t (assign a s.id s.name v) fun _ _ => True := by
  have hsettles := settles_of_at hv hat hs
  have hfine : Occurrence.Fine T t.past ⟨a, s.id, s.name, t.machine⟩ := ⟨s, hsettles⟩
  rw [Goes, Told.assign]
  simp only [Bind.bind, EStateM.bind, note, tell, lift, assignVariable]
  cases hx : t.machine.frameOf? s.id s.name.lexeme with
  | some frame =>
      have hframe : frame < t.machine.store.size := by
        rw [Machine.frameOf?] at hx
        cases hd : t.machine.hops[s.id]? with
        | none =>
            rw [hd] at hx
            obtain ⟨rfl, h⟩ := Store.binder?_globals hv.root hx
            exact h
        | some d =>
            rw [hd] at hx
            obtain ⟨_, g, -, hg, hleads⟩ := hsettles.leads d (hsettles.depth.symm.trans hd)
            obtain ⟨o, ho⟩ := hleads.entry
            cases hx.symm.trans hg
            exact (hv.entered frame _ ho).2
      have hk : t.past.Keeps (.assigned a s.id s.name v t.machine :: t.past) :=
        ⟨fun _ _ h => h, fun _ _ h => h⟩
      obtain ⟨hv', hg⟩ := valid_define hv hframe (hfit.mono (.define ..) hk) hfine (fun _ => rfl)
        (fun _ => rfl) fun f y hf => Past.written?_assigned hframe v hx (hv.written f y hf)
      exact ⟨hv', hg, trivial⟩
  | none =>
      have hw (f : Nat) (y : String) :
          Event.writes? f y (.assigned a s.id s.name v t.machine) = none := by
        simp [Event.writes?, hx]
      refine ⟨valid_note hv hfine rfl hw, grows_note t rfl, fun line x he => ?_⟩
      cases he
      refine ⟨_, _, _, rfl, rfl, ?_, rfl, rfl⟩
      cases hd : t.machine.hops[s.id]? with
      | none => exact hd
      | some d =>
          obtain ⟨_, g, -, hg, -⟩ := hsettles.leads d (hsettles.depth.symm.trans hd)
          rw [Machine.frameOf?, hd] at hx
          cases hx.symm.trans hg

theorem Goes.declare {path : Path} {decl : Function} (hv : t.Valid T) (hat : t.At a ss ps)
    (hss : ss.Settled) (hp : ∀ q ∈ ps, q.length < path.length)
    (hs : ∀ s ∈ Stmt.functionSites ((ss.declare decl.name).define decl.name) ps path decl, s ∈ T)
    (hplaced : Stmt.FunctionPlaced decl) :
    Goes T t (declare a path decl) fun _ t' =>
      t'.At a ((ss.declare decl.name).define decl.name) ps := by
  obtain rfl := hat.current
  have hnew : t.past.maker? t.machine.nextClosure = none := by
    cases hm : t.past.maker? t.machine.nextClosure with
    | none => rfl
    | some e => exact absurd (hv.made _ e hm) (Nat.lt_irrefl _)
  have hk := Past.Keeps.made hnew path t.machine.current
  -- The function is made first and bound to its name then.
  let made : Tape := ⟨{ t.machine with nextClosure := t.machine.nextClosure + 1 },
    .made t.machine.nextClosure path t.machine.current :: t.past⟩
  have hmade : made.Valid T := { hv with
    made := fun f r hr => by
      rw [Past.maker?_made] at hr
      split at hr
      · next h => exact h ▸ Nat.lt_succ_self _
      · exact Nat.lt_succ_of_lt (hv.made f r hr)
    values := fun f x v hx => (hv.values f x v hx).mono (.refl _) hk
    written := fun f x hf => by
      rw [Past.written?_cons]
      exact hv.written f x hf
    fine := ⟨hnew, hv.fine⟩ }
  have hgrow : t.Grows made := ⟨.refl _, hk, rfl, rfl⟩
  have ha := hat.covers.lt_size hv.size
  let c : Closure := ⟨t.machine.nextClosure, decl, t.machine.current⟩
  have hc : Covers (made.machine.store.define t.machine.current decl.name.lexeme (.closure c))
      t.machine.current ((ss.declare decl.name).define decl.name) :=
    hat.covers.define hv.size decl.name (.closure c)
  have hk' : made.past.Keeps (.bound t.machine.current decl.name.lexeme (.closure c) :: made.past) :=
    ⟨fun _ _ h => h, fun _ _ h => h⟩
  have hlies := (hat.mono hgrow).lies.mono
    (Store.Grows.define made.machine.store t.machine.current decl.name.lexeme (.closure c)) hk'
  have hstands := Closure.Stands.mk (c := c) hc (hss.define decl.name) hlies hp
    (hk'.maker _ _ (by simp [made, c])) hs hplaced
  have hfit : Value.Fits T (made.machine.store.define t.machine.current decl.name.lexeme (.closure c))
      (.bound t.machine.current decl.name.lexeme (.closure c) :: made.past) (.closure c) :=
    ⟨_, _, _, hstands⟩
  obtain ⟨hv', hg⟩ := valid_define hmade ha hfit trivial (fun _ => rfl)
    (fun _ => rfl) fun f y hf =>
      Past.written?_bound ha decl.name.lexeme (.closure c) (hmade.written f y hf)
  exact ⟨hv', hgrow.trans hg, hc, hlies, rfl⟩

/-! ### Activations -/

theorem valid_bindParams (params : List Token) {frame : Nat} {vs : List Value} (hv : t.Valid T)
    (hf : frame < t.machine.store.size) (hvs : ∀ v ∈ vs, v.Fits T t.machine.store t.past) :
    let t' : Tape := ⟨{ t.machine with store := t.machine.store.bindParams frame params vs },
      t.past.bindParams frame params vs⟩
    t'.Valid T ∧ t.Grows t' := by
  induction params generalizing t vs with
  | nil => exact ⟨hv, .refl t⟩
  | cons p params ih =>
      cases vs with
      | nil => exact ⟨hv, .refl t⟩
      | cons v vs =>
          have hk : t.past.Keeps (.bound frame p.lexeme v :: t.past) :=
            ⟨fun _ _ h => h, fun _ _ h => h⟩
          have hstore := Store.Grows.define t.machine.store frame p.lexeme v
          obtain ⟨hv', hg⟩ := valid_define hv hf ((hvs v List.mem_cons_self).mono hstore hk) trivial
            (fun _ => rfl) (fun _ => rfl) fun f y hf' =>
              Past.written?_bound hf p.lexeme v (hv.written f y hf')
          obtain ⟨hv'', hg'⟩ := ih hv' (by simpa using hf) fun w hw =>
            (hvs w (List.mem_cons_of_mem _ hw)).mono hstore hk
          exact ⟨hv'', hg.trans hg'⟩

theorem valid_push {g : Nat} {p : Path} {o : Origin} (hv : t.Valid T) :
    let frame := t.machine.store.size
    let t' : Tape := ⟨{ t.machine with store := t.machine.store.push (some g) },
      .entered frame p o :: t.past⟩
    t'.Valid T ∧ t.Grows t' := by
  have hnew : t.past.entered? t.machine.store.size = none := by
    cases he : t.past.entered? t.machine.store.size with
    | none => rfl
    | some e => exact absurd (hv.entered _ e he).2 (Nat.lt_irrefl _)
  have hk := Past.Keeps.entered hnew p o
  have hgrow := Store.Grows.push t.machine.store (some g)
  have hne : t.machine.store.size ≠ globals := Nat.ne_of_gt hv.size
  refine ⟨?_, hgrow, hk, rfl, rfl⟩
  exact { hv with
    root := by rw [Store.enclosing?_push, if_neg (Ne.symm hne)]; exact hv.root
    size := by simp
    entered := fun b r hr => by
      rw [Past.entered?_entered] at hr
      rw [Store.size_push]
      split at hr
      · next h => subst h; exact ⟨hne, Nat.lt_succ_self _⟩
      · exact ⟨(hv.entered b r hr).1, Nat.lt_succ_of_lt (hv.entered b r hr).2⟩
    values := fun f x v hx => by
      rw [Store.here?_push] at hx
      exact (hv.values f x v hx).mono hgrow hk
    written := fun f x hf => by
      rw [Store.here?_push, Past.written?_cons]
      exact hv.written f x hf
    fine := ⟨⟨hne, hnew⟩, hv.fine⟩ }

theorem Goes.enterBlock {path : Path} (hv : t.Valid T) (hat : t.At a ss ps)
    (hp : ∀ q ∈ ps, q.length < path.length) :
    Goes T t (enterBlock a path) fun frame t' =>
      Covers t'.machine.store frame ([] :: ss) ∧
        Lies t'.machine.store t'.past frame (path :: ps) := by
  obtain rfl := hat.current
  obtain ⟨hv', hg⟩ := valid_push (g := t.machine.current) (p := path)
    (o := .block t.machine.current) hv
  refine ⟨hv', hg, hat.covers.push, ?_⟩
  have he : Past.entered? (.entered t.machine.store.size path (.block t.machine.current) :: t.past)
      t.machine.store.size = some (path, .block t.machine.current) := by simp
  exact .inside (by rw [Store.enclosing?_push, if_pos rfl]) he (.block he) hp
    (hat.lies.mono hg.store hg.past)

theorem Goes.enterCall {c : Closure} {p : Path} {args : List Value} (hv : t.Valid T)
    (hc : c.Stands T t.machine.store t.past ss ps p)
    (hargs : ∀ v ∈ args, v.Fits T t.machine.store t.past) (hl : c.decl.params.length = args.length) :
    Goes T t (enterCall c args) fun out t' =>
      out.1 = p ∧ Covers t'.machine.store out.2 (Scopes.bindParams ([] :: ss) c.decl.params) ∧
        Lies t'.machine.store t'.past out.2 (p :: ps) := by
  obtain ⟨hv', hg⟩ := valid_push (g := c.frame) (p := p) (o := .call c.id) hv
  have hframe : t.machine.store.size < (t.machine.store.push (some c.frame)).size := by simp
  obtain ⟨hv'', hg'⟩ := valid_bindParams c.decl.params hv' hframe
    fun v hv => (hargs v hv).mono hg.store hg.past
  have he : Past.entered? (.entered t.machine.store.size p (.call c.id) :: t.past)
      t.machine.store.size = some (p, .call c.id) := by simp
  have hlies : Lies (t.machine.store.push (some c.frame))
      (.entered t.machine.store.size p (.call c.id) :: t.past) t.machine.store.size (p :: ps) :=
    .inside (by rw [Store.enclosing?_push, if_pos rfl]) he (.call he (hg.past.maker _ _ hc.made))
      hc.inner (hc.lies.mono hg.store hg.past)
  have hcovers := hc.covers.push.bindParams (by simp) hl
  rw [Goes, Told.enterCall]
  simp only [Bind.bind, EStateM.bind, scopeOf, hc.made, lift, openCall, tell]
  refine ⟨?_, ?_, rfl, hcovers, hlies.mono hg'.store hg'.past⟩
  · exact valid_same hv'' ⟨rfl, rfl, rfl⟩
  · exact (hg.trans hg').trans (grows_same ⟨rfl, rfl, rfl⟩ rfl)

end Told

end Lox
