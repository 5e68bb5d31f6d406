import Mathlib.Data.List.Nodup
import Lox.Proofs.Run.Chronicle

/-!
What a variable stands for while programs run: which frame an occurrence reaches, and whose value it
reads. Everything is said of the past of any session, whatever runs it is made of and however they
ended.
-/

namespace Lox

namespace Event

def isRead : Event → Bool
  | .read .. => true
  | _ => false

/-- The value that an event gives to some name. -/
def value? : Event → Option Value
  | .bound _ _ v | .assigned _ _ _ v _ => some v
  | _ => none

end Event

/-! ### The past of a valid tape -/

section

variable {T : List Site} {past before : Past} {e : Event} {o : Occurrence} {s : Site}

theorem Past.Fine.of_suffix (h : past.Fine T) (hs : before <:+ past) : before.Fine T := by
  obtain ⟨new, rfl⟩ := hs
  induction new with
  | nil => exact h
  | cons e new ih => exact ih h.2

theorem Past.Fine.event (h : past.Fine T) (hs : e :: before <:+ past) : e.Fine T before :=
  (h.of_suffix hs).1

/-- Activations and functions are known for good, for each of them starts once. -/
theorem Past.Fine.keeps (h : past.Fine T) (hs : before <:+ past) : before.Keeps past := by
  obtain ⟨new, rfl⟩ := hs
  induction new with
  | nil => exact .refl _
  | cons e new ih =>
      apply (ih h.2).trans
      cases e with
      | entered a p origin => exact .entered h.1.2 p origin
      | made f p a => exact .made h.1 p a
      | _ => exact ⟨fun _ _ h => h, fun _ _ h => h⟩

theorem Past.Fine.entry_ne {a : Nat} {r : Path × Origin} (h : past.Fine T)
    (he : past.entered? a = some r) : a ≠ globals := by
  induction past with
  | nil => cases he
  | cons e past ih =>
      cases e with
      | entered b p origin =>
          rw [Past.entered?_entered] at he
          split at he
          · next hb => exact hb ▸ h.1.1
          · exact ih h.2 he
      | _ => exact ih h.2 he

theorem Event.Fine.settles (h : e.Fine T past) (ho : e.occurrence? = some o) :
    ∃ s, o.Settles T past s := by
  cases e with
  | read => cases ho; exact h.1
  | assigned => cases ho; exact h
  | _ => cases ho

end

/-! ### Hops -/

/-- At every moment of a session at which an occurrence of a local variable is evaluated, there are
as many frames around as there were scopes open where it was settled, so the frame it means exists;
and where it is read, that frame binds it. An undefined variable was in no scope. -/
theorem frames_agree_with_scopes (runs : List Run) :
    (Chronicle.after runs).session = Session.after runs ∧
    ((Chronicle.after runs).sites.map Site.id).Nodup ∧
    (∀ (e : Event) (before : Past) o d, e :: before <:+ (Chronicle.after runs).past → e.occurrence? = some o →
      o.hops? = some d → ∃ s ∈ (Chronicle.after runs).sites, s.id = o.id ∧ s.name = o.name ∧
        s.depth? = some d ∧ o.machine.store.enclosing? globals = none ∧
        o.machine.store.ancestor? s.scopes.length o.machine.current = some globals ∧
        ∃ frame, o.machine.store.ancestor? d o.machine.current = some frame ∧
          (e.isRead = true → (o.machine.store.here? frame o.name.lexeme).isSome)) ∧
    ∀ r line x, ((Session.after runs).run r.host r.fuel r.source).1 =
      .failed (.runtime ⟨line, .undefinedVariable x⟩) →
      ∃ e before o, (Chronicle.after (runs ++ [r])).past = e :: before ∧
        e.occurrence? = some o ∧ o.hops? = none ∧ o.name.lexeme = x ∧ o.name.line = line := by
  have hv := Chronicle.valid_after runs
  refine ⟨Chronicle.session_after runs, hv.distinct, ?_, ?_⟩
  · intro e before o d hs ho hd
    have hfine := hv.tape.fine.event hs
    obtain ⟨s, hsettles⟩ := hfine.settles ho
    have hdepth := hsettles.depth.symm.trans hd
    obtain ⟨_, frame, -, hframe, -⟩ := hsettles.leads d hdepth
    refine ⟨s, hsettles.site, hsettles.id, hsettles.name, hdepth, hsettles.root, hsettles.chain,
      frame, hframe, fun hr => ?_⟩
    cases e with
    | read a id name m =>
        cases ho
        obtain ⟨frame', v, hframe', hx, -⟩ := hfine.2 d hd
        have heq : frame' = frame := by
          rw [Occurrence.frame?, Machine.frameOf?] at hframe'
          simp only [Occurrence.hops?] at hd
          rw [hd] at hframe'
          exact Option.some.inj (hframe'.symm.trans hframe)
        rw [← heq, hx]
        rfl
    | _ => cases hr
  · intro r line x hrun
    rw [← Chronicle.session_after, ← Chronicle.session_run] at hrun
    obtain ⟨e, before, o, hpast, he⟩ := (hv.run r.host r.fuel r.source).2 _ hrun line x rfl
    exact ⟨e, before, o, by rw [Chronicle.after_concat, hpast], he⟩

/-! ### Local variables -/

/-- A local variable is the one that a declaration makes in one activation of its scope. A scope
declares a name once, so the declaration is known by scope and name. -/
structure Variable where
  scope : Path
  name : String
  activation : Nat

/-- The local variable that an event is about. That of an occurrence is the one of the scope it is
bound to, in the activation of that scope that is found first on the way outwards. -/
inductive Event.About (T : List Site) (past : Past) : Event → Variable → Prop
  | occurrence {e : Event} {o : Occurrence} {s : Site} {scope : Path} {a : Nat}
      (he : e.occurrence? = some o) (hs : s ∈ T) (hi : s.id = o.id) (hb : s.scope? = some scope)
      (hl : past.Leads scope o.activation a) : About T past e ⟨scope, o.name.lexeme, a⟩
  | bound {a : Nat} {x : String} {v : Value} {scope : Path} {origin : Origin}
      (h : past.entered? a = some (scope, origin)) : About T past (.bound a x v) ⟨scope, x, a⟩

section

variable {T : List Site} {past before : Past} {e : Event} {o : Occurrence} {s : Site} {x : Variable}

theorem Occurrence.Settles.frame? (hs : o.Settles T before s) {d frame : Nat}
    (hd : s.depth? = some d)
    (hf : o.machine.store.ancestor? d o.machine.current = some frame) : o.frame? = some frame := by
  have hd := hs.depth.trans hd
  rw [Occurrence.hops?] at hd
  rw [Occurrence.frame?, Machine.frameOf?, hd]
  exact hf

theorem Occurrence.Settles.frame?_global (hs : o.Settles T before s) (hd : o.hops? = none)
    {frame : Nat} (hf : o.frame? = some frame) : frame = globals := by
  rw [Occurrence.hops?] at hd
  rw [Occurrence.frame?, Machine.frameOf?, hd] at hf
  exact (Store.binder?_globals hs.root hf).1

/-- An occurrence of a local variable is about the one whose frame it reaches. -/
theorem Event.about_iff (hn : (T.map Site.id).Nodup) (ho : e.occurrence? = some o)
    (hs : o.Settles T before s) (hk : before.Keeps past) :
    e.About T past x ↔ o.hops?.isSome ∧ o.frame? = some x.activation ∧ o.name.lexeme = x.name ∧
      ∃ origin, past.entered? x.activation = some (x.scope, origin) := by
  constructor
  · intro h
    cases h with
    | @occurrence _ o' s' scope a he hs' hi hb hl =>
        cases ho.symm.trans he
        obtain rfl := List.inj_on_of_nodup_map hn hs' hs.site (hi.trans hs.id.symm)
        obtain ⟨d, hd, -⟩ := Option.bind_eq_some_iff.mp hb
        obtain ⟨scope', frame, hb', hf, hl'⟩ := hs.leads d hd
        cases hb.symm.trans hb'
        cases hl.unique (hl'.mono hk)
        exact ⟨by rw [hs.depth, hd]; rfl, hs.frame? hd hf, rfl, hl.entry⟩
    | bound => cases ho
  · rintro ⟨hd, hf, hx, origin, he⟩
    obtain ⟨d, hd⟩ := Option.isSome_iff_exists.mp hd
    have hd := hs.depth.symm.trans hd
    obtain ⟨scope, frame, hb, hf', hl⟩ := hs.leads d hd
    cases hf.symm.trans (hs.frame? hd hf')
    obtain ⟨origin', he'⟩ := (hl.mono hk).entry
    cases he.symm.trans he'
    have := Event.About.occurrence ho hs.site hs.id hb (hl.mono hk)
    rwa [hx] at this

/-- The events that give a value to a name in the frame of an activation are about its variable. -/
theorem Event.writes?_iff (hn : (T.map Site.id).Nodup) (hfine : e.Fine T before)
    (hk : before.Keeps past) (hx : x.activation ≠ globals)
    (he : ∃ origin, past.entered? x.activation = some (x.scope, origin)) (v : Value) :
    e.writes? x.activation x.name = some v ↔ e.value? = some v ∧ e.About T past x := by
  obtain ⟨scope, name, a⟩ := x
  cases e with
  | bound b y w =>
      simp only [Event.writes?, Event.value?, Option.ite_none_right_eq_some]
      constructor
      · rintro ⟨⟨rfl, rfl⟩, hw⟩
        obtain ⟨origin, he⟩ := he
        exact ⟨hw, .bound he⟩
      · rintro ⟨hw, h⟩
        cases h with
        | occurrence ho => cases ho
        | bound => exact ⟨⟨rfl, rfl⟩, hw⟩
  | assigned b id y w m =>
      obtain ⟨s, hs⟩ := hfine.settles rfl
      rw [about_iff hn rfl hs hk]
      simp only [Event.writes?, Event.value?, Option.ite_none_right_eq_some]
      constructor
      · rintro ⟨⟨hf, rfl⟩, hw⟩
        refine ⟨hw, ?_, hf, rfl, he⟩
        rw [Option.isSome_iff_ne_none]
        exact fun hd => hx (hs.frame?_global hd hf)
      · rintro ⟨hw, -, hf, rfl, -⟩
        exact ⟨⟨hf, rfl⟩, hw⟩
  | _ => simp [Event.writes?, Event.value?]

end

section

variable {T : List Site} {past before : Past} {e e' : Event} {o o' : Occurrence} {d : Nat}

/-- A read of a local variable gives what was given last to the variable. -/
theorem Past.Fine.reads_last (hn : (T.map Site.id).Nodup) (hfine : Past.Fine T (e :: before))
    (ho : e.occurrence? = some o) (hr : e.isRead = true) (hd : o.hops? = some d) :
    ∃ x v later w earlier, e.About T before x ∧ o.value? = some v ∧
      before = later ++ w :: earlier ∧ w.value? = some v ∧ w.About T before x ∧
      ∀ u ∈ later, u.About T before x → u.value? = none := by
  obtain ⟨s, hs⟩ := hfine.1.settles ho
  have hdepth := hs.depth.symm.trans hd
  obtain ⟨scope, frame, -, hframe, hleads⟩ := hs.leads d hdepth
  have hentry := hleads.entry
  have hlocal : frame ≠ globals := by
    obtain ⟨origin, h⟩ := hentry
    exact hfine.2.entry_ne h
  have hlast : o.ReadsLast before := by
    cases e <;> cases hr
    cases ho
    exact hfine.1.2
  obtain ⟨frame', v, hf, hx, hw⟩ := hlast d hd
  cases hf.symm.trans (hs.frame? hdepth hframe)
  obtain ⟨later, w, earlier, rfl, hwrite, hlater⟩ := List.findSome?_eq_some_iff.mp hw
  have hwrites {u : Event} {rest : Past} (hu : u :: rest <:+ later ++ w :: earlier) (v : Value) :=
    Event.writes?_iff (x := ⟨scope, o.name.lexeme, frame⟩) hn (hfine.2.event hu)
      (hfine.2.keeps ((List.suffix_cons u rest).trans hu)) hlocal hentry v
  refine ⟨⟨scope, o.name.lexeme, frame⟩, v, later, w, earlier, ?_, ?_, rfl, ?_, ?_, ?_⟩
  · exact (Event.about_iff hn ho hs (.refl _)).mpr ⟨by rw [hd]; rfl, hf, rfl, hentry⟩
  · rw [Occurrence.value?, hf]
    exact hx
  · exact ((hwrites ⟨later, rfl⟩ v).mp hwrite).1
  · exact ((hwrites ⟨later, rfl⟩ v).mp hwrite).2
  · intro u hu habout
    obtain ⟨front, back, rfl⟩ := List.append_of_mem hu
    cases hv : u.value? with
    | none => rfl
    | some v' =>
        have hsuffix : u :: (back ++ w :: earlier) <:+ front ++ u :: back ++ w :: earlier :=
          ⟨front, by simp⟩
        have hnone := hlater u hu
        rw [(hwrites hsuffix v').mpr ⟨hv, habout⟩] at hnone
        cases hnone

/-- Two occurrences of local variables reach one name in one frame exactly if they are about one
variable. -/
theorem Past.Fine.same_iff (hn : (T.map Site.id).Nodup) (hfine : past.Fine T) (he : e ∈ past)
    (he' : e' ∈ past) (ho : e.occurrence? = some o) (ho' : e'.occurrence? = some o')
    (hd : o.hops?.isSome) (hd' : o'.hops?.isSome) :
    o.frame? = o'.frame? ∧ o.name.lexeme = o'.name.lexeme ↔
      ∃ x, e.About T past x ∧ e'.About T past x := by
  have hsettles {e : Event} {o : Occurrence} (he : e ∈ past) (ho : e.occurrence? = some o) :
      ∃ before s, before.Keeps past ∧ o.Settles T before s := by
    obtain ⟨front, before, rfl⟩ := List.append_of_mem he
    have hsuffix : e :: before <:+ front ++ e :: before := ⟨front, rfl⟩
    obtain ⟨s, hs⟩ := (hfine.event hsuffix).settles ho
    exact ⟨before, s, hfine.keeps ((List.suffix_cons e before).trans hsuffix), hs⟩
  obtain ⟨before, s, hk, hs⟩ := hsettles he ho
  obtain ⟨before', s', hk', hs'⟩ := hsettles he' ho'
  have habout (x : Variable) := Event.about_iff (x := x) hn ho hs hk
  have habout' (x : Variable) := Event.about_iff (x := x) hn ho' hs' hk'
  constructor
  · rintro ⟨hf, hx⟩
    obtain ⟨d, hd₁⟩ := Option.isSome_iff_exists.mp hd
    have hdepth := hs.depth.symm.trans hd₁
    obtain ⟨scope, frame, -, hframe, hleads⟩ := hs.leads d hdepth
    have hframe := hs.frame? hdepth hframe
    have hentry := (hleads.mono hk).entry
    refine ⟨⟨scope, o.name.lexeme, frame⟩, (habout _).mpr ⟨hd, hframe, rfl, hentry⟩, ?_⟩
    exact (habout' _).mpr ⟨hd', hf ▸ hframe, hx.symm, hentry⟩
  · rintro ⟨x, hx, hx'⟩
    obtain ⟨-, hf, hname, -⟩ := (habout x).mp hx
    obtain ⟨-, hf', hname', -⟩ := (habout' x).mp hx'
    exact ⟨hf.trans hf'.symm, hname.trans hname'.symm⟩

end

/-- Which activation starts with an event. -/
def Event.starts? : Event → Option Nat
  | .entered a _ _ => some a
  | _ => none

theorem Past.Fine.nodup_starts {T : List Site} {past : Past} (h : past.Fine T) :
    (past.filterMap Event.starts?).Nodup := by
  induction past with
  | nil => exact List.nodup_nil
  | cons e past ih =>
      cases e with
      | entered a p origin =>
          refine List.nodup_cons.mpr ⟨fun ha => ?_, ih h.2⟩
          obtain ⟨e, he, hstart⟩ := List.mem_filterMap.mp ha
          cases e <;> cases hstart
          have hnone := List.findSome?_eq_none_iff.mp h.1.2 _ he
          simp at hnone
      | _ => exact ih h.2

/-- Closures capture by reference, one variable for each activation of a scope. The frame that an
occurrence reaches is that of the activation found on the way outwards; what a read gives is what
was given last to the same variable, that is, under the same declaration in the same activation; two
occurrences reach one name in one frame exactly if they are about one variable; and no two
activations have a frame in common. -/
theorem variables_belong_to_activations (runs : List Run) :
    (Chronicle.after runs).session = Session.after runs ∧
    ((Chronicle.after runs).sites.map Site.id).Nodup ∧
    (∀ (e : Event) (before : Past) o d, e :: before <:+ (Chronicle.after runs).past → e.occurrence? = some o →
      o.hops? = some d → ∃ s ∈ (Chronicle.after runs).sites, s.id = o.id ∧
        o.machine.current = o.activation ∧
        (∀ p ∈ s.around.head?, ∃ origin, before.entered? o.activation = some (p, origin)) ∧
        ∃ scope frame, s.scope? = some scope ∧ o.frame? = some frame ∧
          before.Leads scope o.activation frame) ∧
    (∀ (e : Event) (before : Past) o d, e :: before <:+ (Chronicle.after runs).past → e.occurrence? = some o →
      e.isRead = true → o.hops? = some d →
        ∃ x v later w earlier, e.About (Chronicle.after runs).sites before x ∧
          o.value? = some v ∧ before = later ++ w :: earlier ∧ w.value? = some v ∧
          w.About (Chronicle.after runs).sites before x ∧
          ∀ u ∈ later, u.About (Chronicle.after runs).sites before x → u.value? = none) ∧
    (∀ e ∈ (Chronicle.after runs).past, ∀ e' ∈ (Chronicle.after runs).past, ∀ o o',
      e.occurrence? = some o → e'.occurrence? = some o' → o.hops?.isSome → o'.hops?.isSome →
        (o.frame? = o'.frame? ∧ o.name.lexeme = o'.name.lexeme ↔
          ∃ x, e.About (Chronicle.after runs).sites (Chronicle.after runs).past x ∧
            e'.About (Chronicle.after runs).sites (Chronicle.after runs).past x)) ∧
    ((Chronicle.after runs).past.filterMap Event.starts?).Nodup := by
  have hv := Chronicle.valid_after runs
  have hn := hv.distinct
  refine ⟨Chronicle.session_after runs, hn, ?_, ?_, ?_, hv.tape.fine.nodup_starts⟩
  · intro e before o d hs ho hd
    obtain ⟨s, hsettles⟩ := (hv.tape.fine.event hs).settles ho
    have hdepth := hsettles.depth.symm.trans hd
    obtain ⟨scope, frame, hscope, hframe, hleads⟩ := hsettles.leads d hdepth
    exact ⟨s, hsettles.site, hsettles.id, hsettles.current, hsettles.innermost, scope, frame, hscope,
      hsettles.frame? hdepth hframe, hleads⟩
  · intro e before o d hs ho hr hd
    exact Past.Fine.reads_last hn (hv.tape.fine.of_suffix hs) ho hr hd
  · intro e he e' he' o o' ho ho' hd hd'
    exact hv.tape.fine.same_iff hn he he' ho ho' hd hd'

end Lox
