import Lox.Proofs.Run.History
import Lox.Proofs.Scope.Recorded

/-!
The invariant of runs. Every function that a program can get hold of stands in frames that cover the
scopes of its declaration and lie inside one another as its activations do. Everything that happened
in the past happened as the occurrences of the programs run so far, `T`, were settled.
-/

namespace Lox

/-- An occurrence is the given one of `T`. There are as many frames around it as scopes were open
where it was settled, and the frame it reaches is that of the activation of the scope it is bound
to. -/
structure Occurrence.Settles (T : List Site) (past : Past) (o : Occurrence) (s : Site) : Prop where
  site : s ∈ T
  id : s.id = o.id
  name : s.name = o.name
  depth : o.hops? = s.depth?
  current : o.machine.current = o.activation
  innermost : ∀ p ∈ s.around.head?, ∃ origin, past.entered? o.activation = some (p, origin)
  root : o.machine.store.enclosing? globals = none
  chain : o.machine.store.ancestor? s.scopes.length o.machine.current = some globals
  leads : ∀ d, s.depth? = some d → ∃ scope frame, s.scope? = some scope ∧
    o.machine.store.ancestor? d o.machine.current = some frame ∧
    past.Leads scope o.activation frame

def Occurrence.Fine (T : List Site) (past : Past) (o : Occurrence) : Prop := ∃ s, o.Settles T past s

/-- A local variable that is read is bound, and was given its value last. -/
def Occurrence.ReadsLast (past : Past) (o : Occurrence) : Prop :=
  ∀ d, o.hops? = some d → ∃ frame v, o.frame? = some frame ∧
    o.machine.store.here? frame o.name.lexeme = some v ∧
    past.written? frame o.name.lexeme = some v

def Event.Fine (T : List Site) (past : Past) : Event → Prop
  | .entered a _ _ => a ≠ globals ∧ past.entered? a = none
  | .made f _ _ => past.maker? f = none
  | .bound .. => True
  | .read a id name m =>
    Occurrence.Fine T past ⟨a, id, name, m⟩ ∧ Occurrence.ReadsLast past ⟨a, id, name, m⟩
  | .assigned a id name _ m => Occurrence.Fine T past ⟨a, id, name, m⟩

def Past.Fine (T : List Site) : Past → Prop
  | [] => True
  | e :: past => e.Fine T past ∧ Past.Fine T past

/-- A function stands in the frames of the scopes `ss` at the places `ps`, and is that at `p`. -/
structure Closure.Stands (T : List Site) (st : Store) (past : Past) (c : Closure) (ss : Scopes)
    (ps : List Path) (p : Path) : Prop where
  covers : Covers st c.frame ss
  settled : ss.Settled
  lies : Lies st past c.frame ps
  inner : ∀ q ∈ ps, q.length < p.length
  made : past.maker? c.id = some (p, c.frame)
  sites : ∀ s ∈ Stmt.functionSites ss ps p c.decl, s ∈ T
  placed : Stmt.FunctionPlaced c.decl

/-- The values that a program can get hold of. -/
def Value.Fits (T : List Site) (st : Store) (past : Past) : Value → Prop
  | .closure c => ∃ ss ps p, c.Stands T st past ss ps p
  | .native n => n = clock
  | _ => True

structure Tape.Valid (T : List Site) (t : Tape) : Prop where
  root : t.machine.store.enclosing? globals = none
  size : 0 < t.machine.store.size
  hops : ∀ s ∈ T, t.machine.hops[s.id]? = s.depth?
  sound : ∀ s ∈ T, s.Sound
  entered : ∀ a e, t.past.entered? a = some e → a ≠ globals ∧ a < t.machine.store.size
  made : ∀ f e, t.past.maker? f = some e → f < t.machine.nextClosure
  values : ∀ f x v, t.machine.store.here? f x = some v → v.Fits T t.machine.store t.past
  written : ∀ f x, f ≠ globals → t.machine.store.here? f x = t.past.written? f x
  fine : t.past.Fine T

structure Tape.Grows (t t' : Tape) : Prop where
  store : t.machine.store.Grows t'.machine.store
  past : t.past.Keeps t'.past
  current : t'.machine.current = t.machine.current
  hops : t'.machine.hops = t.machine.hops

theorem Tape.Grows.refl (t : Tape) : t.Grows t := ⟨.refl _, .refl _, rfl, rfl⟩

theorem Tape.Grows.trans {t t' t'' : Tape} (h : t.Grows t') (h' : t'.Grows t'') : t.Grows t'' :=
  ⟨h.store.trans h'.store, h.past.trans h'.past, h'.current.trans h.current, h'.hops.trans h.hops⟩

section

variable {T : List Site} {st st' : Store} {past past' : Past} {v : Value}

theorem Value.Fits.mono (h : v.Fits T st past) (hg : st.Grows st') (hk : past.Keeps past') :
    v.Fits T st' past' := by
  cases v with
  | closure c =>
      obtain ⟨ss, ps, p, h⟩ := h
      exact ⟨ss, ps, p, { h with
        covers := h.covers.mono hg, lies := h.lies.mono hg hk, made := hk.maker _ _ h.made }⟩
  | native n => exact h
  | _ => trivial

theorem Value.Fits.sub {T' : List Site} (h : v.Fits T st past) (hT : ∀ s ∈ T, s ∈ T') :
    v.Fits T' st past := by
  cases v with
  | closure c =>
      obtain ⟨ss, ps, p, h⟩ := h
      exact ⟨ss, ps, p, { h with sites := fun s hs => hT s (h.sites s hs) }⟩
  | native n => exact h
  | _ => trivial

theorem Event.Fine.sub {T' : List Site} {e : Event} (h : e.Fine T past) (hT : ∀ s ∈ T, s ∈ T') :
    e.Fine T' past := by
  have hsub {o : Occurrence} (ho : o.Fine T past) : o.Fine T' past := by
    obtain ⟨s, hs⟩ := ho
    exact ⟨s, { hs with site := hT s hs.site }⟩
  cases e with
  | read => exact ⟨hsub h.1, h.2⟩
  | assigned => exact hsub h
  | _ => exact h

theorem Past.Fine.sub {T' : List Site} (h : past.Fine T) (hT : ∀ s ∈ T, s ∈ T') : past.Fine T' := by
  induction past with
  | nil => trivial
  | cons e past ih => exact ⟨h.1.sub hT, ih h.2⟩

end

/-! ### What a place in a program may rely on -/

/-- The activation runs in the frames of the scopes `ss` at the places `ps`. -/
structure Tape.At (t : Tape) (a : Nat) (ss : Scopes) (ps : List Path) : Prop where
  covers : Covers t.machine.store a ss
  lies : Lies t.machine.store t.past a ps
  current : t.machine.current = a

theorem Tape.At.mono {t t' : Tape} {a : Nat} {ss : Scopes} {ps : List Path} (h : t.At a ss ps)
    (hg : t.Grows t') : t'.At a ss ps :=
  ⟨h.covers.mono hg.store, h.lies.mono hg.store hg.past, hg.current.trans h.current⟩

/-- A fault of an undefined variable comes of the last event, an occurrence that is in no scope. -/
def Blamed (e : Stop) (past : Past) : Prop :=
  ∀ line x, e = .fault ⟨line, .undefinedVariable x⟩ → ∃ event before o, past = event :: before ∧
    event.occurrence? = some o ∧ o.hops? = none ∧ o.name.lexeme = x ∧ o.name.line = line

namespace Told

variable {α β : Type} {T : List Site} {t : Tape} {x : Told α} {Q : α → Tape → Prop}

/-- The run keeps the invariant, and what it comes to has the property `Q`. -/
def Goes (T : List Site) (t : Tape) (x : Told α) (Q : α → Tape → Prop) : Prop :=
  match x t with
  | .ok a t' => t'.Valid T ∧ t.Grows t' ∧ Q a t'
  | .error e t' => t'.Valid T ∧ t.Grows t' ∧ Blamed e t'.past

theorem Goes.mono {Q' : α → Tape → Prop} (h : Goes T t x Q)
    (hi : ∀ a t', t.Grows t' → Q a t' → Q' a t') : Goes T t x Q' := by
  rw [Goes] at h ⊢
  cases hx : x t with
  | error e t' => rw [hx] at h; exact h
  | ok a t' => rw [hx] at h; exact ⟨h.1, h.2.1, hi a t' h.2.1 h.2.2⟩

theorem Goes.pure {a : α} (hv : t.Valid T) (h : Q a t) : Goes T t (pure a) Q := ⟨hv, .refl t, h⟩

theorem Goes.bind {f : α → Told β} {R : β → Tape → Prop} (hx : Goes T t x Q)
    (hf : ∀ a t', t'.Valid T → t.Grows t' → Q a t' → Goes T t' (f a) R) :
    Goes T t (x >>= f) R := by
  rw [Goes] at hx ⊢
  simp only [Bind.bind, EStateM.bind]
  cases hr : x t with
  | error e t' => rw [hr] at hx; exact hx
  | ok a t' =>
      rw [hr] at hx
      have h := hf a t' hx.1 hx.2.1 hx.2.2
      rw [Goes] at h
      simp only
      cases hs : f a t' with
      | error e t'' => rw [hs] at h; exact ⟨h.1, hx.2.1.trans h.2.1, h.2.2⟩
      | ok b t'' => rw [hs] at h; exact ⟨h.1, hx.2.1.trans h.2.1, h.2.2⟩

theorem Goes.outOfFuel (hv : t.Valid T) : Goes T t (throw .outOfFuel : Told α) Q :=
  ⟨hv, .refl t, fun _ _ h => by cases h⟩

/-! ### Steps that leave variables alone -/

/-- Machines with the same variables. -/
structure Same (m m' : Machine) : Prop where
  store : m'.store = m.store
  hops : m'.hops = m.hops
  nextClosure : m'.nextClosure = m.nextClosure

theorem valid_same {m : Machine} (hv : t.Valid T) (h : Same t.machine m) :
    Tape.Valid T { t with machine := m } where
  root := by rw [h.store]; exact hv.root
  size := by rw [h.store]; exact hv.size
  hops := by rw [h.hops]; exact hv.hops
  sound := hv.sound
  entered := by rw [h.store]; exact hv.entered
  made := by rw [h.nextClosure]; exact hv.made
  values := by rw [h.store]; exact hv.values
  written := by rw [h.store]; exact hv.written
  fine := hv.fine

theorem grows_same {m : Machine} (h : Same t.machine m) (hc : m.current = t.machine.current) :
    t.Grows { t with machine := m } :=
  ⟨by rw [h.store]; exact .refl _, .refl _, hc, h.hops⟩

theorem Goes.see (hv : t.Valid T) (v : Value) : Goes T t (lift (see v)) fun _ _ => True :=
  ⟨valid_same hv ⟨rfl, rfl, rfl⟩, grows_same ⟨rfl, rfl, rfl⟩ rfl, trivial⟩

theorem Goes.printLine (hv : t.Valid T) (v : Value) :
    Goes T t (lift (printLine v)) fun _ _ => True :=
  ⟨valid_same hv ⟨rfl, rfl, rfl⟩, grows_same ⟨rfl, rfl, rfl⟩ rfl, trivial⟩

theorem Goes.raise {line : Nat} {cause : RuntimeCause} (hv : t.Valid T)
    (hc : ∀ x, cause ≠ .undefinedVariable x) : Goes T t (lift (raise line cause)) Q := by
  refine ⟨hv, .refl t, fun _ x h => ?_⟩
  cases h
  exact absurd rfl (hc x)

theorem Goes.orRaise {r : Except RuntimeFault α} (hv : t.Valid T) (hok : ∀ a, r = .ok a → Q a t)
    (hc : ∀ f x, r = .error f → f.cause ≠ .undefinedVariable x) :
    Goes T t (lift (orRaise r)) Q := by
  cases r with
  | ok a => exact ⟨hv, .refl t, hok a rfl⟩
  | error f =>
      refine ⟨hv, .refl t, fun _ x h => ?_⟩
      cases h
      exact absurd rfl (hc _ x rfl)

end Told

end Lox
