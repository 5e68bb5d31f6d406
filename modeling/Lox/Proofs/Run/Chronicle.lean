import Lox.Proofs.Grammar.Draws
import Lox.Proofs.Run.Preserved
import Lox.Session

/-!
Sessions with all that happened in them. A chronicle runs source texts as its session does and keeps
the past, from one run to the next.
-/

namespace Lox

namespace Session

variable {tokens : List Token} {s s' : Session}

/-- A program that may be run was read without a fault and settled without one. -/
theorem accept_ok {body : List Stmt} (h : s.accept tokens = (.ok body, s')) :
    ∃ p, Program.ofTokens? tokens s.nextId = some p ∧ p.faults = [] ∧ p.statements = body ∧
      settle p { s with nextId := p.nextId } = ([], s') := by
  rw [accept, read?] at h
  cases hp : Program.ofTokens? tokens s.nextId with
  | none => rw [hp] at h; cases h
  | some p =>
      rw [hp] at h
      simp only [Option.map_some] at h
      cases hf : p.faults with
      | cons f fs => rw [hf] at h; cases h
      | nil =>
          rw [hf] at h
          obtain ⟨fs, hfs⟩ : ∃ fs, settle p { s with nextId := p.nextId } = fs := ⟨_, rfl⟩
          obtain ⟨fs, t⟩ := fs
          simp only [hfs] at h
          cases fs with
          | cons f fs => cases h
          | nil =>
              cases h
              exact ⟨p, rfl, hf, rfl, hfs⟩

/-- A program that is read and settled without a fault may be run. -/
theorem accept_eq {p : Program}
    (hp : Program.ofTokens? tokens s.nextId = some p) (hf : p.faults = [])
    (hs : (Stmt.listFindings false [] p.statements).filterMap Finding.fault? = []) :
    s.accept tokens = (.ok p.statements, (settle p { s with nextId := p.nextId }).2) := by
  rw [accept, read?, hp]
  simp only [Option.map_some, hf, settle, hs]

/-- A program that may not be run has used up its identities, and may have been settled. -/
theorem accept_error {o : Outcome} (h : s.accept tokens = (.error o, s')) :
    (∀ f, o ≠ .failed (.runtime f)) ∧ (s' = s ∨ ∃ p, Program.ofTokens? tokens s.nextId = some p ∧
      (s' = { s with nextId := p.nextId } ∨
        s' = (settle p { s with nextId := p.nextId }).2)) := by
  rw [accept, read?] at h
  cases hp : Program.ofTokens? tokens s.nextId with
  | none => rw [hp] at h; cases h; exact ⟨fun _ h => (by cases h), .inl rfl⟩
  | some p =>
      rw [hp] at h
      simp only [Option.map_some] at h
      cases hf : p.faults with
      | cons f fs =>
          rw [hf] at h
          cases h
          exact ⟨fun _ h => (by cases h), .inr ⟨p, rfl, .inl rfl⟩⟩
      | nil =>
          rw [hf] at h
          obtain ⟨fs, hfs⟩ : ∃ fs, settle p { s with nextId := p.nextId } = fs := ⟨_, rfl⟩
          obtain ⟨fs, t⟩ := fs
          simp only [hfs] at h
          cases fs with
          | cons f fs =>
              cases h
              exact ⟨fun _ h => (by cases h), .inr ⟨p, rfl, .inr (by rw [hfs])⟩⟩
          | nil => cases h

end Session

structure Chronicle where
  session : Session
  past : Past
  /-- The occurrences in the programs that were run. -/
  sites : List Site
  /-- How many programs were run. The place of a program is its number. -/
  programs : Nat

namespace Chronicle

variable (host : Host) (fuel : Nat)

def start : Chronicle := ⟨.start, [], [], 0⟩

/-- The chronicle behind a program that was run up to a tape. -/
def ran (body : List Stmt) (t : Tape) (lastFault : Option RuntimeFault) (c : Chronicle) :
    Chronicle where
  session := { c.session with machine := t.machine, lastFault := lastFault }
  past := t.past
  sites := c.sites ++ Stmt.listSites [] [] [c.programs] 0 body
  programs := c.programs + 1

def interpret (body : List Stmt) (c : Chronicle) : Outcome × Chronicle :=
  match Told.runAll host fuel [c.programs] 0 body ⟨c.session.ready, c.past⟩ with
  | .ok _ t => (.done t.machine.result, c.ran body t none)
  | .error (.fault f) t => (.failed (.runtime f), c.ran body t (some f))
  | .error .outOfFuel t => (.unfinished, c.ran body t none)

def runTokens (tokens : List Token) (c : Chronicle) : Outcome × Chronicle :=
  match c.session.accept tokens with
  | (.error o, s) => (o, { c with session := s })
  | (.ok body, s) => interpret host fuel body { c with session := s }

def run (source : String) (c : Chronicle) : Outcome × Chronicle :=
  let items := Source.items source
  match items.filterMap Source.Item.fault? with
  | f :: fs => (.failed (.lex (f :: fs)), c)
  | [] => c.runTokens host fuel (items.filterMap Source.Item.token?)

theorem session_interpret (body : List Stmt) (c : Chronicle) :
    ((c.interpret host fuel body).1, (c.interpret host fuel body).2.session) =
      c.session.interpret host fuel body := by
  have ht := Told.runAll_tells host fuel [c.programs] 0 body ⟨c.session.ready, c.past⟩
  rw [interpret, Session.interpret]
  cases hr : Told.runAll host fuel [c.programs] 0 body ⟨c.session.ready, c.past⟩ with
  | ok u t =>
      rw [hr] at ht
      simp only [ht, ran]
  | error e t =>
      rw [hr] at ht
      cases e <;> simp only [ht, ran]

/-- A chronicle is one of its session: the past does not change what is done. -/
theorem session_runTokens (tokens : List Token) (c : Chronicle) :
    ((c.runTokens host fuel tokens).1, (c.runTokens host fuel tokens).2.session) =
      c.session.runTokens host fuel tokens := by
  rw [runTokens, Session.runTokens]
  obtain ⟨r, s⟩ := c.session.accept tokens
  cases r with
  | error o => rfl
  | ok body => exact session_interpret host fuel body { c with session := s }

theorem session_run (source : String) (c : Chronicle) :
    ((c.run host fuel source).1, (c.run host fuel source).2.session) =
      c.session.run host fuel source := by
  unfold run Session.run
  cases h : (Source.items source).filterMap Source.Item.fault? with
  | nil => simp only [h, session_runTokens]
  | cons f fs => simp only [h]

/-! ### The invariant of sessions -/

/-- Identities are given once, to occurrences and in the table of hops. -/
structure Valid (c : Chronicle) : Prop where
  tape : Tape.Valid c.sites ⟨c.session.machine, c.past⟩
  distinct : (c.sites.map Site.id).Nodup
  given : ∀ s ∈ c.sites, s.id < c.session.nextId
  fresh : ∀ i, c.session.nextId ≤ i → c.session.machine.hops[i]? = none

theorem valid_start : start.Valid := by
  have hsize : globals < (({} : Store).push none).size := by simp [globals]
  have hhere (f : Nat) (x : String) : Machine.start.store.here? f x =
      if globals = f ∧ clock.name = x then some (.native clock) else none := by
    simp only [Machine.start, Store.here?_define _ hsize, Store.here?_push]
    split
    · rfl
    · simp [Store.here?]
  refine ⟨?_, List.nodup_nil, fun s h => (by cases h), fun i _ => ?_⟩
  · refine ⟨?_, by simp [start, Session.start, Machine.start], fun s h => (by cases h),
      fun s h => (by cases h), fun a e h => (by cases h), fun f e h => (by cases h),
      fun f x v hx => ?_, fun f x hf => ?_, trivial⟩
    · simp [start, Session.start, Machine.start, Store.enclosing?_push, Store.size, globals]
    · have hx := (hhere f x).symm.trans hx
      split at hx
      · cases hx; rfl
      · cases hx
    · apply (hhere f x).trans
      rw [if_neg fun h => hf h.1.symm]
      rfl
  · simp [start, Session.start, Machine.start]

theorem Valid.sub {c : Chronicle} (h : c.Valid) {s : Session} (hm : s.machine = c.session.machine)
    (hn : c.session.nextId ≤ s.nextId) : Valid { c with session := s } := by
  refine ⟨?_, h.distinct, fun r hr => Nat.lt_of_lt_of_le (h.given r hr) hn, fun i hi => ?_⟩
  · simp only [hm]
    exact h.tape
  · simp only [hm]
    exact h.fresh i (Nat.le_trans hn hi)

/-- Recording what was found in a program says nothing new of the programs before. -/
theorem Valid.settle {c : Chronicle} (h : c.Valid) {p : Program}
    (hn : c.session.nextId ≤ p.nextId)
    (hf : Grammar.Fresh c.session.nextId p.nextId (Stmt.listIds p.statements)) :
    Valid { c with session := (Session.settle p { c.session with nextId := p.nextId }).2 } := by
  have hhops (i : Nat) (hi : i < c.session.nextId ∨ p.nextId ≤ i) :
      (c.session.machine.hops.recordAll (Stmt.listFindings false [] p.statements))[i]? =
        c.session.machine.hops[i]? := by
    refine Stmt.recordAll_of_not_mem fun hm => ?_
    have := hf.bounds hm
    omega
  have hv := h.tape
  refine ⟨?_, h.distinct, fun s hs => Nat.lt_of_lt_of_le (h.given s hs) hn, fun i hi => ?_⟩
  · exact { hv with hops := fun s hs => (hhops s.id (.inl (h.given s hs))).trans (hv.hops s hs) }
  · exact (hhops i (.inr hi)).trans (h.fresh i (Nat.le_trans hn hi))

theorem Valid.reject {c : Chronicle} (h : c.Valid) {tokens : List Token} {o : Outcome}
    {s : Session} (ha : c.session.accept tokens = (.error o, s)) : Valid { c with session := s } := by
  rcases (Session.accept_error ha).2 with rfl | ⟨p, hp, rfl | rfl⟩
  · exact h
  · exact h.sub rfl (Grammar.fresh_of_ofTokens? hp).1
  · exact h.settle (Grammar.fresh_of_ofTokens? hp).1 (Grammar.fresh_of_ofTokens? hp).2

/-- The table of hops says of a program that was settled where its occurrences are bound. -/
theorem Valid.recorded {c : Chronicle} (h : c.Valid) {tokens : List Token} {p : Program}
    (hp : Program.ofTokens? tokens c.session.nextId = some p) {path : Path} {r : Site}
    (hr : r ∈ Stmt.listSites [] [] path 0 p.statements) :
    (c.session.machine.hops.recordAll (Stmt.listFindings false [] p.statements))[r.id]? =
      r.depth? := by
  have hfresh := (Grammar.fresh_of_ofTokens? hp).2
  have hid : r.id ∈ Stmt.listIds p.statements :=
    Stmt.map_id_listSites [] [] path 0 p.statements ▸ List.mem_map_of_mem hr
  exact Stmt.recordAll_of_mem hfresh.nodup (h.fresh r.id (hfresh.bounds hid).1) hr

/-- The occurrences of a program that may be run join those of the programs before. -/
theorem Valid.accept {c : Chronicle} (h : c.Valid) {tokens : List Token} {body : List Stmt}
    {s : Session} (ha : c.session.accept tokens = (.ok body, s)) :
    Stmt.ListPlaced body ∧
      Valid { c with
        session := s
        sites := c.sites ++ Stmt.listSites [] [] [c.programs] 0 body } := by
  obtain ⟨p, hp, hfaults, rfl, hs⟩ := Session.accept_ok ha
  obtain ⟨hn, hfresh⟩ := Grammar.fresh_of_ofTokens? hp
  have hold := h.settle hn hfresh
  have hnone : (Stmt.listFindings false [] p.statements).filterMap Finding.fault? = [] :=
    congrArg Prod.fst hs
  obtain rfl : s = (Session.settle p { c.session with nextId := p.nextId }).2 := by rw [hs]
  have hids := Stmt.map_id_listSites [] [] [c.programs] 0 p.statements
  refine ⟨(Grammar.derives_of_ofTokens? hp hfaults).placed, ?_, ?_, ?_, hold.fresh⟩
  · have hv := hold.tape
    exact { hv with
      hops := fun r hr => (List.mem_append.mp hr).elim (hv.hops r) (h.recorded hp)
      sound := fun r hr => (List.mem_append.mp hr).elim (hv.sound r) (Stmt.sound_of_mem hnone)
      values := fun f x v hx => (hv.values f x v hx).sub fun r hr => List.mem_append_left _ hr
      fine := hv.fine.sub fun r hr => List.mem_append_left _ hr }
  · rw [List.map_append, hids]
    refine List.nodup_append.mpr ⟨h.distinct, hfresh.nodup, fun i hi j hj => ?_⟩
    obtain ⟨r, hr, rfl⟩ := List.mem_map.mp hi
    exact Nat.ne_of_lt (Nat.lt_of_lt_of_le (h.given r hr) (hfresh.bounds hj).1)
  · intro r hr
    rcases List.mem_append.mp hr with hr | hr
    · exact hold.given r hr
    · exact (hfresh.bounds (hids ▸ List.mem_map_of_mem hr)).2

/-- A run that ends at an undefined variable has evaluated an occurrence in no scope last. -/
def Blames (past : Past) (o : Outcome) : Prop :=
  ∀ f, o = .failed (.runtime f) → Blamed (.fault f) past

theorem Valid.interpret {c : Chronicle} {body : List Stmt} (hplaced : Stmt.ListPlaced body)
    (h : Valid { c with sites := c.sites ++ Stmt.listSites [] [] [c.programs] 0 body }) :
    (c.interpret host fuel body).2.Valid ∧
      Blames (c.interpret host fuel body).2.past (c.interpret host fuel body).1 := by
  have hready : Tape.Valid (c.sites ++ Stmt.listSites [] [] [c.programs] 0 body)
      ⟨c.session.ready, c.past⟩ := Told.valid_same h.tape ⟨rfl, rfl, rfl⟩
  have hrun := Told.runAll_goes host fuel hready rfl
    (fun r hr => List.mem_append_right _ hr) hplaced
  have hran {t : Tape} (lastFault : Option RuntimeFault)
      (ht : t.Valid (c.sites ++ Stmt.listSites [] [] [c.programs] 0 body))
      (hg : Tape.Grows ⟨c.session.ready, c.past⟩ t) : (c.ran body t lastFault).Valid :=
    ⟨ht, h.distinct, h.given, fun i hi => by
      simp only [ran, hg.hops]
      exact h.fresh i hi⟩
  rw [Told.Goes] at hrun
  rw [Chronicle.interpret]
  cases hr : Told.runAll host fuel [c.programs] 0 body ⟨c.session.ready, c.past⟩ with
  | ok u t =>
      rw [hr] at hrun
      exact ⟨hran none hrun.1 hrun.2.1, fun _ ho => by cases ho⟩
  | error e t =>
      rw [hr] at hrun
      cases e with
      | outOfFuel => exact ⟨hran none hrun.1 hrun.2.1, fun _ ho => by cases ho⟩
      | fault f =>
          refine ⟨hran _ hrun.1 hrun.2.1, fun _ ho => ?_⟩
          cases ho
          exact hrun.2.2

theorem Valid.runTokens {c : Chronicle} (h : c.Valid) (tokens : List Token) :
    (c.runTokens host fuel tokens).2.Valid ∧
      Blames (c.runTokens host fuel tokens).2.past (c.runTokens host fuel tokens).1 := by
  rw [Chronicle.runTokens]
  cases ha : c.session.accept tokens with
  | mk r s =>
  cases r with
  | error o => exact ⟨h.reject ha, fun f hf => absurd hf ((Session.accept_error ha).1 f)⟩
  | ok body =>
      obtain ⟨hplaced, hv⟩ := h.accept ha
      exact Valid.interpret host fuel hplaced hv

theorem Valid.run {c : Chronicle} (h : c.Valid) (source : String) :
    (c.run host fuel source).2.Valid ∧
      Blames (c.run host fuel source).2.past (c.run host fuel source).1 := by
  unfold Chronicle.run
  cases hf : (Source.items source).filterMap Source.Item.fault? with
  | cons f fs => simp only [hf]; exact ⟨h, fun _ ho => by cases ho⟩
  | nil => simp only [hf]; exact h.runTokens host fuel _

end Chronicle

/-! ### Sessions -/

/-- A source text that is run, with what it reaches outside and how long it may go on. -/
structure Run where
  host : Host
  fuel : Nat
  source : String

def Session.after (runs : List Run) : Session :=
  runs.foldl (fun s r => (s.run r.host r.fuel r.source).2) .start

def Chronicle.after (runs : List Run) : Chronicle :=
  runs.foldl (fun c r => (c.run r.host r.fuel r.source).2) .start

namespace Chronicle

theorem after_concat (runs : List Run) (r : Run) :
    after (runs ++ [r]) = ((after runs).run r.host r.fuel r.source).2 := by
  simp [after]

theorem session_after (runs : List Run) : (after runs).session = Session.after runs := by
  have hfoldl (c : Chronicle) :
      (runs.foldl (fun c r => (c.run r.host r.fuel r.source).2) c).session =
        runs.foldl (fun s r => (s.run r.host r.fuel r.source).2) c.session := by
    induction runs generalizing c with
    | nil => rfl
    | cons r runs ih =>
        rw [List.foldl_cons, List.foldl_cons, ih, ← session_run]
  exact hfoldl start

theorem valid_after (runs : List Run) : (after runs).Valid := by
  have hfoldl (c : Chronicle) (h : c.Valid) :
      (runs.foldl (fun c r => (c.run r.host r.fuel r.source).2) c).Valid := by
    induction runs generalizing c with
    | nil => exact h
    | cons r runs ih => exact ih _ (h.run r.host r.fuel r.source).1
  exact hfoldl start valid_start

end Chronicle

end Lox
