import Lox.Proofs.Copy.Findings
import Lox.Proofs.Copy.Form
import Lox.Proofs.Copy.Reading
import Lox.Proofs.Copy.Run
import Lox.Proofs.Grammar.Draws
import Lox.Session

/-!
Copies of sessions. Whatever is done to a session and to a copy of it comes to the same, up to the
lines of the copy, and leaves a session and a copy of it.
-/

namespace Lox

variable {k : Copying}

def Failure.relined (f : Nat → Nat) : Failure → Failure
  | .lex fs => .lex (fs.map (Fault.relined f))
  | .parse fs => .parse (fs.map (Fault.relined f))
  | .resolve fs => .resolve (fs.map (Fault.relined f))
  | .runtime e => .runtime (e.relined f)

def Outcome.relined (f : Nat → Nat) : Outcome → Outcome
  | .failed e => .failed (e.relined f)
  | o => o

/-- The machine is a copy, and identities that were given out correspond one to one. Those still to
be given out are not in the table of hops. -/
structure Session.Copy (k : Copying) (s s' : Session) : Prop where
  machine : s.machine.Copy k s'.machine
  lastFault : s'.lastFault = s.lastFault.map (Fault.relined k.line)
  unique : ∀ {i j i' j'}, k.same i j → k.same i' j' → (i = i' ↔ j = j')
  below : ∀ {i j}, k.same i j → i < s.nextId ∧ j < s'.nextId
  fresh : ∀ i, s.nextId ≤ i → s.machine.hops[i]? = none
  fresh' : ∀ j, s'.nextId ≤ j → s'.machine.hops[j]? = none

/-- The occurrences in the program bear identities of their own, which the session has not given
out. -/
structure Program.NewTo (p : Program) (s : Session) : Prop where
  above : s.nextId ≤ p.nextId
  fresh : Grammar.Fresh s.nextId p.nextId (Stmt.listIds p.statements)

theorem Program.newTo_of_ofTokens? {p : Program} {s : Session} {tokens : List Token}
    (h : Program.ofTokens? tokens s.nextId = some p) : p.NewTo s :=
  ⟨(Grammar.fresh_of_ofTokens? h).1, (Grammar.fresh_of_ofTokens? h).2⟩

/-- A program as statements that may be run, or how it fails before it is. -/
def Session.receive (p : Program) (s : Session) : Except Outcome (List Stmt) × Session :=
  match p.faults with
  | f :: fs => (.error (.failed (.parse (f :: fs))), { s with nextId := p.nextId })
  | [] =>
    match Session.settle p { s with nextId := p.nextId } with
    | (f :: fs, s) => (.error (.failed (.resolve (f :: fs))), s)
    | ([], s) => (.ok p.statements, s)

theorem Session.accept_eq_receive {p : Program} {s : Session} {tokens : List Token}
    (h : Program.ofTokens? tokens s.nextId = some p) : s.accept tokens = s.receive p := by
  rw [Session.accept, Session.read?, h]
  rfl

/-- Runs that end alike, in a session and its copy. -/
structure RunsAlike (k : Copying) (r r' : Outcome × Session) : Prop where
  outcome : r'.1 = r.1.relined k.line
  session : r.2.Copy k r'.2

/-- Programs that are copies are accepted both, or turned down with the same outcome. -/
inductive AcceptsAlike (k : Copying) :
    Except Outcome (List Stmt) × Session → Except Outcome (List Stmt) × Session → Prop
  | ok {body body' : List Stmt} {s s' : Session} (hb : Stmt.ListCopy k body body')
      (h : s.Copy k s') : AcceptsAlike k (.ok body, s) (.ok body', s')
  | error {o : Outcome} {s s' : Session} (h : s.Copy k s') :
      AcceptsAlike k (.error o, s) (.error (o.relined k.line), s')

/-- Machines with other tables of hops are copies as far as the tables tell the same. -/
theorem Machine.Copy.retell {k' : Copying} {m m' : Machine} {t t' : Hops} (h : m.Copy k m')
    (hk : k.Sub k') (ht : ∀ i j, k'.same i j → t'[j]? = t[i]?) :
    Machine.Copy k' { m with hops := t } { m' with hops := t' } where
  store := h.store.mono hk
  hops := ht
  current := h.current
  callDepth := h.callDepth
  printed := h.printed
  last := Value.Copy.lift hk h.last
  nextClosure := h.nextClosure
  steps := h.steps

namespace Session.Copy

variable {s s' : Session} {p p' : Program} {tokens : List Token}

theorem tells (h : s.Copy k s') : k.Tells s.machine.hops s'.machine.hops :=
  ⟨h.unique, h.machine.hops⟩

theorem ready (h : s.Copy k s') : s.ready.Copy k s'.ready :=
  { h.machine with current := rfl, callDepth := rfl }

/-- New identities may correspond. -/
theorem tells_extend (h : s.Copy k s') {us us' : List Nat} (hu : us.Nodup) (hu' : us'.Nodup)
    (hus : ∀ i ∈ us, s.nextId ≤ i) (hus' : ∀ j ∈ us', s'.nextId ≤ j) :
    (k.extend us us').Tells s.machine.hops s'.machine.hops := by
  refine h.tells.extend hu hu' (fun i hi => ⟨h.fresh i (hus i hi), fun j hij => ?_⟩)
    fun j hj => ⟨h.fresh' j (hus' j hj), fun i hij => ?_⟩
  · exact Nat.not_lt.mpr (hus i hi) (h.below hij).1
  · exact Nat.not_lt.mpr (hus' j hj) (h.below hij).2

/-- Identities may be left out. -/
theorem skip (h : s.Copy k s') {n n' : Nat} (hn : s.nextId ≤ n) (hn' : s'.nextId ≤ n') :
    Session.Copy k { s with nextId := n } { s' with nextId := n' } where
  machine := h.machine
  lastFault := h.lastFault
  unique := h.unique
  below hij := ⟨Nat.lt_of_lt_of_le (h.below hij).1 hn, Nat.lt_of_lt_of_le (h.below hij).2 hn'⟩
  fresh i hi := h.fresh i (Nat.le_trans hn hi)
  fresh' j hj := h.fresh' j (Nat.le_trans hn' hj)

/-- The same is recorded of new identities. -/
theorem record (h : s.Copy k s') {us us' : List Nat} {n n' : Nat} {fs fs' : List Finding}
    (hn : s.nextId ≤ n) (hn' : s'.nextId ≤ n') (hu : us.Nodup) (hu' : us'.Nodup)
    (hus : ∀ i ∈ us, s.nextId ≤ i ∧ i < n) (hus' : ∀ j ∈ us', s'.nextId ≤ j ∧ j < n')
    (hf : FindingsCopy (k.extend us us') fs fs')
    (hfresh : ∀ i, n ≤ i → (s.machine.hops.recordAll fs)[i]? = s.machine.hops[i]?)
    (hfresh' : ∀ j, n' ≤ j → (s'.machine.hops.recordAll fs')[j]? = s'.machine.hops[j]?) :
    Session.Copy (k.extend us us') (recordAll fs { s with nextId := n })
      (recordAll fs' { s' with nextId := n' }) := by
  have htells := h.tells_extend hu hu' (fun i hi => (hus i hi).1) fun j hj => (hus' j hj).1
  refine {
    machine := h.machine.retell (k.sub_extend us us') (htells.recordAll hf).hops
    lastFault := h.lastFault
    unique := htells.unique
    below := fun hij => ?_
    fresh := fun i hi => (hfresh i hi).trans (h.fresh i (Nat.le_trans hn hi))
    fresh' := fun j hj => (hfresh' j hj).trans (h.fresh' j (Nat.le_trans hn' hj)) }
  rcases hij with hij | hij
  · exact (h.skip hn hn').below hij
  · obtain ⟨hi, hj⟩ := List.of_mem_zip hij
    exact ⟨(hus _ hi).2, (hus' _ hj).2⟩

/-! ### Running programs -/

/-- Programs that are copies may be settled with identities that correspond. -/
theorem settle (h : s.Copy k s') (hp : p.NewTo s) (hp' : p'.NewTo s')
    (hb : Stmt.ListCopy (.anyhow k.line) p.statements p'.statements) :
    ∃ k', k.Sub k' ∧ Stmt.ListCopy k' p.statements p'.statements ∧
      (Session.settle p' { s' with nextId := p'.nextId }).1 =
        (Session.settle p { s with nextId := p.nextId }).1.map (Fault.relined k.line) ∧
      Session.Copy k' (Session.settle p { s with nextId := p.nextId }).2
        (Session.settle p' { s' with nextId := p'.nextId }).2 := by
  obtain ⟨hle, hfresh⟩ := hp
  obtain ⟨hle', hfresh'⟩ := hp'
  have hbody := hb.restrict
    (S := (k.extend (Stmt.listIds p.statements) (Stmt.listIds p'.statements)).same)
    fun q hq => .inr hq
  have hfind := Stmt.ListCopy.findings false [] hbody
  refine ⟨_, k.sub_extend _ _, hbody, hfind.faults, ?_⟩
  refine h.record hle hle' hfresh.nodup hfresh'.nodup (fun i hi => hfresh.bounds hi)
    (fun j hj => hfresh'.bounds hj) hfind (fun i hi => ?_) fun j hj => ?_
  · exact Stmt.recordAll_of_not_mem fun hmem => by have := (hfresh.bounds hmem).2; omega
  · exact Stmt.recordAll_of_not_mem fun hmem => by have := (hfresh'.bounds hmem).2; omega

/-- Programs that are copies are let in both, or turned down with the same outcome. -/
theorem receive (h : s.Copy k s') (hp : p.NewTo s) (hp' : p'.NewTo s') (hcopy : p.Copy k.line p') :
    ∃ k', k.Sub k' ∧ AcceptsAlike k' (s.receive p) (s'.receive p') := by
  unfold Session.receive
  rw [hcopy.faults]
  cases p.faults with
  | cons f fs =>
      exact ⟨k, .refl k, .error (o := .failed (.parse (f :: fs))) (h.skip hp.above hp'.above)⟩
  | nil =>
      obtain ⟨k', hk, hb, hfaults, hs⟩ := h.settle hp hp' hcopy.statements
      refine ⟨k', hk, ?_⟩
      simp only [List.map_nil]
      rw [← hk.line] at hfaults
      generalize Session.settle p { s with nextId := p.nextId } = r,
        Session.settle p' { s' with nextId := p'.nextId } = r' at hfaults hs ⊢
      obtain ⟨fs, t⟩ := r
      obtain ⟨fs', t'⟩ := r'
      obtain rfl : fs' = fs.map (Fault.relined k'.line) := hfaults
      cases fs with
      | nil => exact .ok hb hs
      | cons f fs => exact .error (o := .failed (.resolve (f :: fs))) hs

theorem accept (h : s.Copy k s') (ht : tokens ≠ []) : ∃ k', k.Sub k' ∧
    AcceptsAlike k' (s.accept tokens) (s'.accept (tokens.map (Token.relined k.line))) := by
  have hread := Program.ofTokens?_relined k.line ht s.nextId s'.nextId
  cases hp : Program.ofTokens? tokens s.nextId with
  | none =>
      rw [hp] at hread
      cases hp' : Program.ofTokens? (tokens.map (Token.relined k.line)) s'.nextId <;>
        rw [hp'] at hread <;> cases hread
      rw [Session.accept, Session.accept, Session.read?, Session.read?, hp, hp']
      exact ⟨k, .refl k, .error (o := .unfinished) h⟩
  | some p =>
      rw [hp] at hread
      cases hp' : Program.ofTokens? (tokens.map (Token.relined k.line)) s'.nextId <;>
        rw [hp'] at hread <;> cases hread
      next p' hcopy =>
      rw [Session.accept_eq_receive hp, Session.accept_eq_receive hp']
      exact h.receive (Program.newTo_of_ofTokens? hp) (Program.newTo_of_ofTokens? hp') hcopy

/-- What a run of copies leaves of sessions that are copies. -/
theorem kept (h : s.Copy k s') {n n' : Machine} (hc : n.Copy k n')
    (hn : n.hops = s.machine.hops) (hn' : n'.hops = s'.machine.hops)
    (e : Option RuntimeFault) :
    Session.Copy k ⟨n, s.nextId, e⟩ ⟨n', s'.nextId, e.map (Fault.relined k.line)⟩ where
  machine := hc
  lastFault := rfl
  unique := h.unique
  below := h.below
  fresh := by rw [hn]; exact h.fresh
  fresh' := by rw [hn']; exact h.fresh'

theorem interpret (host : Host) (fuel : Nat) (h : s.Copy k s') {body body' : List Stmt}
    (hb : Stmt.ListCopy k body body') :
    RunsAlike k (s.interpret host fuel body) (s'.interpret host fuel body') := by
  have hrun := Repeats.runAll host fuel hb _ _ h.ready
  unfold Session.interpret
  generalize runAll host fuel body s.ready = r, runAll host fuel body' s'.ready = r' at hrun ⊢
  cases hrun with
  | ok _ hc hk hk' =>
      exact ⟨congrArg Outcome.done hc.result, h.kept hc hk.hops hk'.hops none⟩
  | @error e n n' hc hk hk' =>
      cases e with
      | fault f => exact ⟨rfl, h.kept hc hk.hops hk'.hops (some f)⟩
      | outOfFuel => exact ⟨rfl, h.kept hc hk.hops hk'.hops none⟩

theorem runTokens (host : Host) (fuel : Nat) (h : s.Copy k s') (ht : tokens ≠ []) :
    ∃ k', k.Sub k' ∧ RunsAlike k' (s.runTokens host fuel tokens)
      (s'.runTokens host fuel (tokens.map (Token.relined k.line))) := by
  obtain ⟨k', hk, haccept⟩ := h.accept ht
  refine ⟨k', hk, ?_⟩
  unfold Session.runTokens
  generalize s.accept tokens = r, s'.accept (tokens.map (Token.relined k.line)) = r' at haccept ⊢
  cases haccept with
  | ok hb h => exact h.interpret host fuel hb
  | error h => exact ⟨rfl, h⟩

end Session.Copy

/-! ### Evaluations and calls by hand -/

/-- Answers that are the same, up to the lines of the copy. -/
inductive Session.Answer.Copy (k : Copying) : Session.Answer → Session.Answer → Prop
  | value {v v' : Value} (h : v.Copy k v') : Session.Answer.Copy k (.value v) (.value v')
  | fault (f : RuntimeFault) : Session.Answer.Copy k (.fault f) (.fault (f.relined k.line))
  | unfinished : Session.Answer.Copy k .unfinished .unfinished

theorem Session.Copy.perform {s s' : Session} (h : s.Copy k s') {act act' : Eval Value}
    (ha : Repeats k (Value.Copy k) act act') :
    (s.perform act).1.Copy k (s'.perform act').1 ∧
      (s.perform act).2.Copy k (s'.perform act').2 := by
  have hrun := ha _ _ h.machine
  unfold Session.perform
  rw [h.lastFault]
  generalize act s.machine = r, act' s'.machine = r' at hrun ⊢
  cases hrun with
  | ok hv hc hk hk' => exact ⟨.value hv, h.kept hc hk.hops hk'.hops _⟩
  | @error e n n' hc hk hk' =>
      cases e with
      | fault f => exact ⟨.fault f, h.kept hc hk.hops hk'.hops _⟩
      | outOfFuel => exact ⟨.unfinished, h.kept hc hk.hops hk'.hops _⟩

end Lox
