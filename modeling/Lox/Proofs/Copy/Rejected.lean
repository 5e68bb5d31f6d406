import Lox.Proofs.Copy.Visits

/-!
A program that is turned down before it is run leaves no trace. It uses up identities, and the table
of hops may tell of them, but they are those of no program that is run, before or later.
-/

namespace Lox

/-- Another session with the same history: only identities that are new in the first one are used up
in the second one, and its table of hops tells of no others. -/
structure Session.Overlooks (s s' : Session) : Prop where
  same : s' = { s with
    nextId := s'.nextId
    machine := { s.machine with hops := s'.machine.hops } }
  grows : s.nextId ≤ s'.nextId
  hops : ∀ i, i < s.nextId ∨ s'.nextId ≤ i → s'.machine.hops[i]? = s.machine.hops[i]?

namespace Session

variable {s s' : Session} {tokens : List Token}

theorem Overlooks.refl (s : Session) : s.Overlooks s := ⟨rfl, Nat.le_refl _, fun _ _ => rfl⟩

theorem overlooks_of_accept {o : Outcome} (h : s.accept tokens = (.error o, s')) :
    s.Overlooks s' := by
  obtain ⟨-, rfl | ⟨p, hp, rfl | rfl⟩⟩ := accept_error h
  · exact .refl _
  · exact ⟨rfl, (Grammar.fresh_of_ofTokens? hp).1, fun _ _ => rfl⟩
  · obtain ⟨hle, hfresh⟩ := Grammar.fresh_of_ofTokens? hp
    refine ⟨rfl, hle, fun i hi => Stmt.recordAll_of_not_mem fun hmem => ?_⟩
    have hb := hfresh.bounds hmem
    have hi : i < s.nextId ∨ p.nextId ≤ i := hi
    omega

/-- A run that fails before the program is run. -/
theorem overlooks_of_run {host : Host} {fuel : Nat} {source : String} {f : Failure}
    (h : s.run host fuel source = (.failed f, s')) (hf : f.stage ≠ .runtime) :
    s.Overlooks s' := by
  unfold run runTokens at h
  dsimp only at h
  split at h
  · cases h
    exact .refl s
  · split at h
    · next ha => cases h; exact overlooks_of_accept ha
    · next body t ha =>
      unfold interpret at h
      split at h <;> cases h
      exact absurd rfl hf

/-- A session that is its own copy is copied by one that overlooks nothing else. -/
theorem Copy.overlook {k : Copying} (h : s.Copy k s) (ho : s.Overlooks s') : s.Copy k s' := by
  have hmachine : s'.machine = { s.machine with hops := s'.machine.hops } :=
    congrArg Session.machine ho.same
  refine {
    machine := ?_
    lastFault := (congrArg Session.lastFault ho.same).trans h.lastFault
    unique := h.unique
    below := fun hij => ⟨(h.below hij).1, Nat.lt_of_lt_of_le (h.below hij).2 ho.grows⟩
    fresh := h.fresh
    fresh' := fun j hj => ?_ }
  · rw [hmachine]
    refine h.machine.retell (.refl k) fun i j hij => ?_
    rw [ho.hops j (.inl (h.below hij).2), h.machine.hops i j hij]
  · rw [ho.hops j (.inr hj), h.fresh j (Nat.le_trans ho.grows hj)]

end Session

/-- A program that fails before it is run changes nothing but the table of hops and the next
identity: no line is printed, and the store, the value seen last and the fault of the program run last
are as they were. Whatever a caller does afterwards, everything he sees is what he would have seen
without it, up to the identities in the functions he is given. -/
theorem rejected_program_leaves_no_trace (before : List Step) {host : Host} {fuel : Nat}
    {source : String} {f : Failure} {s : Session}
    (h : (Visit.after before).session.run host fuel source = (.failed f, s))
    (hf : f.stage ≠ .runtime) :
    (∃ hops nextId, s = { (Visit.after before).session with
      nextId := nextId
      machine := { (Visit.after before).session.machine with hops := hops } }) ∧
    ∀ later, Visit.sights later ⟨s, (Visit.after before).given⟩ =
      Visit.sights later (Visit.after before) := by
  have ho := Session.overlooks_of_run h hf
  refine ⟨⟨_, _, ho.same⟩, fun later => ?_⟩
  obtain ⟨same, hv⟩ := Visit.Copy.after before
  have hcopy : Visit.Copy same (Visit.after before) ⟨s, (Visit.after before).given⟩ :=
    ⟨hv.session.overlook ho, hv.given⟩
  exact hcopy.sights later

/-- A function is declared, and then a program is turned down that has been settled. -/
def beforeRejected : List Step := [.run .still 20 "fun f(a) \x7breturn a;\x7d"]

def rejectedSource : String := "\x7bvar a = true; print a;\x7d return;"

theorem rejectedSource_leaves_no_trace :
    ∃ s, (Visit.after beforeRejected).session.run .still 20 rejectedSource =
        (.failed (.resolve [⟨1, .returnOutside⟩]), s) ∧
      (Visit.after beforeRejected).session.machine.hops[1]? = none ∧
      s.machine.hops[1]? = some 0 ∧
      ∀ later, Visit.sights later ⟨s, (Visit.after beforeRejected).given⟩ =
        Visit.sights later (Visit.after beforeRejected) := by
  have ho : ((Visit.after beforeRejected).session.run .still 20 rejectedSource).1 =
      .failed (.resolve [⟨1, .returnOutside⟩]) := by decide +kernel
  have hrun := Prod.ext (y := (_, _)) ho rfl
  refine ⟨_, hrun, by decide +kernel, by decide +kernel, ?_⟩
  exact (rejected_program_leaves_no_trace beforeRejected hrun (by decide)).2

end Lox
