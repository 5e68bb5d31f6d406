import Lox.Proofs.Scope.Site

/-!
What the table of hops says of the occurrences whose findings were recorded in it.
-/

namespace Lox

theorem Hops.recordAll_append (t : Hops) (fs gs : List Finding) :
    t.recordAll (fs ++ gs) = (t.recordAll fs).recordAll gs := List.foldl_append

/-- Only the findings on occurrences are recorded. -/
theorem Hops.recordAll_filter (t : Hops) (fs : List Finding) :
    t.recordAll fs = t.recordAll (fs.filter Finding.ofOccurrence) := by
  induction fs generalizing t with
  | nil => rfl
  | cons f fs ih =>
      rw [List.filter_cons]
      split
      · exact ih (f.record t)
      · cases f with
        | settled => contradiction
        | fault => exact ih t

namespace Site

theorem recordAll_findings (t : Hops) (s : Site) : t.recordAll s.findings = s.settled.record t := by
  rw [findings, readFault]
  split
  · split <;> rfl
  · rfl

theorem getElem?_record (t : Hops) (s : Site) (i : Nat) :
    (s.settled.record t)[i]? = if s.id = i then s.depth?.or t[i]? else t[i]? := by
  rw [settled, settle, depth?]
  cases hd : s.scopes.depth? s.name with
  | none => simp [Finding.record]
  | some d =>
      simp only [Finding.record, Std.TreeMap.getElem?_insert, Nat.compare_eq_eq, Option.some_or]

theorem recordAll_of_not_mem {t : Hops} {sites : List Site} {i : Nat}
    (h : i ∉ sites.map Site.id) : (t.recordAll (sites.flatMap Site.findings))[i]? = t[i]? := by
  induction sites generalizing t with
  | nil => rfl
  | cons s sites ih =>
      rw [List.map_cons, List.mem_cons, not_or] at h
      rw [List.flatMap_cons, Hops.recordAll_append, recordAll_findings, ih h.2, getElem?_record,
        if_neg (Ne.symm h.1)]

/-- An identity that is in no two sites is recorded as the one site says. -/
theorem recordAll_of_mem {t : Hops} {sites : List Site} {s : Site} (hs : s ∈ sites)
    (hn : (sites.map Site.id).Nodup) (ht : t[s.id]? = none) :
    (t.recordAll (sites.flatMap Site.findings))[s.id]? = s.depth? := by
  induction sites generalizing t with
  | nil => cases hs
  | cons r sites ih =>
      rw [List.map_cons, List.nodup_cons] at hn
      rw [List.flatMap_cons, Hops.recordAll_append, recordAll_findings]
      cases hs with
      | head =>
          rw [recordAll_of_not_mem hn.1, getElem?_record, if_pos rfl, ht, Option.or_none]
      | tail _ hs =>
          apply ih hs hn.2
          have hne : r.id ≠ s.id := fun he => hn.1 (he ▸ List.mem_map_of_mem hs)
          rw [getElem?_record, if_neg hne, ht]

/-- The name of a read is defined unless its scope is not the innermost one. -/
def Sound (s : Site) : Prop := s.reads = true → s.scopes.here? s.name ≠ some .declared

theorem sound_of_findings {s : Site} {fs : List Finding} (hf : fs.filterMap Finding.fault? = [])
    (hs : ∀ f ∈ s.findings, f ∈ fs) : s.Sound := by
  intro hr hd
  have hmem : Finding.fault ⟨s.name.line, .ownInitializer s.name.lexeme⟩ ∈ fs := by
    apply hs _
    simp [findings, hr, readFault, hd]
  have := List.filterMap_eq_nil_iff.mp hf _ hmem
  cases this

end Site

theorem Stmt.recordAll_of_not_mem {t : Hops} {body : List Stmt} {i : Nat}
    (hi : i ∉ Stmt.listIds body) :
    (t.recordAll (Stmt.listFindings false [] body))[i]? = t[i]? := by
  rw [Hops.recordAll_filter, Stmt.filter_listFindings false [] [] [] 0 body]
  exact Site.recordAll_of_not_mem (Stmt.map_id_listSites [] [] [] 0 body ▸ hi)

/-- What a program leaves in the table of hops. -/
theorem Stmt.recordAll_of_mem {t : Hops} {body : List Stmt} {path : Path} {s : Site}
    (hn : (Stmt.listIds body).Nodup) (ht : t[s.id]? = none)
    (hs : s ∈ Stmt.listSites [] [] path 0 body) :
    (t.recordAll (Stmt.listFindings false [] body))[s.id]? = s.depth? := by
  rw [Hops.recordAll_filter, Stmt.filter_listFindings false [] [] path 0 body]
  exact Site.recordAll_of_mem hs (Stmt.map_id_listSites [] [] path 0 body ▸ hn) ht

theorem Stmt.sound_of_mem {body : List Stmt} {path : Path} {s : Site}
    (hf : (Stmt.listFindings false [] body).filterMap Finding.fault? = [])
    (hs : s ∈ Stmt.listSites [] [] path 0 body) : s.Sound := by
  refine Site.sound_of_findings hf fun f hf' => ?_
  have hmem := List.mem_flatMap.mpr ⟨s, hs, hf'⟩
  rw [← Stmt.filter_listFindings false [] [] path 0 body] at hmem
  exact (List.mem_filter.mp hmem).1

end Lox
