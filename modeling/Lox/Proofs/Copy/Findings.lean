import Mathlib.Data.List.Forall2
import Mathlib.Data.List.Nodup
import Lox.Proofs.Copy.Tree
import Lox.Proofs.Scope.Recorded

/-!
What is found in copies, and what the tables of hops say of them. Scopes know names only, so a copy
stands in the scopes of the original.
-/

namespace Lox

variable {k : Copying}

/-- The second thing found is the first one, in a copy. -/
inductive Finding.Copy (k : Copying) : Finding → Finding → Prop
  | settled {i j : Nat} (name : String) (depth : Option Nat) (h : k.same i j) :
      Finding.Copy k (.settled i name depth) (.settled j name depth)
  | fault (f : Fault ScopeCause) : Finding.Copy k (.fault f) (.fault (f.relined k.line))

abbrev FindingsCopy (k : Copying) : List Finding → List Finding → Prop :=
  List.Forall₂ (Finding.Copy k)

theorem FindingsCopy.append {us us' vs vs' : List Finding} (hu : FindingsCopy k us us')
    (hv : FindingsCopy k vs vs') : FindingsCopy k (us ++ vs) (us' ++ vs') := List.rel_append hu hv

/-- The faults of a copy are those of the original at the lines of the copy. -/
theorem FindingsCopy.faults {fs fs' : List Finding} (h : FindingsCopy k fs fs') :
    fs'.filterMap Finding.fault? = (fs.filterMap Finding.fault?).map (Fault.relined k.line) := by
  induction h with
  | nil => rfl
  | cons hf _ ih =>
      cases hf with
      | settled => exact ih
      | fault f => exact congrArg (f.relined k.line :: ·) ih

/-! ### Scopes around copies -/

/-- A copy declares what the original declares. -/
theorem Stmt.Copy.after {s s' : Stmt} (ss : Scopes) (h : s.Copy k s') :
    ss.after s' = ss.after s := by
  cases h with
  | function hf =>
      cases hf
      rfl
  | conditional _ hy => exact hy.after ss
  | alternative _ hy hn => rw [Scopes.after, Scopes.after, hy.after, hn.after]
  | whileLoop _ hb => exact hb.after ss
  | _ => rfl

theorem Scopes.bindParams_relined (f : Nat → Nat) (ss : Scopes) (ps : List Token) :
    ss.bindParams (ps.map (Token.relined f)) = ss.bindParams ps := by
  induction ps generalizing ss with
  | nil => rfl
  | cons p ps ih => exact ih _

theorem declareFault_copy (ss : Scopes) (name : Token) :
    FindingsCopy k (declareFault ss name) (declareFault ss (name.relined k.line)) := by
  unfold declareFault
  rw [show ss.here? (name.relined k.line) = ss.here? name from rfl]
  split
  · exact .cons (.fault _) .nil
  · exact .nil

theorem readFault_copy (ss : Scopes) (name : Token) :
    FindingsCopy k (readFault ss name) (readFault ss (name.relined k.line)) := by
  unfold readFault
  rw [show ss.here? (name.relined k.line) = ss.here? name from rfl]
  split
  · exact .cons (.fault _) .nil
  · exact .nil

theorem returnFault_copy (inFunction : Bool) (keyword : Token) :
    FindingsCopy k (returnFault inFunction keyword)
      (returnFault inFunction (keyword.relined k.line)) := by
  unfold returnFault
  split
  · exact .nil
  · exact .cons (.fault _) .nil

theorem settle_copy (ss : Scopes) {i j : Nat} (name : Token) (h : k.same i j) :
    FindingsCopy k [settle ss i name] [settle ss j (name.relined k.line)] :=
  .cons (.settled _ _ h) .nil

theorem paramFindings_copy (ss : Scopes) (ps : List Token) :
    FindingsCopy k (paramFindings ss ps) (paramFindings ss (ps.map (Token.relined k.line))) := by
  induction ps generalizing ss with
  | nil => exact .nil
  | cons p ps ih => exact (declareFault_copy ss p).append (ih _)

/-! ### Findings in copies -/

mutual

theorem Expr.Copy.findings {e e' : Expr} (ss : Scopes) :
    e.Copy k e' → FindingsCopy k (e.findings ss) (e'.findings ss)
  | .literal _ => .nil
  | .grouping he | .unary _ he => he.findings ss
  | .binary _ hl hr | .logical _ hl hr => (hl.findings ss).append (hr.findings ss)
  | .read name hid => (readFault_copy ss name).append (settle_copy ss name hid)
  | .assign name hid he => (he.findings ss).append (settle_copy ss name hid)
  | .call _ hc ha => (hc.findings ss).append (ha.findings ss)

theorem Expr.ListCopy.findings {es es' : List Expr} (ss : Scopes) :
    Expr.ListCopy k es es' → FindingsCopy k (Expr.listFindings ss es) (Expr.listFindings ss es')
  | .nil => .nil
  | .cons he hes => (he.findings ss).append (hes.findings ss)

end

mutual

/-- What is found in a copy is what is found in the original. -/
theorem Stmt.Copy.findings {s s' : Stmt} (inFunction : Bool) (ss : Scopes) :
    s.Copy k s' → FindingsCopy k (s.findings inFunction ss) (s'.findings inFunction ss)
  | .expression he | .print he => he.findings ss
  | .declared name => declareFault_copy ss name
  | .initialized name he => (declareFault_copy ss name).append (he.findings _)
  | .block hb => hb.findings inFunction _
  | .conditional hc hy => (hc.findings ss).append (hy.findings inFunction ss)
  | .alternative hc hy hn => by
      rw [Stmt.findings, Stmt.findings, hy.after ss]
      exact ((hc.findings ss).append (hy.findings inFunction ss)).append (hn.findings inFunction _)
  | .whileLoop hc hb => (hc.findings ss).append (hb.findings inFunction ss)
  | .function (.intro name params hb) =>
      (declareFault_copy ss name).append (Stmt.FunctionCopy.findings _ (.intro name params hb))
  | .returning keyword => returnFault_copy inFunction keyword
  | .returningValue keyword he => (returnFault_copy inFunction keyword).append (he.findings ss)
  | .classDecl name hm => (declareFault_copy ss name).append (hm.findings _)

theorem Stmt.ListCopy.findings {ss ss' : List Stmt} (inFunction : Bool) (scopes : Scopes) :
    Stmt.ListCopy k ss ss' → FindingsCopy k (Stmt.listFindings inFunction scopes ss)
      (Stmt.listFindings inFunction scopes ss')
  | .nil => .nil
  | .cons hs hss => by
      rw [Stmt.listFindings, Stmt.listFindings, hs.after scopes]
      exact (hs.findings inFunction scopes).append (hss.findings inFunction _)

theorem Stmt.FunctionCopy.findings {f f' : Function} (ss : Scopes) : Stmt.FunctionCopy k f f' →
    FindingsCopy k (Stmt.functionFindings ss f) (Stmt.functionFindings ss f')
  | .intro _ params hb => by
      rw [Stmt.functionFindings, Stmt.functionFindings, Scopes.bindParams_relined]
      exact (paramFindings_copy _ params).append (hb.findings true _)

theorem Stmt.MethodsCopy.findings {fs fs' : List Function} (ss : Scopes) :
    Stmt.MethodsCopy k fs fs' →
      FindingsCopy k (Stmt.methodFindings ss fs) (Stmt.methodFindings ss fs')
  | .nil => .nil
  | .cons hf hfs => (hf.findings ss).append (hfs.findings ss)

end

/-! ### Tables of hops -/

/-- Identities correspond one to one, and what one table says of an identity, the other says of the
corresponding one. -/
structure Copying.Tells (k : Copying) (t t' : Hops) : Prop where
  unique : ∀ {i j i' j'}, k.same i j → k.same i' j' → (i = i' ↔ j = j')
  hops : ∀ i j, k.same i j → t'[j]? = t[i]?

/-- More identities that correspond. -/
def Copying.extend (k : Copying) (us us' : List Nat) : Copying :=
  ⟨fun i j => k.same i j ∨ (i, j) ∈ us.zip us', k.line⟩

theorem Copying.sub_extend (k : Copying) (us us' : List Nat) : k.Sub (k.extend us us') :=
  ⟨fun _ _ h => .inl h, rfl⟩

/-- Entries of lists without repetition correspond one to one. -/
theorem zip_unique {us us' : List Nat} (h : us.Nodup) (h' : us'.Nodup) {i j i' j' : Nat}
    (hij : (i, j) ∈ us.zip us') (hij' : (i', j') ∈ us.zip us') : i = i' ↔ j = j' := by
  obtain ⟨m, hm, hmij⟩ := List.mem_iff_getElem.mp hij
  obtain ⟨n, hn, hnij⟩ := List.mem_iff_getElem.mp hij'
  rw [List.length_zip] at hm hn
  simp only [List.getElem_zip, Prod.mk.injEq] at hmij hnij
  rw [← hmij.1, ← hmij.2, ← hnij.1, ← hnij.2, List.Nodup.getElem_inj_iff h,
    List.Nodup.getElem_inj_iff h']

namespace Copying.Tells

variable {t t' : Hops}

theorem record (h : k.Tells t t') {f f' : Finding} (hf : f.Copy k f') :
    k.Tells (f.record t) (f'.record t') := by
  cases hf with
  | fault => exact h
  | @settled i j name depth hij =>
      cases depth with
      | none => exact h
      | some d =>
          refine ⟨h.unique, fun i' j' hij' => ?_⟩
          simp only [Finding.record, Std.TreeMap.getElem?_insert, Nat.compare_eq_eq,
            h.unique hij hij', h.hops i' j' hij']

theorem recordAll (h : k.Tells t t') {fs fs' : List Finding} (hf : FindingsCopy k fs fs') :
    k.Tells (t.recordAll fs) (t'.recordAll fs') := by
  induction hf generalizing t t' with
  | nil => exact h
  | cons hf _ ih => exact ih (h.record hf)

/-- Identities that neither table knows and that correspond to none so far may correspond. -/
theorem extend (h : k.Tells t t') {us us' : List Nat} (hu : us.Nodup) (hu' : us'.Nodup)
    (hn : ∀ i ∈ us, t[i]? = none ∧ ∀ j, ¬ k.same i j)
    (hn' : ∀ j ∈ us', t'[j]? = none ∧ ∀ i, ¬ k.same i j) : (k.extend us us').Tells t t' where
  unique {i j i' j'} hij hij' := by
    rcases hij with hij | hij <;> rcases hij' with hij' | hij'
    · exact h.unique hij hij'
    · obtain ⟨hi, hj⟩ := List.of_mem_zip hij'
      refine ⟨fun he => ?_, fun he => ?_⟩
      · exact absurd (he ▸ hij) ((hn i' hi).2 j)
      · exact absurd (he ▸ hij) ((hn' j' hj).2 i)
    · obtain ⟨hi, hj⟩ := List.of_mem_zip hij
      refine ⟨fun he => ?_, fun he => ?_⟩
      · exact absurd (he ▸ hij') ((hn i hi).2 j')
      · exact absurd (he ▸ hij') ((hn' j hj).2 i')
    · exact zip_unique hu hu' hij hij'
  hops i j hij := by
    rcases hij with hij | hij
    · exact h.hops i j hij
    · obtain ⟨hi, hj⟩ := List.of_mem_zip hij
      rw [(hn i hi).1, (hn' j hj).1]

end Copying.Tells

end Lox
