import Lox.Proofs.Copy.Marked
import Lox.Proofs.Grammar.Completeness

/-!
Programs may be run whole or in pieces. Two programs joined at a line break are read as the one and
then the other, and run as the one and then the other, unless the first one stops at a fault.
-/

namespace Lox

/-! ### Reading joined programs -/

/-- The program was read without a fault and is settled without one. -/
structure Program.Faultless (p : Program) : Prop where
  read : p.faults = []
  settled : (Stmt.listFindings false [] p.statements).filterMap Finding.fault? = []

instance (p : Program) : Decidable p.Faultless :=
  decidable_of_iff (p.faults = [] ∧
    (Stmt.listFindings false [] p.statements).filterMap Finding.fault? = [])
    ⟨fun h => ⟨h.1, h.2⟩, fun h => ⟨h.read, h.settled⟩⟩

theorem Program.Faultless.copy {f : Nat → Nat} {p p' : Program} (h : p.Faultless)
    (hc : p.Copy f p') : p'.Faultless where
  read := by rw [hc.faults, h.read, List.map_nil]
  settled := by rw [(hc.statements.findings false []).faults, h.settled, List.map_nil]

/-- Faultless tokens are so at whatever lines, and whatever identities they are given. -/
theorem Program.Faultless.moved {tokens : List Token} {i : Nat} {p : Program} (h : p.Faultless)
    (hp : Program.ofTokens? tokens i = some p) (ht : tokens ≠ []) (f : Nat → Nat) (j : Nat) :
    ∃ p', Program.ofTokens? (tokens.map (Token.relined f)) j = some p' ∧ p'.Faultless ∧
      p.Copy f p' := by
  have hcopy := Program.ofTokens?_relined f ht i j
  rw [hp] at hcopy
  cases hp' : Program.ofTokens? (tokens.map (Token.relined f)) j with
  | none => rw [hp'] at hcopy; cases hcopy
  | some p' =>
      rw [hp'] at hcopy
      cases hcopy with
      | some hc => exact ⟨p', rfl, h.copy hc, hc⟩

namespace Grammar

/-- The grammar knows no boundary between the declarations of two programs. -/
theorem ProgramDerives.append {n : Nat} {ts us : List Token} {xs ys : List Stmt}
    (h : ProgramDerives n ts xs) (h' : ProgramDerives n us ys) :
    ProgramDerives n (ts ++ us) (xs ++ ys) := by
  obtain ⟨parts, hd, rfl, rfl⟩ := h
  obtain ⟨parts', hd', rfl, rfl⟩ := h'
  refine ⟨parts ++ parts', fun p hp => ?_, by simp, by simp⟩
  rcases List.mem_append.mp hp with hp | hp
  · exact hd p hp
  · exact hd' p hp

theorem upToEnd_tokens (source : String) :
    upToEnd (Source.tokens source) = Source.heldTokens source := by
  rw [Source.tokens_eq, upToEnd_append fun t ht => Source.kind_ne_eof ht]
  simp [upToEnd]

theorem upToEnd_joined {a : String} (b : String) (h : Source.faults a = []) :
    upToEnd (Source.tokens (a ++ "\n" ++ b)) = upToEnd (Source.tokens a) ++
      upToEnd ((Source.tokens b).map (Token.relined (· + Source.linesBefore a))) := by
  rw [upToEnd_tokens a, Source.tokens_joined b h, upToEnd_append fun t ht => Source.kind_ne_eof ht]

end Grammar

section

variable {k : Copying} {xs ys zs : List Stmt}

/-- A copy of joined programs is joined of copies. -/
theorem Stmt.ListCopy.of_append (h : Stmt.ListCopy k (xs ++ ys) zs) :
    ∃ us vs, zs = us ++ vs ∧ Stmt.ListCopy k xs us ∧ Stmt.ListCopy k ys vs := by
  induction xs generalizing zs with
  | nil => exact ⟨[], zs, rfl, .nil, h⟩
  | cons x xs ih =>
      cases h with
      | cons hx h =>
          obtain ⟨us, vs, rfl, hxs, hys⟩ := ih h
          exact ⟨_ :: us, vs, rfl, .cons hx hxs, hys⟩

theorem Stmt.listIds_append (xs ys : List Stmt) :
    Stmt.listIds (xs ++ ys) = Stmt.listIds xs ++ Stmt.listIds ys := by
  rw [Stmt.listIds_eq_flatMap, Stmt.listIds_eq_flatMap, Stmt.listIds_eq_flatMap, List.flatMap_append]

/-- No scope is left open at the outermost level. -/
theorem Stmt.listFindings_append (inFunction : Bool) (xs ys : List Stmt) :
    Stmt.listFindings inFunction [] (xs ++ ys) =
      Stmt.listFindings inFunction [] xs ++ Stmt.listFindings inFunction [] ys := by
  induction xs with
  | nil => rfl
  | cons x xs ih =>
      rw [List.cons_append, Stmt.listFindings, Stmt.listFindings, Scopes.after_nil, ih,
        List.append_assoc]

theorem runAll_append (host : Host) (fuel : Nat) (xs ys : List Stmt) :
    runAll host fuel (xs ++ ys) = (do runAll host fuel xs; runAll host fuel ys) := by
  induction xs with
  | nil => exact (pure_bind () fun _ => runAll host fuel ys).symm
  | cons x xs ih => rw [List.cons_append, runAll, runAll, ih, bind_assoc]

end

/-- Tokens that go on where others end are read as the two programs one behind the other. -/
theorem Program.Faultless.joined {ts us tokens : List Token} {i n : Nat} {pa pb : Program}
    (ha : pa.Faultless) (hb : pb.Faultless) (hpa : Program.ofTokens? ts i = some pa)
    (hpb : Program.ofTokens? us n = some pb)
    (ht : Grammar.upToEnd tokens = Grammar.upToEnd ts ++ Grammar.upToEnd us) (j : Nat) :
    ∃ p, Program.ofTokens? tokens j = some p ∧ p.Faultless ∧
      Stmt.ListCopy (.anyhow fun l => l) (pa.statements ++ pb.statements) p.statements := by
  have hd := (Grammar.derives_of_ofTokens? hpa ha.read).append
    (Grammar.derives_of_ofTokens? hpb hb.read)
  rw [← ht] at hd
  obtain ⟨p, hp, hf, hu⟩ := Grammar.ofTokens?_of_derives j hd
  have hcopy := Stmt.listCopy_of_unnumbered _ _ hu
  refine ⟨p, hp, ⟨hf, ?_⟩, hcopy⟩
  rw [(hcopy.findings false []).faults, Stmt.listFindings_append, List.filterMap_append,
    ha.settled, hb.settled]
  rfl

/-! ### Running joined programs -/

theorem Session.runTokens_eq (host : Host) (fuel : Nat) {s : Session} {tokens : List Token}
    {p : Program} (hp : Program.ofTokens? tokens s.nextId = some p) (h : p.Faultless) :
    s.runTokens host fuel tokens =
      (settle p { s with nextId := p.nextId }).2.interpret host fuel p.statements := by
  rw [runTokens, accept_eq hp h.read h.settled]

/-- Which identities of the pieces correspond to which of the whole: to begin with those of the first
piece, and then those of the second one too. -/
structure Pieces (same same' : Nat → Nat → Prop) (A W : Session) (hops : Hops)
    (xs ys us vs : List Stmt) : Prop where
  sub : ∀ i j, same i j → same' i j
  first : Stmt.ListCopy (.inPlace same) xs us
  second : Stmt.ListCopy (.inPlace same') ys vs
  machine : A.ready.Copy (.inPlace same) W.ready
  hops : ∀ i j, same' i j → W.machine.hops[j]? = hops[i]?

theorem Session.Copy.pieces {same : Nat → Nat → Prop} {s : Session}
    (h : s.Copy (.inPlace same) s) {ts us tokens : List Token} {pa pb p : Program}
    (hpa : Program.ofTokens? ts s.nextId = some pa) (hpb : Program.ofTokens? us pa.nextId = some pb)
    (hp : Program.ofTokens? tokens s.nextId = some p)
    (hc : Stmt.ListCopy (.anyhow fun l => l) (pa.statements ++ pb.statements) p.statements) :
    ∃ same₁ same₂ sa sb, p.statements = sa ++ sb ∧
      Pieces same₁ same₂ (Session.settle pa { s with nextId := pa.nextId }).2
        (Session.settle p { s with nextId := p.nextId }).2
        ((s.machine.hops.recordAll (Stmt.listFindings false [] pa.statements)).recordAll
          (Stmt.listFindings false [] pb.statements)) pa.statements pb.statements sa sb := by
  obtain ⟨hla, hfa⟩ := Grammar.fresh_of_ofTokens? hpa
  obtain ⟨hlb, hfb⟩ := Grammar.fresh_of_ofTokens? hpb
  obtain ⟨hl, hf⟩ := Grammar.fresh_of_ofTokens? hp
  have hfab := hfa.append hfb hla hlb
  rw [← Stmt.listIds_append] at hfab
  -- all identities of the pieces correspond to those of the whole
  let k := (Copying.inPlace same).extend (Stmt.listIds (pa.statements ++ pb.statements))
    (Stmt.listIds p.statements)
  have htells : k.Tells s.machine.hops s.machine.hops := h.tells_extend hfab.nodup hf.nodup
    (fun i hi => (hfab.bounds hi).1) fun j hj => (hf.bounds hj).1
  have hcopy : Stmt.ListCopy k (pa.statements ++ pb.statements) p.statements :=
    hc.restrict fun q hq => .inr hq
  have hrecorded := htells.recordAll (hcopy.findings false [])
  rw [Stmt.listFindings_append, Hops.recordAll_append] at hrecorded
  obtain ⟨sa, sb, hstatements, hca, hcb⟩ := hc.of_append
  have hids : Stmt.listIds p.statements = Stmt.listIds sa ++ Stmt.listIds sb := by
    rw [hstatements, Stmt.listIds_append]
  have hzip : (Stmt.listIds (pa.statements ++ pb.statements)).zip (Stmt.listIds p.statements) =
      (Stmt.listIds pa.statements).zip (Stmt.listIds sa) ++
        (Stmt.listIds pb.statements).zip (Stmt.listIds sb) := by
    rw [Stmt.listIds_append, hids, List.zip_append hca.length_ids.symm]
  -- while the first piece runs, the table of the pieces does not tell of the second one yet
  refine ⟨fun i j => k.same i j ∧ i < pa.nextId, k.same, sa, sb, hstatements,
    fun i j hij => hij.1, hca.restrict fun q hq => ⟨.inr (hzip ▸ List.mem_append_left _ hq), ?_⟩,
    hcb.restrict fun q hq => .inr (hzip ▸ List.mem_append_right _ hq), ?_, hrecorded.hops⟩
  · exact (hfa.bounds (List.of_mem_zip (a := q.1) (b := q.2) hq).1).2
  · refine h.ready.retell ⟨fun i j hij => ⟨.inl hij, Nat.lt_of_lt_of_le (h.below hij).1 hla⟩, rfl⟩
      fun i j hij => (hrecorded.hops i j hij.1).trans ?_
    exact Stmt.recordAll_of_not_mem fun hmem => Nat.not_lt.mpr (hfb.bounds hmem).1 hij.2

/-- How a session stands when a run of statements has come to an end. -/
def Session.ended (s : Session) : EStateM.Result Stop Machine Unit → Outcome × Session
  | .ok _ m => (.done m.result, { s with machine := m, lastFault := none })
  | .error (.fault f) m => (.failed (.runtime f), { s with machine := m, lastFault := some f })
  | .error .outOfFuel m => (.unfinished, { s with machine := m, lastFault := none })

theorem Session.interpret_eq (host : Host) (fuel : Nat) (body : List Stmt) (s : Session) :
    s.interpret host fuel body = s.ended (runAll host fuel body s.ready) := by
  unfold interpret ended
  rfl

theorem RunsShow.of_ends {k : Copying} {m m' : Machine} {Q : Unit → Unit → Prop}
    {r r' : EStateM.Result Stop Machine Unit} (h : Ends k m m' Q r r') (s s' : Session) :
    RunsShow k (s.ended r) (s'.ended r') := by
  cases h with
  | ok _ hc _ _ => exact ⟨congrArg Outcome.done hc.result, rfl, hc⟩
  | @error e n n' hc _ _ =>
      cases e with
      | fault f => exact ⟨rfl, rfl, hc⟩
      | outOfFuel => exact ⟨rfl, rfl, hc⟩

/-- The whole shows what the second piece shows behind the first one, or what the first one shows if
it does not come to its end. -/
theorem Pieces.interpret {same same' : Nat → Nat → Prop} {A W : Session} {t : Hops}
    {xs ys us vs : List Stmt} (h : Pieces same same' A W t xs ys us vs) (host : Host) (fuel n : Nat) :
    match A.interpret host fuel xs with
    | (.done _, s) => RunsShow (.inPlace same')
        (({ s with nextId := n, machine := { s.machine with hops := t } } : Session).interpret
          host fuel ys) (W.interpret host fuel (us ++ vs))
    | r => RunsShow (.inPlace same) r (W.interpret host fuel (us ++ vs)) := by
  have hfirst := Repeats.runAll host fuel h.first _ _ h.machine
  rw [W.interpret_eq, A.interpret_eq, runAll_append]
  simp only [Bind.bind, EStateM.bind]
  generalize runAll host fuel xs A.ready = r, runAll host fuel us W.ready = r' at hfirst ⊢
  cases hfirst with
  | @ok _ _ m w _ hc hk hk' =>
      have hretold : Machine.Copy (.inPlace same') { m with hops := t } { w with hops := w.hops } :=
        hc.retell ⟨h.sub, rfl⟩ fun i j hij => by
          rw [hk'.hops]
          exact h.hops i j hij
      have hready : Machine.Copy (.inPlace same')
          { m with hops := t, current := globals, callDepth := 0 } w :=
        { hretold with current := hk'.current, callDepth := hk'.callDepth }
      exact .of_ends (Repeats.runAll host fuel h.second _ _ hready) _ _
  | @error e m w hc hk hk' =>
      have hends : Ends (.inPlace same) A.ready W.ready (fun _ (_ : Unit) => True)
          (.error e m : EStateM.Result Stop Machine Unit) (.error (e.relined fun l => l) w) :=
        .error hc hk hk'
      have hshow := RunsShow.of_ends hends A W
      cases e <;> exact hshow

/-! ### Texts that may be run -/

/-- The text is scanned, read and settled without a fault. -/
def Source.Passes (source : String) : Prop :=
  Source.faults source = [] ∧ ∃ p ∈ Program.ofTokens? (Source.tokens source) 0, p.Faultless

instance (source : String) : Decidable (Source.Passes source) :=
  inferInstanceAs (Decidable (_ ∧ ∃ p ∈ Program.ofTokens? (Source.tokens source) 0, p.Faultless))

namespace Source.Passes

variable {source a b : String}

theorem moved (h : Passes source) (f : Nat → Nat) (i : Nat) :
    ∃ p, Program.ofTokens? ((tokens source).map (Token.relined f)) i = some p ∧ p.Faultless := by
  obtain ⟨-, p, hp, hf⟩ := h
  obtain ⟨p', hp', hf', -⟩ := hf.moved hp (tokens_ne_nil source) f i
  exact ⟨p', hp', hf'⟩

theorem read (h : Passes source) (i : Nat) :
    ∃ p, Program.ofTokens? (tokens source) i = some p ∧ p.Faultless := by
  obtain ⟨p, hp, hf⟩ := h.moved (fun l => l) i
  rw [show (tokens source).map (Token.relined fun l => l) = tokens source from List.map_id _] at hp
  exact ⟨p, hp, hf⟩

theorem faults_joined (ha : Passes a) (hb : Passes b) : faults (a ++ "\n" ++ b) = [] := by
  rw [Source.faults_joined b ha.1, hb.1, List.map_nil]

theorem joined (ha : Passes a) (hb : Passes b) : Passes (a ++ "\n" ++ b) := by
  obtain ⟨pa, hpa, hfa⟩ := ha.read 0
  obtain ⟨pb, hpb, hfb⟩ := hb.moved (· + linesBefore a) 0
  obtain ⟨p, hp, hf, -⟩ := hfa.joined hfb hpa hpb (Grammar.upToEnd_joined b ha.1) 0
  exact ⟨ha.faults_joined hb, p, hp, hf⟩

end Source.Passes

/-! ### Sessions that run texts whole or in pieces -/

theorem Session.run_eq (host : Host) (fuel : Nat) {source : String} (h : Source.faults source = [])
    (s : Session) : s.run host fuel source = s.runTokens host fuel (Source.tokens source) := by
  unfold run
  dsimp only
  rw [show (Source.items source).filterMap Source.Item.fault? = [] from h]
  rfl

theorem Session.nextId_interpret (host : Host) (fuel : Nat) (body : List Stmt) (s : Session) :
    (s.interpret host fuel body).2.nextId = s.nextId := by
  unfold interpret
  split <;> rfl

namespace Session.Copy

variable {same : Nat → Nat → Prop} {s : Session}

/-- A source text is run at its own lines. -/
theorem marks_source (h : s.Copy (.inPlace same) s) (host : Host) (fuel : Nat) {source : String}
    (hf : Source.faults source = []) : ∃ w : Showing,
      (showing (s.run host fuel source)).unnumbered = (w.relined (unmark fun l => l)).unnumbered ∧
      ∀ f : Nat → Nat, (showing (s.runTokens host fuel
        ((Source.tokens source).map (Token.relined f)))).unnumbered =
          (w.relined (unmark f)).unnumbered := by
  obtain ⟨w, hmarks⟩ := h.marks host fuel (Source.tokens_ne_nil source)
  have hplain (f : Nat → Nat) := hmarks f fun l => l
  simp only [Showing.relined_id] at hplain
  refine ⟨w, ?_, hplain⟩
  rw [Session.run_eq host fuel hf, ← hplain]
  exact congrArg (fun ts => (showing (s.runTokens host fuel ts)).unnumbered) (List.map_id _).symm

/-- A run adds to the lines that were printed before, and leaves the table of hops. -/
theorem interpret_kept {k : Copying} {s' : Session} (h : s.Copy k s') (host : Host) (fuel : Nat)
    {body body' : List Stmt} (hb : Stmt.ListCopy k body body') :
    s.ready.Kept (s.interpret host fuel body).2.machine := by
  have hrun := Repeats.runAll host fuel hb _ _ h.ready
  rw [Session.interpret_eq]
  generalize runAll host fuel body s.ready = r, runAll host fuel body' s'.ready = r' at hrun ⊢
  cases hrun with
  | ok _ _ hk _ => exact hk
  | @error e _ _ _ hk _ => cases e <;> exact hk

theorem runTokens_kept (h : s.Copy (.inPlace same) s) (host : Host) (fuel : Nat)
    {tokens : List Token} {p : Program} (hp : Program.ofTokens? tokens s.nextId = some p)
    (hf : p.Faultless) : (Session.settle p { s with nextId := p.nextId }).2.ready.Kept
      (s.runTokens host fuel tokens).2.machine := by
  obtain ⟨k, -, hb, -, hs⟩ := h.settle (Program.newTo_of_ofTokens? hp)
    (Program.newTo_of_ofTokens? hp) (Stmt.listCopy_of_unnumbered _ _ rfl)
  rw [Session.runTokens_eq host fuel hp hf]
  exact hs.interpret_kept host fuel hb

theorem prints (h : s.Copy (.inPlace same) s) (host : Host) (fuel : Nat) {source : String}
    (hp : Source.Passes source) : ∃ lines,
      (s.run host fuel source).2.machine.printed = s.machine.printed ++ lines := by
  obtain ⟨p, hread, hf⟩ := hp.read s.nextId
  rw [Session.run_eq host fuel hp.1]
  exact (h.runTokens_kept host fuel hread hf).printed

/-- The whole shows what the second text shows, at its place in the whole, behind the first one, or
what the first one shows if it does not come to its end. -/
theorem runs_joined (h : s.Copy (.inPlace same) s) (host : Host) (fuel : Nat) {a b : String}
    (ha : Source.Passes a) (hb : Source.Passes b) :
    match s.run host fuel a with
    | (.done _, s₁) => ∃ same, RunsShow (.inPlace same)
        (s₁.runTokens host fuel ((Source.tokens b).map (Token.relined (· + Source.linesBefore a))))
        (s.run host fuel (a ++ "\n" ++ b))
    | one => ∃ same, RunsShow (.inPlace same) one (s.run host fuel (a ++ "\n" ++ b)) := by
  obtain ⟨pa, hpa, hfa⟩ := ha.read s.nextId
  obtain ⟨pb, hpb, hfb⟩ := hb.moved (· + Source.linesBefore a) pa.nextId
  obtain ⟨p, hp, hf, hcopy⟩ := hfa.joined hfb hpa hpb (Grammar.upToEnd_joined b ha.1) s.nextId
  obtain ⟨same₁, same₂, sa, sb, hstatements, hpieces⟩ := h.pieces hpa hpb hp hcopy
  have hrun := hpieces.interpret host fuel pb.nextId
  have hkept := h.runTokens_kept host fuel hpa hfa
  have hone := Session.runTokens_eq host fuel hpa hfa
  have hnext : (s.runTokens host fuel (Source.tokens a)).2.nextId = pa.nextId := by
    rw [hone]
    exact Session.nextId_interpret host fuel _ _
  rw [Session.run_eq host fuel ha.1, Session.run_eq host fuel (ha.faults_joined hb),
    Session.runTokens_eq host fuel hp hf, hstatements]
  rw [← hone] at hrun
  generalize s.runTokens host fuel (Source.tokens a) = r at hrun hkept hnext ⊢
  obtain ⟨o, s₁⟩ := r
  cases o with
  | failed f => exact ⟨same₁, hrun⟩
  | unfinished => exact ⟨same₁, hrun⟩
  | done result =>
      have hnext : s₁.nextId = pa.nextId := hnext
      have hhops : s₁.machine.hops = s.machine.hops.recordAll
        (Stmt.listFindings false [] pa.statements) := hkept.hops
      rw [← hnext] at hpb
      refine ⟨same₂, ?_⟩
      rw [Session.runTokens_eq host fuel hpb hfb, Session.settle, Session.recordAll, hhops]
      exact hrun

end Session.Copy

theorem Visit.after_run (steps : List Step) (host : Host) (fuel : Nat) (source : String) :
    (Visit.after (steps ++ [.run host fuel source])).session =
      ((Visit.after steps).session.run host fuel source).2 := by
  rw [Visit.after, List.foldl_append, ← Visit.after]
  rfl

/-- Two programs that may be run make one program that may be run. If the first one comes to its end
in a session, the whole prints its lines and then those of the second one behind it, and shows what
that shows, with the lines of the second program moved: `w` is what is shown with these lines
marked, as they are in all runs of the second program at whatever lines. If the first one does not
come to its end, the whole shows what it shows and leaves a copy of the machine that it leaves, which
has not made a step, a function or a frame more. -/
theorem programs_run_whole_or_in_pieces (steps : List Step) (host : Host) (fuel : Nat)
    {a b : String} (ha : Source.Passes a) (hb : Source.Passes b) :
    let s := (Visit.after steps).session
    let whole := s.run host fuel (a ++ "\n" ++ b)
    Source.Passes (a ++ "\n" ++ b) ∧
    match s.run host fuel a with
    | (.done _, s₁) =>
      (∃ la lb, s₁.machine.printed = s.machine.printed ++ la ∧
        (s₁.run host fuel b).2.machine.printed = s₁.machine.printed ++ lb ∧
        whole.2.machine.printed = s.machine.printed ++ la ++ lb) ∧
      ∃ w : Showing,
        (showing (s₁.run host fuel b)).unnumbered = (w.relined (unmark fun l => l)).unnumbered ∧
        (showing whole).unnumbered =
          (w.relined (unmark (· + Source.linesBefore a))).unnumbered ∧
        ∀ f : Nat → Nat,
          (showing (s₁.runTokens host fuel
            ((Source.tokens b).map (Token.relined f)))).unnumbered =
              (w.relined (unmark f)).unnumbered
    | one =>
      (showing whole).unnumbered = (showing one).unnumbered ∧
        ∃ same, one.2.machine.Copy (.inPlace same) whole.2.machine := by
  intro s whole
  refine ⟨ha.joined hb, ?_⟩
  obtain ⟨same, hs⟩ : ∃ same, s.Copy (.inPlace same) s :=
    (Visit.Copy.after steps).imp fun _ hv => hv.session
  obtain ⟨same₁, hs₁⟩ : ∃ same, (s.run host fuel a).2.Copy (.inPlace same)
      (s.run host fuel a).2 := by
    rw [← Visit.after_run]
    exact (Visit.Copy.after (steps ++ [.run host fuel a])).imp fun _ hv => hv.session
  have hrun := hs.runs_joined host fuel ha hb
  obtain ⟨la, hla⟩ := hs.prints host fuel ha
  generalize s.run host fuel a = r at hrun hs₁ hla ⊢
  obtain ⟨o, s₁⟩ := r
  cases o with
  | failed f =>
      obtain ⟨k, hrun⟩ := hrun
      exact ⟨hrun.showing_eq, k, hrun.machine⟩
  | unfinished =>
      obtain ⟨k, hrun⟩ := hrun
      exact ⟨hrun.showing_eq, k, hrun.machine⟩
  | done result =>
      obtain ⟨k, hrun⟩ := hrun
      obtain ⟨w, hpiece, hmarks⟩ := hs₁.marks_source host fuel hb.1
      have hwhole : (showing whole).unnumbered =
          (w.relined (unmark (· + Source.linesBefore a))).unnumbered := hrun.showing_eq.trans (hmarks _)
      have hprinted : whole.2.machine.printed = (s₁.run host fuel b).2.machine.printed :=
        (congrArg Showing.printed hwhole).trans (congrArg Showing.printed hpiece).symm
      obtain ⟨lb, hlb⟩ := hs₁.prints host fuel hb
      refine ⟨⟨la, lb, hla, hlb, ?_⟩, w, hpiece, hwhole, hmarks⟩
      exact hprinted.trans (hlb.trans (congrArg (· ++ lb) hla))

def firstPiece : String := "fun f() \x7breturn nil;\x7d\nprint f;"

def secondPiece : String := "print true;\nf()();"

/-- The fault on the second line of the second piece is on the fourth line of the whole. -/
theorem pieces_of_two_lines :
    Source.Passes firstPiece ∧ Source.Passes secondPiece ∧
    Source.Passes (firstPiece ++ "\n" ++ secondPiece) ∧
    ∃ s₁, Session.start.run .still 20 firstPiece = (.done "<fn f>", s₁) ∧
      (s₁.run .still 20 secondPiece).1 = .failed (.runtime ⟨2, .notCallable .nil⟩) ∧
      (Session.start.run .still 20 (firstPiece ++ "\n" ++ secondPiece)).1 =
        .failed (.runtime ⟨4, .notCallable .nil⟩) ∧
      ∃ w : Showing,
        (showing (s₁.run .still 20 secondPiece)).unnumbered =
          (w.relined (unmark fun l => l)).unnumbered ∧
        (showing (Session.start.run .still 20 (firstPiece ++ "\n" ++ secondPiece))).unnumbered =
          (w.relined (unmark (· + 2))).unnumbered := by
  have ha : Source.Passes firstPiece := by decide +kernel
  have hb : Source.Passes secondPiece := by decide +kernel
  have hone : (Session.start.run .still 20 firstPiece).1 = .done "<fn f>" := by decide +kernel
  have hrun := Prod.ext (y := (_, _)) hone rfl
  have hjoined := programs_run_whole_or_in_pieces [] .still 20 ha hb
  simp only [show (Visit.after []).session = Session.start from rfl] at hjoined
  rw [hrun] at hjoined
  obtain ⟨hpasses, -, w, hpiece, hwhole, -⟩ := hjoined
  rw [show Source.linesBefore firstPiece = 2 by decide +kernel] at hwhole
  exact ⟨ha, hb, hpasses, _, hrun, by decide +kernel, by decide +kernel, w, hpiece, hwhole⟩

end Lox
