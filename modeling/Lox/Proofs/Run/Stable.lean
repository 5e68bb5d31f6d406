import Lox.Proofs.Copy.Pieces
import Lox.Proofs.Run.Origins
import Lox.Proofs.Scope.Recorded

/-!
Hops that stay as they are. A process parses, resolves and interprets in whatever order, with one
counter for identities and one table of hops. As no identity is given twice, a tree that is resolved
writes to no entry of another one, whatever has become of that.
-/

namespace Lox

/-! ### What is noted -/

/-- The identity and the hops that are noted with a finding. -/
def Finding.noted? : Finding → Option (Nat × Nat)
  | .settled id _ (some depth) => some (id, depth)
  | _ => none

def Hops.noteAll (t : Hops) (ns : List (Nat × Nat)) : Hops := ns.foldl (fun t n => t.insert n.1 n.2) t

theorem Hops.recordAll_eq_noteAll (t : Hops) (fs : List Finding) :
    t.recordAll fs = t.noteAll (fs.filterMap Finding.noted?) := by
  induction fs generalizing t with
  | nil => rfl
  | cons f fs ih =>
      cases f with
      | fault f => exact ih t
      | settled id name depth => cases depth <;> exact ih _

/-- Where the notes contradict neither each other nor the table, the table says behind them what it
said and what they say. -/
theorem Hops.getElem?_noteAll {t : Hops} {ns : List (Nat × Nat)} (hn : (ns.map Prod.fst).Nodup)
    (ht : ∀ id d d', (id, d) ∈ ns → t[id]? = some d' → d = d') (id d : Nat) :
    (t.noteAll ns)[id]? = some d ↔ (id, d) ∈ ns ∨ t[id]? = some d := by
  induction ns generalizing t with
  | nil => simp [noteAll]
  | cons n ns ih =>
      obtain ⟨i, e⟩ := n
      rw [List.map_cons, List.nodup_cons] at hn
      have hget (k : Nat) : (t.insert i e)[k]? = if i = k then some e else t[k]? := by
        rw [Std.TreeMap.getElem?_insert]
        simp only [Nat.compare_eq_eq]
      have hother (k d : Nat) (hk : (k, d) ∈ ns) : i ≠ k := by
        rintro rfl
        exact hn.1 (List.mem_map.mpr ⟨_, hk, rfl⟩)
      have ih := ih hn.2 (t := t.insert i e) fun k d d' hk ht' => by
        rw [hget, if_neg (hother k d hk)] at ht'
        exact ht k d d' (List.mem_cons_of_mem _ hk) ht'
      rw [noteAll, List.foldl_cons]
      refine ih.trans ?_
      rw [hget, List.mem_cons]
      by_cases hi : i = id
      · subst hi
        rw [if_pos rfl]
        constructor
        · rintro (h | h)
          · exact .inl (.inr h)
          · cases h
            exact .inl (.inl rfl)
        · rintro ((h | h) | h)
          · cases h
            exact .inr rfl
          · exact .inl h
          · exact .inr (congrArg some (ht i e d List.mem_cons_self h))
      · rw [if_neg hi]
        constructor
        · rintro (h | h)
          · exact .inl (.inr h)
          · exact .inr h
        · rintro ((h | h) | h)
          · cases h
            exact absurd rfl hi
          · exact .inl h
          · exact .inr h

/-- What is noted when a tree is resolved. -/
def Stmt.notes (body : List Stmt) : List (Nat × Nat) :=
  (Stmt.listFindings false [] body).filterMap Finding.noted?

theorem Finding.filterMap_noted? (fs : List Finding) :
    (fs.filter Finding.ofOccurrence).filterMap Finding.noted? = fs.filterMap Finding.noted? := by
  rw [List.filterMap_filter]
  refine congrArg (List.filterMap · fs) (funext fun f => ?_)
  cases f with
  | settled => rfl
  | fault f => split <;> rfl

theorem Site.filterMap_noted? (s : Site) :
    s.findings.filterMap Finding.noted? = (s.depth?.map (s.id, ·)).toList := by
  rw [findings, readFault, settled, settle, depth?]
  split
  · split <;> cases s.scopes.depth? s.name <;> rfl
  · cases s.scopes.depth? s.name <;> rfl

theorem Site.notes_sublist (sites : List Site) :
    (((sites.flatMap Site.findings).filterMap Finding.noted?).map Prod.fst).Sublist
      (sites.map Site.id) := by
  induction sites with
  | nil => exact .slnil
  | cons s sites ih =>
      rw [List.flatMap_cons, List.filterMap_append, Site.filterMap_noted?, List.map_append,
        List.map_cons]
      cases s.depth? with
      | none => exact ih.cons _
      | some d => exact ih.cons_cons _

/-- Occurrences are noted in order, those that mean global variables left out. -/
theorem Stmt.notes_sublist (body : List Stmt) :
    ((Stmt.notes body).map Prod.fst).Sublist (Stmt.listIds body) := by
  have h := Site.notes_sublist (Stmt.listSites [] [] [] 0 body)
  rwa [← Stmt.filter_listFindings false, Finding.filterMap_noted?, Stmt.map_id_listSites] at h

/-- What a run leaves of a machine, however it ends, is what a session goes on with. -/
theorem Session.machine_interpret (host : Host) (fuel : Nat) (body : List Stmt) (s : Session) :
    (s.interpret host fuel body).2.machine = (runAll host fuel body).leaves s.ready := by
  rw [interpret, Eval.leaves]
  cases runAll host fuel body s.ready with
  | ok u m => rfl
  | error e m => cases e <;> rfl

/-! ### Processes -/

/-- A session with all trees that were returned, the numbers of those that were resolved, and what
was noted then. A tree that is made for another machine is one that is never resolved here. -/
structure Process where
  session : Session := .start
  trees : List (List Stmt) := []
  resolved : List Nat := []
  noted : List (Nat × Nat) := []

namespace Process

/-- Trees are known by their number. -/
inductive Call
  | parse (tokens : List Token)
  | resolve (tree : Nat)
  | interpret (host : Host) (fuel : Nat) (tree : Nat)

/-- What a call comes to. There is no tree if parsing does not end, and without the tree there is
nothing to resolve or interpret. -/
def make (p : Process) : Call → Process
  | .parse tokens =>
    match p.session.read? tokens with
    | some (q, s) => { p with session := s, trees := p.trees ++ [q.statements] }
    | none => p
  | .resolve i =>
    match p.trees[i]? with
    | some body =>
      { p with
        session := p.session.recordAll (Stmt.listFindings false [] body)
        resolved := p.resolved ++ [i]
        noted := p.noted ++ Stmt.notes body }
    | none => p
  | .interpret host fuel i =>
    match p.trees[i]? with
    | some body => { p with session := (p.session.interpret host fuel body).2 }
    | none => p

def after (calls : List Call) : Process := calls.foldl make {}

def hops (p : Process) : Hops := p.session.machine.hops

/-- The functions that are declared in the trees. -/
def Declares (p : Process) (f : Function) : Prop :=
  ∃ (i : Nat) (body : List Stmt), p.trees[i]? = some body ∧ f ∈ Stmt.listFunctions body

theorem declares_inherited (p : Process) : Inherited p.Declares := by
  rintro f ⟨i, body, hi, hf⟩ g hg
  exact ⟨i, body, hi, (Stmt.listFunctions_inner body hf).1 hg⟩

/-- The notes have been made for trees that were resolved, and the table is made up of them. -/
structure Sound (p : Process) : Prop where
  fresh : Grammar.Fresh 0 p.session.nextId (p.trees.flatMap Stmt.listIds)
  bounds : ∀ i ∈ p.resolved, i < p.trees.length
  noted : p.noted = p.resolved.flatMap fun i => (p.trees[i]?.map Stmt.notes).getD []
  hops : ∀ id d, p.hops[id]? = some d ↔ (id, d) ∈ p.noted
  functions : p.session.machine.store.Of p.Declares

/-- What later calls leave: trees are added behind the others, and so are notes. -/
structure Grows (p q : Process) : Prop where
  trees : p.trees <+: q.trees
  resolved : p.resolved <+: q.resolved
  noted : p.noted <+: q.noted

theorem getElem?_of_prefix {α : Type} {l l' : List α} (h : l <+: l') {i : Nat} {a : α}
    (hi : l[i]? = some a) : l'[i]? = some a := by
  obtain ⟨back, rfl⟩ := h
  rw [List.getElem?_append_left (List.getElem?_eq_some_iff.mp hi).1, hi]

theorem Grows.refl (p : Process) : p.Grows p :=
  ⟨List.prefix_rfl, List.prefix_rfl, List.prefix_rfl⟩

theorem Grows.trans {p q r : Process} (h : p.Grows q) (h' : q.Grows r) : p.Grows r :=
  ⟨h.trees.trans h'.trees, h.resolved.trans h'.resolved, h.noted.trans h'.noted⟩

theorem grows_make (p : Process) (c : Call) : p.Grows (p.make c) := by
  cases c with
  | parse tokens =>
      simp only [make]
      split
      · exact ⟨List.prefix_append _ _, List.prefix_rfl, List.prefix_rfl⟩
      · exact .refl p
  | resolve i =>
      simp only [make]
      split
      · exact ⟨List.prefix_rfl, List.prefix_append _ _, List.prefix_append _ _⟩
      · exact .refl p
  | interpret host fuel i =>
      simp only [make]
      split
      · exact ⟨List.prefix_rfl, List.prefix_rfl, List.prefix_rfl⟩
      · exact .refl p

theorem grows_foldl (p : Process) (calls : List Call) : p.Grows (calls.foldl make p) := by
  induction calls generalizing p with
  | nil => exact .refl p
  | cons c calls ih => exact (grows_make p c).trans (ih _)

theorem grows_after (calls later : List Call) : (after calls).Grows (after (calls ++ later)) := by
  rw [after, after, List.foldl_append]
  exact grows_foldl _ _

namespace Sound

variable {p : Process}

/-- An identity stands in one tree only. -/
theorem tree_eq (h : p.Sound) {i j id : Nat} {body tree : List Stmt} (hi : p.trees[i]? = some body)
    (hj : p.trees[j]? = some tree) (hid : id ∈ Stmt.listIds body) (hid' : id ∈ Stmt.listIds tree) :
    i = j := by
  obtain ⟨hi', rfl⟩ := List.getElem?_eq_some_iff.mp hi
  obtain ⟨hj', rfl⟩ := List.getElem?_eq_some_iff.mp hj
  have hdisjoint := List.pairwise_iff_getElem.mp (List.nodup_flatMap.mp h.fresh.nodup).2
  rcases Nat.lt_trichotomy i j with hlt | heq | hgt
  · exact absurd hid' (hdisjoint i j hi' hj' hlt hid)
  · exact heq
  · exact absurd hid (hdisjoint j i hj' hi' hgt hid')

theorem nodup_tree (h : p.Sound) {i : Nat} {body : List Stmt} (hi : p.trees[i]? = some body) :
    (Stmt.listIds body).Nodup :=
  (List.nodup_flatMap.mp h.fresh.nodup).1 body (List.mem_of_getElem? hi)

theorem nodup_notes (h : p.Sound) {i : Nat} {body : List Stmt} (hi : p.trees[i]? = some body) :
    ((Stmt.notes body).map Prod.fst).Nodup :=
  (h.nodup_tree hi).sublist (Stmt.notes_sublist body)

theorem mem_ids {id d : Nat} {body : List Stmt} (h : (id, d) ∈ Stmt.notes body) :
    id ∈ Stmt.listIds body :=
  (Stmt.notes_sublist body).subset (List.mem_map.mpr ⟨_, h, rfl⟩)

theorem mem_noted (h : p.Sound) {id d : Nat} : (id, d) ∈ p.noted ↔
    ∃ i ∈ p.resolved, ∃ body, p.trees[i]? = some body ∧ (id, d) ∈ Stmt.notes body := by
  rw [h.noted, List.mem_flatMap]
  refine exists_congr fun i => and_congr_right fun hi => ?_
  rw [List.getElem?_eq_getElem (h.bounds i hi)]
  simp

/-- Of an occurrence in a tree that is resolved, all that is noted is what the tree says. -/
theorem mem_noted_of_mem (h : p.Sound) {i id d : Nat} {body : List Stmt}
    (hi : p.trees[i]? = some body) (hid : id ∈ Stmt.listIds body) :
    (id, d) ∈ p.noted ↔ i ∈ p.resolved ∧ (id, d) ∈ Stmt.notes body := by
  rw [h.mem_noted]
  constructor
  · rintro ⟨j, hj, tree, htree, hd⟩
    obtain rfl := h.tree_eq hi htree hid (mem_ids hd)
    cases hi.symm.trans htree
    exact ⟨hj, hd⟩
  · rintro ⟨hr, hd⟩
    exact ⟨i, hr, body, hi, hd⟩

/-- Two notes of one identity say the same. -/
theorem notes_agree (h : p.Sound) {i id d d' : Nat} {body : List Stmt}
    (hi : p.trees[i]? = some body) (hd : (id, d) ∈ Stmt.notes body) (hd' : (id, d') ∈ p.noted) :
    d = d' := by
  have hd' := ((h.mem_noted_of_mem hi (mem_ids hd)).mp hd').2
  exact congrArg Prod.snd (List.inj_on_of_nodup_map (h.nodup_notes hi) hd hd' rfl)

theorem nodup_noted (h : p.Sound) (hr : p.resolved.Nodup) : (p.noted.map Prod.fst).Nodup := by
  rw [h.noted, List.map_flatMap]
  refine List.nodup_flatMap.mpr ⟨fun i hi => ?_, ?_⟩
  · rw [List.getElem?_eq_getElem (h.bounds i hi)]
    exact h.nodup_notes (List.getElem?_eq_getElem (h.bounds i hi))
  · refine (List.Pairwise.and_mem.mp hr).imp ?_
    rintro i j ⟨hi, hj, hne⟩ id hid hid'
    dsimp only at hid hid'
    have hi' := List.getElem?_eq_getElem (h.bounds i hi)
    have hj' := List.getElem?_eq_getElem (h.bounds j hj)
    rw [hi'] at hid
    rw [hj'] at hid'
    exact hne (h.tree_eq hi' hj' ((Stmt.notes_sublist _).subset hid)
      ((Stmt.notes_sublist _).subset hid'))

end Sound

theorem sound_start : Sound {} := by
  refine ⟨Grammar.Fresh.nil, fun i hi => (by cases hi), rfl, fun id d => ?_, store_of_start⟩
  simp [hops, Session.start, Machine.start]

/-- A tree that is returned bears identities that no tree before it bears. -/
theorem Sound.parse {p : Process} (h : p.Sound) {tokens : List Token} {q : Program} {s : Session}
    (hread : p.session.read? tokens = some (q, s)) :
    Sound { p with session := s, trees := p.trees ++ [q.statements] } := by
  obtain ⟨q', hq, he⟩ := Option.map_eq_some_iff.mp hread
  cases he
  obtain ⟨hle, hfresh⟩ := Grammar.fresh_of_ofTokens? hq
  refine ⟨?_, fun i hi => ?_, ?_, h.hops, h.functions.mono ?_⟩
  · rw [List.flatMap_append, List.flatMap_singleton]
    exact h.fresh.append hfresh (Nat.zero_le _) hle
  · rw [List.length_append]
    exact Nat.lt_add_right _ (h.bounds i hi)
  · refine h.noted.trans (List.flatMap_congr fun i hi => ?_)
    rw [List.getElem?_append_left (h.bounds i hi)]
  · rintro f ⟨i, body, hi, hf⟩
    exact ⟨i, body, getElem?_of_prefix (List.prefix_append _ _) hi, hf⟩

theorem Sound.resolve {p : Process} (h : p.Sound) {i : Nat} {body : List Stmt}
    (hi : p.trees[i]? = some body) :
    Sound { p with
      session := p.session.recordAll (Stmt.listFindings false [] body)
      resolved := p.resolved ++ [i]
      noted := p.noted ++ Stmt.notes body } := by
  refine ⟨h.fresh, fun j hj => ?_, ?_, fun id d => ?_, h.functions⟩
  · rcases List.mem_append.mp hj with hj | hj
    · exact h.bounds j hj
    · rw [List.mem_singleton.mp hj]
      exact (List.getElem?_eq_some_iff.mp hi).1
  · rw [List.flatMap_append, ← h.noted, List.flatMap_singleton, hi]
    rfl
  · have hget := Hops.getElem?_noteAll (t := p.hops) (h.nodup_notes hi)
      (fun id d d' hd hd' => h.notes_agree hi hd ((h.hops id d').mp hd')) id d
    rw [List.mem_append, ← h.hops, or_comm, ← hget, Stmt.notes, ← Hops.recordAll_eq_noteAll]
    rfl

theorem Sound.interpret {p : Process} (h : p.Sound) (host : Host) (fuel : Nat) {i : Nat}
    {body : List Stmt} (hi : p.trees[i]? = some body) :
    Sound { p with session := (p.session.interpret host fuel body).2 } := by
  have hmachine := p.session.machine_interpret host fuel body
  have hhops : (p.session.interpret host fuel body).2.machine.hops = p.session.machine.hops := by
    rw [hmachine]
    exact (runAll_keeps host fuel body p.session.ready).hops
  refine ⟨?_, h.bounds, h.noted, fun id d => ?_, ?_⟩
  · rw [Session.nextId_interpret]
    exact h.fresh
  · rw [Process.hops, hhops]
    exact h.hops id d
  · rw [hmachine]
    exact (runAll_carries p.declares_inherited host fuel fun f hf => ⟨i, body, hi, hf⟩).leaves
      h.functions

theorem Sound.make {p : Process} (h : p.Sound) (c : Call) : (p.make c).Sound := by
  cases c with
  | parse tokens =>
      simp only [Process.make]
      split
      · next hread => exact h.parse hread
      · exact h
  | resolve i =>
      simp only [Process.make]
      split
      · next hi => exact h.resolve hi
      · exact h
  | interpret host fuel i =>
      simp only [Process.make]
      split
      · next hi => exact h.interpret host fuel hi
      · exact h

theorem sound_after (calls : List Call) : (after calls).Sound := by
  have hfoldl (p : Process) (h : p.Sound) : (calls.foldl Process.make p).Sound := by
    induction calls generalizing p with
    | nil => exact h
    | cons c calls ih => exact ih _ (h.make c)
  exact hfoldl _ sound_start

/-- What is known of an occurrence in a tree that has been resolved is never known otherwise. -/
theorem Sound.hops_eq {p q : Process} (h : p.Sound) (hq : q.Sound) (hg : p.Grows q) {i id : Nat}
    {body : List Stmt} (hi : p.trees[i]? = some body) (hr : i ∈ p.resolved)
    (hid : id ∈ Stmt.listIds body) : q.hops[id]? = p.hops[id]? := by
  have hi' := getElem?_of_prefix hg.trees hi
  refine Option.ext fun d => ?_
  rw [hq.hops, h.hops, h.mem_noted_of_mem hi hid, hq.mem_noted_of_mem hi' hid,
    and_iff_right hr, and_iff_right (hg.resolved.subset hr)]

/-! ### Sessions are processes -/

/-- A session that runs a source text parses, resolves and interprets, as far as there are no faults,
and resolves no tree but the new one. -/
theorem exists_calls_of_run (calls : List Call) (host : Host) (fuel : Nat) (source : String) :
    ∃ more, (after (calls ++ more)).session = ((after calls).session.run host fuel source).2 ∧
      ((after calls).resolved.Nodup → (after (calls ++ more)).resolved.Nodup) := by
  have hbounds := (sound_after calls).bounds
  simp only [after, List.foldl_append] at hbounds ⊢
  generalize calls.foldl make {} = p at hbounds ⊢
  obtain ⟨tokens, htokens⟩ : ∃ tokens, (Source.items source).filterMap Source.Item.token? = tokens :=
    ⟨_, rfl⟩
  unfold Session.run Session.runTokens Session.accept
  simp only [htokens]
  split
  · exact ⟨[], rfl, id⟩
  cases hread : p.session.read? tokens with
  | none => exact ⟨[], rfl, id⟩
  | some r =>
      obtain ⟨q, s⟩ := r
      have hparse : p.make (.parse tokens) =
          { p with session := s, trees := p.trees ++ [q.statements] } := by
        simp only [make, hread]
      have htree : (p.trees ++ [q.statements])[p.trees.length]? = some q.statements := by simp
      have hnodup (hr : p.resolved.Nodup) : (p.resolved ++ [p.trees.length]).Nodup :=
        List.nodup_append.mpr ⟨hr, List.nodup_singleton _, fun i hi j hj => by
          rw [List.mem_singleton.mp hj]
          exact Nat.ne_of_lt (hbounds i hi)⟩
      cases hf : q.faults with
      | cons f fs => exact ⟨[.parse tokens], by simp [hparse, hf], by simp [hparse]⟩
      | nil =>
          obtain ⟨fs, hs⟩ : ∃ fs, (Stmt.listFindings false [] q.statements).filterMap
              Finding.fault? = fs := ⟨_, rfl⟩
          cases fs with
          | cons f fs =>
              refine ⟨[.parse tokens, .resolve p.trees.length], ?_, ?_⟩ <;>
                simp only [List.foldl_cons, List.foldl_nil, hparse]
              · simp [make, hf, Session.settle, hs]
              · simpa [make, htree] using hnodup
          | nil =>
              refine ⟨[.parse tokens, .resolve p.trees.length, .interpret host fuel p.trees.length],
                ?_, ?_⟩ <;> simp only [List.foldl_cons, List.foldl_nil, hparse]
              · simp [make, hf, Session.settle, hs]
              · simpa [make, htree] using hnodup

end Process

/-! ### Runs -/

/-- What is done, and in which machine, when a session interprets statements. -/
inductive Session.Interprets (host : Host) (fuel : Nat) (body : List Stmt) (s : Session) :
    Nat → Task → Machine → Prop
  | statement {front stmt back m} (hb : body = front ++ stmt :: back)
      (hm : runAll host fuel front s.ready = .ok () m) :
      Interprets host fuel body s fuel (.exec stmt) m
  | part {fuel' task m task' m'} (h : Interprets host fuel body s (fuel' + 1) task m)
      (ha : Task.Asks host fuel' task m task' m') : Interprets host fuel body s fuel' task' m'

theorem Task.Asks.hops {host : Host} {fuel : Nat} {task task' : Task} {m m' : Machine}
    (h : Asks host fuel task m task' m') : m'.hops = m.hops := by
  have hkeep := allKeep host fuel
  cases h with
  | call h hs _ _ => exact ((hkeep.evalAll _).ok hs).hops.trans ((hkeep.eval _).ok h).hops
  | right h | second h _ | arguments h | others h => exact ((hkeep.eval _).ok h).hops
  | rest h => exact ((hkeep.exec _).ok h).hops
  | body h => cases h; rfl
  | block h => cases h; rfl
  | yes h hs _ | no h hs _ | round h hs _ =>
      cases hs
      exact ((hkeep.eval _).ok h).hops
  | again h hs _ hb =>
      cases hs
      exact ((hkeep.exec _).ok hb).hops.trans ((hkeep.eval _).ok h).hops
  | _ => rfl

theorem Session.Interprets.hops {host : Host} {fuel : Nat} {body : List Stmt} {s : Session}
    {fuel' : Nat} {task : Task} {m : Machine} (h : s.Interprets host fuel body fuel' task m) :
    m.hops = s.machine.hops := by
  induction h with
  | statement _ hm => exact ((runAll_keeps host fuel _).ok hm).hops
  | part _ ha ih => exact ha.hops.trans ih

/-- **Stable hops.** Let a process parse, resolve and interpret whatever it likes, in any order and
with any faults. No two occurrences in all the trees that were returned bear the same identity, and no
identity is noted twice unless a tree is resolved twice. The table of hops is just what was noted, so
an entry stays as it is once it is written, and runs leave all entries alone at each of their moments.
Every function in the store was declared in one of the trees. When that tree has been resolved, runs
from then on find at each of their moments what the table says now, for all occurrences in the
function: those that have hops, and those that have none because they mean global variables. -/
theorem hops_are_stable (calls later : List Process.Call) :
    let p := Process.after calls
    let q := Process.after (calls ++ later)
    (p.trees.flatMap Stmt.listIds).Nodup ∧
    (p.resolved.Nodup → (p.noted.map Prod.fst).Nodup) ∧
    (∀ id d : Nat, p.hops[id]? = some d ↔ (id, d) ∈ p.noted) ∧
    (∀ id d : Nat, p.hops[id]? = some d → q.hops[id]? = some d) ∧
    (∀ host fuel body fuel' task m, q.session.Interprets host fuel body fuel' task m →
      m.hops = q.hops) ∧
    ∀ frame name c, p.session.machine.store.here? frame name = some (.closure c) →
      ∃ (i : Nat) (tree : List Stmt), p.trees[i]? = some tree ∧
        c.decl ∈ Stmt.listFunctions tree ∧
        (i ∈ p.resolved → ∀ host fuel body fuel' task m,
          q.session.Interprets host fuel body fuel' task m →
          ∀ id ∈ Stmt.functionIds c.decl, m.hops[id]? = p.hops[id]?) := by
  intro p q
  have hp : p.Sound := Process.sound_after calls
  have hq : q.Sound := Process.sound_after (calls ++ later)
  have hg : p.Grows q := Process.grows_after calls later
  refine ⟨hp.fresh.nodup, hp.nodup_noted, hp.hops, fun id d h => ?_,
    fun host fuel body fuel' task m h => h.hops, fun frame name c hc => ?_⟩
  · exact (hq.hops id d).mpr (hg.noted.subset ((hp.hops id d).mp h))
  · obtain ⟨i, tree, hi, hf⟩ : p.Declares c.decl := hp.functions hc
    refine ⟨i, tree, hi, hf, fun hr host fuel body fuel' task m h id hid => ?_⟩
    rw [h.hops]
    exact hp.hops_eq hq hg hi hr ((Stmt.listFunctions_inner tree hf).2 hid)

/-- A function of the first tree is called by the third one. The second tree is not run for its fault,
and the last one is resolved before the third, but not run. -/
def fourTrees : List Process.Call :=
  [.parse (Source.tokens "var g; \x7bvar a = true; fun f() \x7breturn a;\x7d g = f;\x7d"),
    .resolve 0, .interpret .still 20 0, .parse (Source.tokens "print a + ; \x7bvar b; b = b;\x7d"),
    .parse (Source.tokens "print g();"), .parse (Source.tokens "\x7bvar c; \x7bc;\x7d\x7d"),
    .resolve 3, .resolve 2, .interpret .still 20 2]

example : (Process.after fourTrees).trees.map Stmt.listIds = [[0, 2, 3], [6, 7], [8], [9]] ∧
    (Process.after fourTrees).noted = [(0, 1), (2, 0), (9, 1)] ∧
    (Process.after fourTrees).session.machine.printed = #["true"] := by decide +kernel

end Lox
