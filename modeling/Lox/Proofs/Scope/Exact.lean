import Mathlib.Data.List.Forall2
import Lox.Proofs.Scope.Covers
import Lox.Proofs.Scope.Recorded
import Lox.Proofs.Scope.Walk
import Lox.Session

/-!
The walk with scopes finds what follows from the mentions alone, and so there is a fault for each
mention that is at fault and no other. The invariant is that a scope has the names that were
declared in it before.
-/

namespace Lox

variable {before ms : List Mention} {around : List Enclosure} {ss ss' : Scopes} {path : Path}
  {m : Mention} {name : Token}

/-! ### Findings one after the other -/

/-- What there is to find where things are met one after the other. -/
def findingsAfter (before : List Mention) : List Mention → List Finding
  | [] => []
  | m :: ms => m.findings before ++ findingsAfter (before ++ [m]) ms

theorem findingsAfter_append (before ms ns : List Mention) :
    findingsAfter before (ms ++ ns) =
      findingsAfter before ms ++ findingsAfter (before ++ ms) ns := by
  induction ms generalizing before with
  | nil => simp [findingsAfter]
  | cons m ms ih =>
      rw [List.cons_append, findingsAfter, findingsAfter, ih, List.append_assoc, List.append_assoc,
        List.singleton_append]

theorem findingsAfter_eq (before ms : List Mention) :
    findingsAfter before ms =
      ms.zipIdx.flatMap fun p => p.1.findings (before ++ ms.take p.2) := by
  induction ms generalizing before with
  | nil => rfl
  | cons m ms ih =>
      rw [findingsAfter, ih, List.zipIdx_cons', List.flatMap_cons, List.flatMap_map]
      simp

/-- What is found depends on the declarations before only. -/
theorem Mention.findings_congr {before' : List Mention}
    (h : ∀ x e, DeclaredIn before x e ↔ DeclaredIn before' x e) (m : Mention) :
    m.findings before = m.findings before' := by
  simp only [Mention.findings, Mention.fault?, Mention.depth?, h]

theorem findingsAfter_plain (h : ∀ m ∈ ms, m.Plain around) :
    findingsAfter before ms = ms.flatMap (Mention.findings before) := by
  induction ms generalizing before with
  | nil => rfl
  | cons m ms ih =>
      have hm := h m List.mem_cons_self
      have hsame (x : String) (e : Enclosure) :
          DeclaredIn (before ++ [m]) x e ↔ DeclaredIn before x e := by
        simp [DeclaredIn, Mention.Declares, hm.role]
      rw [findingsAfter, ih fun n hn => h n (List.mem_cons_of_mem _ hn), List.flatMap_cons]
      congr 2
      funext n
      exact n.findings_congr hsame

/-! ### Scopes and what was declared in them -/

/-- Scope by scope, what the scopes have is what was declared in the blocks and bodies around. -/
def Tracks (before : List Mention) : List Enclosure → Scopes → Prop :=
  List.Forall₂ fun e s => ∀ x, (s.status? x).isSome ↔ DeclaredIn before x e

theorem declaredIn_append {ns : List Mention} {x : String} {e : Enclosure} :
    DeclaredIn (ms ++ ns) x e ↔ DeclaredIn ms x e ∨ DeclaredIn ns x e := by
  simp only [DeclaredIn, List.mem_append, or_and_right, exists_or]

namespace Tracks

theorem depth? (h : Tracks before around ss) (hm : m.around = around) :
    ss.depth? m.token = m.depth? before := by
  rw [Scopes.depth?, Mention.depth?, hm]
  clear hm
  induction h with
  | nil => rfl
  | @cons e s es ss hs _ ih =>
      rw [List.findIdx?_cons, List.findIdx?_cons, ih, Bool.eq_iff_iff.mpr ((hs m.token.lexeme).trans
        decide_eq_true_iff.symm)]

theorem isSome_here? (h : Tracks before around ss) (name : Token) :
    (ss.here? name).isSome ↔ ∃ e ∈ around.head?, DeclaredIn before name.lexeme e := by
  cases h with
  | nil => simp [Scopes.here?]
  | @cons e s es ss hs _ => simpa [Scopes.here?] using hs name.lexeme

theorem ne_nil (h : Tracks before around ss) : ss ≠ [] ↔ around ≠ [] := by
  cases h <;> simp

/-- What is declared elsewhere changes nothing. -/
theorem skip (h : Tracks before around ss) (hm : ∀ m ∈ ms, ∀ x, ∀ e ∈ around, ¬m.Declares x e) :
    Tracks (before ++ ms) around ss := by
  induction h with
  | nil => exact .nil
  | @cons e s es ss hs _ ih =>
      refine .cons (fun x => ?_) (ih fun m hm' x e he => hm m hm' x e (List.mem_cons_of_mem _ he))
      have hnone : ¬DeclaredIn ms x e := by
        rintro ⟨m, hm', hd⟩
        exact hm m hm' x e List.mem_cons_self hd
      rw [hs, declaredIn_append, or_iff_left hnone]

theorem plain (h : Tracks before around ss) (hm : ∀ m ∈ ms, m.Plain around) :
    Tracks (before ++ ms) around ss :=
  h.skip fun m hm' _ _ _ hd => (hm m hm').role hd.1

/-- A declaration adds its name to the innermost scope, with whatever status. -/
theorem mark (h : Tracks before around ss) (hn : around.Nodup) (name : Token) (status : Status) :
    Tracks (before ++ [⟨name, .declared, around⟩]) around (ss.mark name.lexeme status) := by
  cases h with
  | nil => exact .nil
  | @cons e s es ss hs h =>
      refine .cons (fun x => ?_) (Tracks.skip h fun m hm x e' he' hd => ?_)
      · rw [Scope.status?_cons]
        have hs := hs x
        by_cases hx : x = name.lexeme
        · subst hx
          simp [DeclaredIn, Mention.Declares]
        · simp only [if_neg hx, hs]
          simp [DeclaredIn, Mention.Declares, Ne.symm hx]
      · obtain rfl := List.mem_singleton.mp hm
        obtain rfl : e = e' := Option.some.inj hd.2.2
        exact (List.nodup_cons.mp hn).1 he'

/-- What is declared may be given another status. -/
theorem mark_again {x : String} {status status' : Status}
    (h : Tracks before around (ss.mark x status)) :
    Tracks before around ((ss.mark x status).mark x status') := by
  cases ss with
  | nil => exact h
  | cons s ss =>
      cases h with
      | cons hs h =>
          refine .cons (fun y => ?_) h
          rw [← hs, Scope.status?_cons, Scope.status?_cons]
          split <;> simp

end Tracks

/-! ### Where a statement stands -/

/-- The place is in none of the blocks and bodies that were met or are around. -/
def Unmet (before : List Mention) (around : List Enclosure) (path : Path) : Prop :=
  ∀ e, (e ∈ around ∨ ∃ m ∈ before, e ∈ m.around) → ¬path <:+ e.place

/-- The walk has come to a place with so many scopes open, and looks at no initial value. -/
structure Stands (before : List Mention) (around : List Enclosure) (ss : Scopes) (path : Path) :
    Prop where
  tracks : Tracks before around ss
  settled : ss.Settled
  nodup : around.Nodup
  unmet : Unmet before around path

namespace Stands

theorem deeper (h : Stands before around ss path) (i : Nat) :
    Stands before around ss (i :: path) :=
  { h with unmet := fun e he hp => h.unmet e he ((List.suffix_cons i path).trans hp) }

/-- A new scope is open at the place. -/
theorem enter (h : Stands before around ss path) {e : Enclosure} (he : e.place = path) (i : Nat) :
    Stands before (e :: around) ([] :: ss) (i :: path) where
  tracks := by
    refine .cons (fun x => ⟨fun hx => (by cases hx), fun ⟨m, hm, hd⟩ => ?_⟩) h.tracks
    have hunmet := h.unmet e (.inr ⟨m, hm, List.mem_of_mem_head? hd.2.2⟩)
    exact absurd (he ▸ List.suffix_rfl) hunmet
  settled := h.settled.push
  nodup := by
    refine List.nodup_cons.mpr ⟨fun hmem => h.unmet e (.inl hmem) ?_, h.nodup⟩
    exact he ▸ List.suffix_rfl
  unmet := by
    intro e' he' hp
    rcases he' with he' | he'
    · rcases List.mem_cons.mp he' with rfl | he'
      · exact ne_of_suffix hp he
      · exact (h.deeper i).unmet e' (.inl he') hp
    · exact (h.deeper i).unmet e' (.inr he') hp

/-- What was met inside another place leaves this one as it is. -/
theorem beside {i j : Nat} (h : Stands before around ss (j :: path))
    (hm : ∀ m ∈ ms, m.Inside around (i :: path)) (hij : i ≠ j)
    (ht : Tracks (before ++ ms) around ss') (hs : ss'.Settled) :
    Stands (before ++ ms) around ss' (j :: path) where
  tracks := ht
  settled := hs
  nodup := h.nodup
  unmet := by
    rintro e (he | ⟨m, hmem, he⟩) hp
    · exact h.unmet e (.inl he) hp
    rcases List.mem_append.mp hmem with hmem | hmem
    · exact h.unmet e (.inr ⟨m, hmem, he⟩) hp
    obtain ⟨inner, ha, hi⟩ := hm m hmem
    rw [ha] at he
    rcases List.mem_append.mp he with he | he
    · exact hij (eq_of_suffix (hi e he) hp)
    · exact h.unmet e (.inl he) hp

theorem plain (h : Stands before around ss path) (hm : ∀ m ∈ ms, m.Plain around) :
    Stands (before ++ ms) around ss path :=
  { h with
    tracks := h.tracks.plain hm
    unmet := by
      rintro e (he | ⟨m, hmem, he⟩) hp
      · exact h.unmet e (.inl he) hp
      rcases List.mem_append.mp hmem with hmem | hmem
      · exact h.unmet e (.inr ⟨m, hmem, he⟩) hp
      · exact h.unmet e (.inl ((hm m hmem).around ▸ he)) hp }

theorem declare (h : Stands before around ss path) (name : Token) :
    Stands (before ++ [⟨name, .declared, around⟩]) around ((ss.declare name).define name) path where
  tracks := (h.tracks.mark h.nodup name .declared).mark_again
  settled := h.settled.define name
  nodup := h.nodup
  unmet := by
    rintro e (he | ⟨m, hmem, he⟩) hp
    · exact h.unmet e (.inl he) hp
    rcases List.mem_append.mp hmem with hmem | hmem
    · exact h.unmet e (.inr ⟨m, hmem, he⟩) hp
    · obtain rfl := List.mem_singleton.mp hmem
      exact h.unmet e (.inl he) hp

/-- What is met in a block or a body at the place is declared in none of those around. -/
theorem skip (h : Stands before around ss path)
    (hm : ∀ m ∈ ms, ∃ e, path <:+ e.place ∧ m.Inside (e :: around) path) :
    Tracks (before ++ ms) around ss := by
  refine h.tracks.skip fun m hmem x e he hd => ?_
  obtain ⟨e', he', inner, ha, hi⟩ := hm m hmem
  refine h.unmet e (.inl he) ?_
  have hhead := hd.2.2
  rw [ha] at hhead
  cases inner with
  | nil =>
      obtain rfl := Option.some.inj hhead
      exact he'
  | cons e'' inner =>
      obtain rfl := Option.some.inj hhead
      exact hi _ List.mem_cons_self

end Stands

theorem plain_returning (keyword : Token) (around : List Enclosure) :
    ∀ m ∈ [(⟨keyword, .returning, around⟩ : Mention)], m.Plain around := by
  rintro m hm
  obtain rfl := List.mem_singleton.mp hm
  exact ⟨rfl, nofun⟩

theorem Stmt.tracks_after : (s : Stmt) → ∀ {before around ss path}, Stands before around ss path →
    Tracks (before ++ s.mentions around path) around (ss.after s)
  | .expression e, _, around, _, _, h | .print e, _, around, _, _, h =>
      h.tracks.plain (Expr.plain_mentions around none e)
  | .returning keyword none, _, around, _, _, h =>
      h.tracks.plain (plain_returning keyword around)
  | .returning keyword (some e), _, around, _, _, h => by
      have hkeyword := h.plain (plain_returning keyword around)
      have hvalue := hkeyword.tracks.plain (Expr.plain_mentions around none e)
      rwa [List.append_assoc] at hvalue
  | .var name none, _, _, _, _, h => (h.declare name).tracks
  | .var name (some e), _, around, _, _, h => by
      have hvalue := (h.declare name).tracks.plain (Expr.plain_mentions around (some name) e)
      rwa [List.append_assoc] at hvalue
  | .block body, _, around, _, path, h => h.skip fun m hm =>
      ⟨.block path, List.suffix_rfl,
        Stmt.inside_listMentions (.block path :: around) path 0 body m hm⟩
  | .conditional c yes none, _, around, _, path, h => by
      have hc := h.plain (Expr.plain_mentions around none c)
      have hyes := Stmt.tracks_after yes (hc.deeper 0)
      rwa [List.append_assoc] at hyes
  | .conditional c yes (some no), _, around, _, path, h => by
      have hc := h.plain (Expr.plain_mentions around none c)
      have hyes := Stmt.tracks_after yes (hc.deeper 0)
      have hno := Stmt.tracks_after no ((hc.deeper 1).beside
        (Stmt.inside_mentions around (0 :: path) yes) (by decide) hyes (hc.settled.after yes))
      rw [Stmt.mentions, ← List.append_assoc, ← List.append_assoc]
      exact hno
  | .whileLoop c body, _, around, _, path, h => by
      have hc := h.plain (Expr.plain_mentions around none c)
      have hbody := Stmt.tracks_after body (hc.deeper 0)
      rwa [List.append_assoc] at hbody
  | .function decl, _, around, _, path, h => by
      have hskip := (h.declare decl.name).skip fun m hm =>
        ⟨.body path, List.suffix_rfl, Stmt.inside_functionMentions around path decl m hm⟩
      rwa [List.append_assoc] at hskip
  | .classDecl name methods, _, around, _, path, h => by
      have hskip := (h.declare name).skip fun m hm =>
        have ⟨j, hj⟩ := Stmt.inside_methodMentions around path 0 methods m hm
        ⟨.body (j :: path), List.suffix_cons j path, hj.outward (List.suffix_cons j path)⟩
      rwa [List.append_assoc] at hskip

/-! ### Expressions -/

/-- A name is without its initial value exactly where that value is looked at. -/
def Awaits (around : List Enclosure) (initializes : Option Token) (ss : Scopes) : Prop :=
  ∀ name : Token, ss.here? name = some .declared ↔
    around ≠ [] ∧ ∃ n ∈ initializes, n.lexeme = name.lexeme

theorem Scopes.Settled.awaits (h : ss.Settled) (around : List Enclosure) :
    Awaits around none ss := by
  intro name
  simp only [Option.not_mem_none, false_and, exists_false, and_false, iff_false]
  cases ss with
  | nil => nofun
  | cons s ss => exact h s List.mem_cons_self name.lexeme

theorem Stands.awaits (h : Stands before around ss path) (name : Token) :
    Awaits around (some name) (ss.declare name) := by
  intro n
  rw [← h.tracks.ne_nil]
  cases ss with
  | nil => simp [Scopes.declare, Scopes.mark, Scopes.here?]
  | cons s ss =>
      have hs := h.settled s List.mem_cons_self n.lexeme
      simp only [Scopes.declare, Scopes.mark, Scopes.here?, List.head?_cons, Option.bind_some,
        Scope.status?_cons, ne_eq, reduceCtorEq, not_false_eq_true, true_and, Option.mem_def,
        Option.some.injEq, exists_eq_left']
      split
      · next hn => simp [hn]
      · next hn => simp [hs, Ne.symm hn]

section

variable {initializes : Option Token}

mutual

theorem Expr.findings_mentions (ht : Tracks before around ss) (ha : Awaits around initializes ss) :
    (e : Expr) →
      e.findings ss = (e.mentions around initializes).flatMap (Mention.findings before)
  | .literal _ => rfl
  | .grouping e | .unary _ e => Expr.findings_mentions ht ha e
  | .binary l _ r | .logical l _ r => by
      simp only [Expr.findings, Expr.mentions, List.flatMap_append, Expr.findings_mentions ht ha l,
        Expr.findings_mentions ht ha r]
  | .read id name => by
      have hdepth := ht.depth? (m := ⟨name, .read id initializes, around⟩) rfl
      simp only [Expr.findings, readFault, settle, hdepth, ha name, Expr.mentions,
        List.flatMap_singleton, Mention.findings, Mention.fault?, Mention.id?]
      congr 1
      split <;> rfl
  | .assign id name e => by
      have hdepth := ht.depth? (m := ⟨name, .assigned id, around⟩) rfl
      simp only [Expr.findings, Expr.mentions, List.flatMap_append, Expr.findings_mentions ht ha e,
        settle, hdepth, List.flatMap_singleton]
      rfl
  | .call callee _ args => by
      simp only [Expr.findings, Expr.mentions, List.flatMap_append,
        Expr.findings_mentions ht ha callee, Expr.findings_listMentions ht ha args]

theorem Expr.findings_listMentions (ht : Tracks before around ss)
    (ha : Awaits around initializes ss) : (es : List Expr) →
      Expr.listFindings ss es =
        (Expr.listMentions around initializes es).flatMap (Mention.findings before)
  | [] => rfl
  | e :: es => by
      simp only [Expr.listFindings, Expr.listMentions, List.flatMap_append,
        Expr.findings_mentions ht ha e, Expr.findings_listMentions ht ha es]

end

theorem Expr.findings_after (ht : Tracks before around ss) (ha : Awaits around initializes ss)
    (e : Expr) : e.findings ss = findingsAfter before (e.mentions around initializes) := by
  rw [findingsAfter_plain (Expr.plain_mentions around initializes e)]
  exact Expr.findings_mentions ht ha e

end

/-! ### Declarations and returns -/

theorem Tracks.declareFault (h : Tracks before around ss) (name : Token) :
    declareFault ss name = findingsAfter before [⟨name, .declared, around⟩] := by
  rw [Lox.declareFault]
  simp only [h.isSome_here? name, findingsAfter, Mention.findings, Mention.fault?, Mention.id?]
  split <;> rfl

theorem returnFault_eq (keyword : Token) (around : List Enclosure) (before : List Mention) :
    returnFault (around.any Enclosure.isBody) keyword =
      findingsAfter before [⟨keyword, .returning, around⟩] := by
  simp only [returnFault, findingsAfter, Mention.findings, Mention.fault?, Mention.id?,
    List.any_eq_true]
  split <;> rfl

theorem Stands.params (h : Stands before around ss path) (params : List Token) :
    paramFindings ss params =
        findingsAfter before (params.map (⟨·, .declared, around⟩)) ∧
      Stands (before ++ params.map (⟨·, .declared, around⟩)) around (ss.bindParams params)
        path := by
  induction params generalizing before ss with
  | nil => exact ⟨rfl, by simpa [Scopes.bindParams] using h⟩
  | cons p ps ih =>
      obtain ⟨hf, hs⟩ := ih (h.declare p)
      rw [List.append_assoc] at hs
      refine ⟨?_, hs⟩
      rw [paramFindings, hf, h.tracks.declareFault]
      exact (findingsAfter_append before [⟨p, .declared, around⟩] _).symm

/-! ### Statements -/

mutual

theorem Stmt.findings_after : (s : Stmt) → ∀ {before around ss path},
    Stands before around ss path →
      s.findings (around.any Enclosure.isBody) ss = findingsAfter before (s.mentions around path)
  | .expression e, _, around, _, _, h | .print e, _, around, _, _, h =>
      Expr.findings_after h.tracks (h.settled.awaits around) e
  | .var name none, _, _, _, _, h => h.tracks.declareFault name
  | .var name (some e), before, around, ss, _, h => by
      have he := Expr.findings_after (h.tracks.mark h.nodup name .declared) (h.awaits name) e
      rw [Stmt.findings, h.tracks.declareFault, Scopes.declare, he]
      exact (findingsAfter_append before [⟨name, .declared, around⟩] _).symm
  | .block body, before, around, ss, path, h =>
      Stmt.listFindings_after 0 body fun j _ => h.enter (e := .block path) rfl j
  | .conditional c yes none, before, around, ss, path, h => by
      have hc := h.plain (Expr.plain_mentions around none c)
      rw [Stmt.findings, Stmt.mentions, findingsAfter_append,
        Expr.findings_after h.tracks (h.settled.awaits around) c,
        Stmt.findings_after yes (hc.deeper 0)]
  | .conditional c yes (some no), before, around, ss, path, h => by
      have hc := h.plain (Expr.plain_mentions around none c)
      have hyes := (hc.deeper 1).beside (Stmt.inside_mentions around (0 :: path) yes) (by decide)
        (Stmt.tracks_after yes (hc.deeper 0)) (hc.settled.after yes)
      rw [Stmt.findings, Stmt.mentions, findingsAfter_append, findingsAfter_append,
        Expr.findings_after h.tracks (h.settled.awaits around) c,
        Stmt.findings_after yes (hc.deeper 0), ← List.append_assoc, Stmt.findings_after no hyes]
  | .whileLoop c body, before, around, ss, path, h => by
      have hc := h.plain (Expr.plain_mentions around none c)
      rw [Stmt.findings, Stmt.mentions, findingsAfter_append,
        Expr.findings_after h.tracks (h.settled.awaits around) c,
        Stmt.findings_after body (hc.deeper 0)]
  | .function decl, before, around, ss, path, h => by
      rw [Stmt.findings, h.tracks.declareFault,
        Stmt.functionFindings_after decl (h.declare decl.name)]
      exact (findingsAfter_append before [⟨decl.name, .declared, around⟩] _).symm
  | .returning keyword none, before, around, ss, path, h => returnFault_eq keyword around before
  | .returning keyword (some e), before, around, ss, path, h => by
      have hkeyword := h.plain (plain_returning keyword around)
      rw [Stmt.findings, returnFault_eq keyword around before,
        Expr.findings_after hkeyword.tracks (h.settled.awaits around) e]
      exact (findingsAfter_append before [⟨keyword, .returning, around⟩] _).symm
  | .classDecl name methods, before, around, ss, path, h => by
      rw [Stmt.findings, h.tracks.declareFault,
        Stmt.methodFindings_after 0 methods fun j _ => (h.declare name).deeper j]
      exact (findingsAfter_append before [⟨name, .declared, around⟩] _).symm

theorem Stmt.listFindings_after (i : Nat) : (body : List Stmt) → ∀ {before around ss path},
    (∀ j, i ≤ j → Stands before around ss (j :: path)) →
      Stmt.listFindings (around.any Enclosure.isBody) ss body =
        findingsAfter before (Stmt.listMentions around path i body)
  | [], _, _, _, _, _ => rfl
  | s :: rest, before, around, ss, path, h => by
      have hi := h i (Nat.le_refl i)
      have hrest := Stmt.listFindings_after (i + 1) rest fun j hj =>
        (h j (Nat.le_of_succ_le hj)).beside (Stmt.inside_mentions around (i :: path) s)
          (Nat.ne_of_lt hj) (Stmt.tracks_after s hi) (hi.settled.after s)
      rw [Stmt.listFindings, Stmt.listMentions, findingsAfter_append, Stmt.findings_after s hi,
        hrest]

theorem Stmt.functionFindings_after : (f : Function) → ∀ {before around ss path},
    Stands before around ss path →
      Stmt.functionFindings ss f = findingsAfter before (Stmt.functionMentions around path f)
  | ⟨_, params, body⟩, before, around, ss, path, h => by
      have hbody := Stmt.listFindings_after 0 body fun j _ =>
        ((h.enter (e := .body path) rfl j).params params).2
      rw [Stmt.functionFindings, Stmt.functionMentions, findingsAfter_append,
        ((h.enter (e := .body path) rfl 0).params params).1]
      exact congrArg _ hbody

theorem Stmt.methodFindings_after (i : Nat) : (fs : List Function) → ∀ {before around ss path},
    (∀ j, i ≤ j → Stands before around ss (j :: path)) →
      Stmt.methodFindings ss fs = findingsAfter before (Stmt.methodMentions around path i fs)
  | [], _, _, _, _, _ => rfl
  | f :: fs, before, around, ss, path, h => by
      have hi := h i (Nat.le_refl i)
      have hinside :
          ∀ m ∈ Stmt.functionMentions around (i :: path) f, m.Inside around (i :: path) :=
        fun m hm => (Stmt.inside_functionMentions around (i :: path) f m hm).leave List.suffix_rfl
      have hskip := hi.skip fun m hm =>
        ⟨.body (i :: path), List.suffix_rfl, Stmt.inside_functionMentions around (i :: path) f m hm⟩
      have hrest := Stmt.methodFindings_after (i + 1) fs fun j hj =>
        (h j (Nat.le_of_succ_le hj)).beside hinside (Nat.ne_of_lt hj) hskip hi.settled
      rw [Stmt.methodFindings, Stmt.methodMentions, findingsAfter_append,
        Stmt.functionFindings_after f hi, hrest]

end

theorem Stands.start (path : Path) : Stands [] [] [] path where
  tracks := .nil
  settled := .nil
  nodup := .nil
  unmet := by simp [Unmet]

/-- What is found on the walk through a program is what there is to find where things are met. -/
theorem Stmt.listFindings_walk (body : List Stmt) :
    Stmt.listFindings false [] body = findingsAfter [] (Stmt.walk body) :=
  Stmt.listFindings_after 0 body fun j _ => Stands.start [j]

/-! ### Faults -/

theorem Mention.filterMap_fault_findings (before : List Mention) (m : Mention) :
    (m.findings before).filterMap Finding.fault? = (m.fault? before).toList := by
  rw [Mention.findings, List.filterMap_append]
  cases m.fault? before <;> cases m.id? <;> rfl

/-- The faults of a program are those of what is met on the walk through it, in this order: one for
each declaration of a name that was declared in the same block or body before, one for each read
that helps to find the initial value of the local variable it reads, and one for each return outside
all functions and methods. -/
theorem each_violation_is_found_once (s : Session) (p : Program) :
    (s.settle p).1 = (Stmt.walk p.statements).zipIdx.filterMap fun q =>
      q.1.fault? ((Stmt.walk p.statements).take q.2) := by
  rw [Session.settle, Stmt.listFindings_walk, findingsAfter_eq, List.filterMap_flatMap,
    List.filterMap_eq_flatMap_toList]
  simp only [Mention.filterMap_fault_findings, List.nil_append]

-- The second declaration is at fault, and so are both initial values.
example :
    let a : Token := ⟨.identifier, "a", 1⟩
    let body : List Stmt := [.var a (some (.read 0 a)), .var a (some (.read 1 a))]
    (Session.start.settle ⟨[.block body], [], 2⟩).1 =
      [⟨1, .ownInitializer "a"⟩, ⟨1, .redeclared "a"⟩, ⟨1, .ownInitializer "a"⟩] := by
  decide

end Lox
