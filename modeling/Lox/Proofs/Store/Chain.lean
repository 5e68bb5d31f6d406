import Lox.Machine.Request
import Lox.Proofs.Scope.Covers

/-!
The two ways to a variable: looking through the frames on the way out until one binds the name, and
going straight to the frame a number of links out. In every store that requests lead to, the one
does what the other does with the right number.
-/

namespace Lox.Store

variable {s : Store} {r : Request} {f g d : Nat} {fs : List Nat} {name : String} {v : Value}

/-- The stores that requests lead to. Every frame that a request names was opened before. -/
inductive Reached : Store → Prop
  | empty : Reached {}
  | step {s : Store} {r : Request} (h : Reached s) (hr : ∀ f ∈ r.frame?, f < s.size) :
      Reached (s.answer r).2

/-- The frames from a frame outwards, up to a root. -/
inductive Chain (s : Store) : Nat → List Nat → Prop
  | root {f : Nat} (h : s.enclosing? f = none) : Chain s f [f]
  | link {f g : Nat} {fs : List Nat} (h : s.enclosing? f = some g) (hc : Chain s g fs) :
      Chain s f (f :: fs)

def Binds (s : Store) (name : String) (f : Nat) : Prop := (s.here? f name).isSome

instance (s : Store) (name : String) (f : Nat) : Decidable (s.Binds name f) :=
  inferInstanceAs (Decidable ((s.here? f name).isSome = true))

/-- The first frame of a chain that binds the name is the one a number of links out. -/
structure Nearest (s : Store) (fs : List Nat) (name : String) (d f : Nat) : Prop where
  at_hops : fs[d]? = some f
  binds : s.Binds name f
  first : ∀ g ∈ fs.take d, ¬ s.Binds name g

/-! ### Links lead to earlier frames -/

def Rooted (s : Store) : Prop := ∀ f g, s.enclosing? f = some g → g < f

theorem Rooted.define (h : s.Rooted) (frame : Nat) (name : String) (v : Value) :
    (s.define frame name v).Rooted := by
  intro f g hl
  rw [enclosing?_define] at hl
  exact h f g hl

theorem Rooted.push (h : s.Rooted) {enclosing : Option Nat} (he : ∀ g ∈ enclosing, g < s.size) :
    (s.push enclosing).Rooted := by
  intro f g hl
  rw [enclosing?_push] at hl
  split at hl
  · next hf => exact hf ▸ he g hl
  · exact h f g hl

/-- Whatever a store is asked, it is left as it was, with one frame more or with one name bound. -/
theorem answer_cases (s : Store) (r : Request) :
    (s.answer r).2 = s ∨ (∃ enclosing, (∀ g ∈ enclosing, r.frame? = some g) ∧
      (s.answer r).2 = s.push enclosing) ∨ ∃ f name v, (s.answer r).2 = s.define f name v := by
  cases r with
  | root => exact .inr (.inl ⟨none, by simp, rfl⟩)
  | child f => exact .inr (.inl ⟨some f, by simp [Request.frame?], rfl⟩)
  | define f name v => exact .inr (.inr ⟨f, name, v, rfl⟩)
  | get | getAt => exact .inl rfl
  | assign f name v line =>
      simp only [answer, changed, assign?]
      cases s.binder? f name with
      | none => exact .inl rfl
      | some g => exact .inr (.inr ⟨g, name, v, rfl⟩)
  | assignAt f hops name v line =>
      simp only [answer, changed, assignAt?]
      cases s.ancestor? hops f with
      | none => exact .inl rfl
      | some g => exact .inr (.inr ⟨g, name, v, rfl⟩)

theorem Reached.rooted (h : s.Reached) : s.Rooted := by
  induction h with
  | empty => intro f g hl; simp [enclosing?] at hl
  | @step s r _ hr ih =>
      rcases answer_cases s r with hs | ⟨enclosing, he, hs⟩ | ⟨f, name, v, hs⟩ <;> rw [hs]
      · exact ih
      · exact ih.push fun g hg => hr g (he g hg)
      · exact ih.define f name v

/-! ### Walks along a chain -/

theorem Rooted.exists_chain (h : s.Rooted) (f : Nat) : ∃ fs, s.Chain f fs ∧ fs.length ≤ f + 1 := by
  induction f using Nat.strongRecOn with
  | ind f ih =>
      cases hl : s.enclosing? f with
      | none => exact ⟨[f], .root hl, Nat.le_add_left 1 f⟩
      | some g =>
          have hlt := h f g hl
          obtain ⟨fs, hc, hle⟩ := ih g hlt
          exact ⟨f :: fs, .link hl hc, by rw [List.length_cons]; omega⟩

theorem Chain.unique {fs' : List Nat} (h : s.Chain f fs) (h' : s.Chain f fs') : fs' = fs := by
  induction h generalizing fs' with
  | root hl =>
      cases h' with
      | root => rfl
      | link hl' => cases hl.symm.trans hl'
  | link hl _ ih =>
      cases h' with
      | root hl' => cases hl.symm.trans hl'
      | link hl' h' =>
          cases hl.symm.trans hl'
          rw [ih h']

/-- The chain of a frame is as it was as long as the links are. -/
theorem Chain.congr {t : Store} (h : s.Chain f fs) (hl : ∀ g, t.enclosing? g = s.enclosing? g) :
    t.Chain f fs := by
  induction h with
  | root h => exact .root ((hl _).trans h)
  | link h _ ih => exact .link ((hl _).trans h) ih

theorem Chain.ancestor? (h : s.Chain f fs) (d : Nat) : s.ancestor? d f = fs[d]? := by
  induction h generalizing d with
  | root hl => cases d <;> simp [Store.ancestor?, hl]
  | link hl _ ih => cases d <;> simp [Store.ancestor?, hl, ih]

/-- With fuel for the whole chain, the search finds the first frame that binds the name. -/
theorem Chain.go_eq (h : s.Chain f fs) {fuel : Nat} (hle : fs.length ≤ fuel) (name : String) :
    binder?.go s name fuel f = fs.find? fun g => (s.here? g name).isSome := by
  induction h generalizing fuel with
  | root hl =>
      cases fuel with
      | zero => simp at hle
      | succ fuel => simp [binder?.go, hl, List.find?_cons]; split <;> simp_all
  | link hl _ ih =>
      cases fuel with
      | zero => simp at hle
      | succ fuel =>
          rw [List.length_cons, Nat.add_le_add_iff_right] at hle
          rw [binder?.go, hl, Option.bind_some, ih hle, List.find?_cons]
          split <;> simp_all

theorem Chain.binder? (h : s.Chain f fs) (hr : s.Rooted) (hf : f < s.size) (name : String) :
    s.binder? f name = fs.find? fun g => (s.here? g name).isSome := by
  obtain ⟨fs', h', hle⟩ := hr.exists_chain f
  obtain rfl := h.unique h'
  exact h.go_eq (Nat.le_trans hle hf) name

theorem find?_eq_none_iff :
    fs.find? (fun g => (s.here? g name).isSome) = none ↔ ∀ g ∈ fs, ¬ s.Binds name g :=
  List.find?_eq_none

theorem find?_eq_some_iff :
    fs.find? (fun g => (s.here? g name).isSome) = some f ↔ ∃ d, s.Nearest fs name d f := by
  rw [List.find?_eq_some_iff_getElem]
  constructor
  · rintro ⟨hb, d, hd, rfl, hfirst⟩
    refine ⟨d, List.getElem?_eq_getElem hd, hb, fun g hg => ?_⟩
    obtain ⟨i, hi, rfl⟩ := List.mem_take_iff_getElem.mp hg
    simpa [Binds] using hfirst i (by omega)
  · rintro ⟨d, h⟩
    obtain ⟨hd, rfl⟩ := List.getElem?_eq_some_iff.mp h.at_hops
    refine ⟨h.binds, d, hd, rfl, fun i hi => ?_⟩
    have hg := h.first fs[i] (List.mem_take_iff_getElem.mpr ⟨i, by omega, rfl⟩)
    simpa [Binds] using hg

theorem exists_binds_iff : (∃ g ∈ fs, s.Binds name g) ↔ ∃ d g, s.Nearest fs name d g := by
  constructor
  · intro hb
    cases hp : fs.find? fun g => (s.here? g name).isSome with
    | none =>
        obtain ⟨g, hg, hb⟩ := hb
        exact absurd hb (find?_eq_none_iff.mp hp g hg)
    | some g =>
        obtain ⟨d, hn⟩ := find?_eq_some_iff.mp hp
        exact ⟨d, g, hn⟩
  · rintro ⟨d, g, hn⟩
    exact ⟨g, List.mem_of_getElem? hn.at_hops, hn.binds⟩

theorem Binds.lt_size (h : s.Binds name f) : f < s.size := by
  refine Nat.lt_of_not_le fun hle => ?_
  rw [Binds, here?_of_le hle] at h
  cases h

/-! ### What is seen after a change -/

section

variable (hr : s.Rooted) (hc : s.Chain f fs) (hf : f < s.size)

include hr hc hf

theorem Nearest.binder? (hn : s.Nearest fs name d g) : s.binder? f name = some g :=
  (hc.binder? hr hf name).trans (find?_eq_some_iff.mpr ⟨d, hn⟩)

theorem binder?_eq_none (hn : ∀ g ∈ fs, ¬ s.Binds name g) : s.binder? f name = none :=
  (hc.binder? hr hf name).trans (find?_eq_none_iff.mpr hn)

/-- A variable that is bound already keeps its frame when it is given another value. -/
theorem binder?_define (hb : s.Binds name g) (v : Value) (x : String) :
    (s.define g name v).binder? f x = s.binder? f x := by
  have hc' : (s.define g name v).Chain f fs := hc.congr fun g => enclosing?_define ..
  rw [hc.binder? hr hf, hc'.binder? (hr.define g name v) (by rwa [size_define])]
  congr 1
  funext g'
  rw [here?_define s hb.lt_size]
  split
  · next h => obtain ⟨rfl, rfl⟩ := h; rw [Option.isSome_some]; exact hb.symm
  · rfl

/-- Those who find the variable in that frame find the new value, and nobody else sees a change. -/
theorem get?_define (hb : s.Binds name g) (v : Value) (x : String) :
    (s.define g name v).get? f x =
      if s.binder? f x = some g ∧ x = name then some v else s.get? f x := by
  rw [get?, get?, binder?_define hr hc hf hb]
  cases s.binder? f x with
  | none => simp
  | some g' =>
      rw [Option.bind_some, Option.bind_some, here?_define s hb.lt_size]
      simp [eq_comm]

theorem Nearest.read (hn : s.Nearest fs name d g) (line : Nat) :
    (∃ u, s.answer (.get f name line) = (.ok (.value u), s)) ∧
      s.answer (.get f name line) = s.answer (.getAt f d name line) := by
  obtain ⟨u, hu⟩ := Option.isSome_iff_exists.mp hn.binds
  have hget : s.get? f name = some u := by rw [get?, hn.binder? hr hc hf, Option.bind_some, hu]
  have hgetAt : s.getAt? f d name = some u := by
    rw [getAt?, hc.ancestor?, hn.at_hops, Option.bind_some, hu]
  exact ⟨⟨u, by rw [answer, hget]; rfl⟩, by rw [answer, answer, hget, hgetAt]⟩

theorem Nearest.assigned (hn : s.Nearest fs name d g) (v : Value) (line : Nat) :
    s.answer (.assign f name v line) = (.ok .done, s.define g name v) ∧
      s.answer (.assign f name v line) = s.answer (.assignAt f d name v line) := by
  have hassign : s.assign? f name v = some (s.define g name v) := by
    rw [assign?, hn.binder? hr hc hf, Option.map_some]
  have hassignAt : s.assignAt? f d name v = some (s.define g name v) := by
    rw [assignAt?, hc.ancestor?, hn.at_hops, Option.map_some]
  exact ⟨by rw [answer, hassign]; rfl, by rw [answer, answer, hassign, hassignAt]⟩

/-- The new value is read where the frame is the nearest one with the name, and only there. -/
theorem read_define (hb : s.Binds name g) (v : Value) (x : String) (line : Nat) :
    ((∃ d, s.Nearest fs x d g) ∧ x = name →
      ((s.define g name v).answer (.get f x line)).1 = .ok (.value v)) ∧
    (¬ ((∃ d, s.Nearest fs x d g) ∧ x = name) →
      ((s.define g name v).answer (.get f x line)).1 = (s.answer (.get f x line)).1) := by
  have hfinds : s.binder? f x = some g ↔ ∃ d, s.Nearest fs x d g := by
    rw [hc.binder? hr hf, find?_eq_some_iff]
  have hget := get?_define hr hc hf hb v x
  refine ⟨fun hx => ?_, fun hx => ?_⟩
  · rw [answer, hget, if_pos ⟨hfinds.mpr hx.1, hx.2⟩]
    rfl
  · rw [answer, answer, hget, if_neg fun h => hx ⟨hfinds.mp h.1, h.2⟩]
    rfl

theorem walk_fails (hn : ∀ g ∈ fs, ¬ s.Binds name g) (v : Value) (line : Nat) :
    s.answer (.get f name line) = (.error ⟨line, .undefinedVariable name⟩, s) ∧
      s.answer (.assign f name v line) = (.error ⟨line, .undefinedVariable name⟩, s) := by
  have hb := binder?_eq_none hr hc hf hn
  exact ⟨by rw [answer, get?, hb]; rfl, by rw [answer, assign?, hb]; rfl⟩

end

theorem Chain.hops_fail (hc : s.Chain f fs) (hd : fs.length ≤ d) (name : String) (v : Value)
    (line : Nat) :
    s.answer (.getAt f d name line) = (.error ⟨line, .undefinedVariable name⟩, s) ∧
      s.answer (.assignAt f d name v line) = (.error ⟨line, .undefinedVariable name⟩, s) := by
  have ha : s.ancestor? d f = none := (hc.ancestor? d).trans (List.getElem?_eq_none hd)
  exact ⟨by rw [answer, getAt?, ha]; rfl, by rw [answer, assignAt?, ha]; rfl⟩

/-! ### Walks and hops -/

/-- In every store that requests lead to, each frame has one chain. Looking for a name along it finds
the name if and only if a frame of the chain binds it; then both a read and an assignment do what
they do with the number of links to the nearest of these frames. After the assignment the new value
is read from wherever that frame is the nearest one with the name, and all else is read as before.
If no frame of the chain binds the name, or if there are more hops than links, the store is left as
it was and the fault is that of an undefined variable. -/
theorem walks_agree_with_hops (h : s.Reached) (hf : f < s.size) (name : String) (v : Value)
    (line : Nat) : ∃ fs, s.Chain f fs ∧ (∀ fs', s.Chain f fs' → fs' = fs) ∧
    ((∃ u, s.answer (.get f name line) = (.ok (.value u), s)) ↔ ∃ g ∈ fs, s.Binds name g) ∧
    ((∃ t, s.answer (.assign f name v line) = (.ok .done, t)) ↔ ∃ g ∈ fs, s.Binds name g) ∧
    ((∃ g ∈ fs, s.Binds name g) ↔ ∃ d g, s.Nearest fs name d g) ∧
    (∀ d g, s.Nearest fs name d g →
      s.answer (.get f name line) = s.answer (.getAt f d name line) ∧
      s.answer (.assign f name v line) = s.answer (.assignAt f d name v line) ∧
      ∀ f' < s.size, ∀ fs', s.Chain f' fs' → ∀ x line',
        ((∃ d', s.Nearest fs' x d' g) ∧ x = name →
          ((s.answer (.assign f name v line)).2.answer (.get f' x line')).1 = .ok (.value v)) ∧
        (¬ ((∃ d', s.Nearest fs' x d' g) ∧ x = name) →
          ((s.answer (.assign f name v line)).2.answer (.get f' x line')).1 =
            (s.answer (.get f' x line')).1)) ∧
    ((∀ g ∈ fs, ¬ s.Binds name g) →
      s.answer (.get f name line) = (.error ⟨line, .undefinedVariable name⟩, s) ∧
      s.answer (.assign f name v line) = (.error ⟨line, .undefinedVariable name⟩, s)) ∧
    ∀ d, fs.length ≤ d →
      s.answer (.getAt f d name line) = (.error ⟨line, .undefinedVariable name⟩, s) ∧
      s.answer (.assignAt f d name v line) = (.error ⟨line, .undefinedVariable name⟩, s) := by
  have hr := h.rooted
  obtain ⟨fs, hc, -⟩ := hr.exists_chain f
  have hfails (hn : ¬ ∃ g ∈ fs, s.Binds name g) := walk_fails hr hc hf (by simpa using hn) v line
  refine ⟨fs, hc, fun fs' => hc.unique, ⟨fun ⟨u, hu⟩ => ?_, fun hb => ?_⟩,
    ⟨fun ⟨t, ht⟩ => ?_, fun hb => ?_⟩, exists_binds_iff, fun d g hn => ?_,
    fun hn => walk_fails hr hc hf hn v line, fun d hd => hc.hops_fail hd name v line⟩
  · refine Classical.byContradiction fun hn => ?_
    cases hu.symm.trans (hfails hn).1
  · obtain ⟨d, g, hn⟩ := exists_binds_iff.mp hb
    exact (hn.read hr hc hf line).1
  · refine Classical.byContradiction fun hn => ?_
    cases ht.symm.trans (hfails hn).2
  · obtain ⟨d, g, hn⟩ := exists_binds_iff.mp hb
    exact ⟨_, (hn.assigned hr hc hf v line).1⟩
  · obtain ⟨hassign, hagree⟩ := hn.assigned hr hc hf v line
    refine ⟨(hn.read hr hc hf line).2, hagree, fun f' hf' fs' hc' x line' => ?_⟩
    rw [hassign]
    exact read_define hr hc' hf' hn.binds v x line'

def nestedRequests : List Request :=
  [.root, .child 0, .child 1, .define 0 "a" .nil, .define 2 "a" .nil]

def nested : Store := nestedRequests.foldl (fun s r => (s.answer r).2) {}

/-- The frame in the middle has its name from the root, which the innermost one hides. -/
theorem nested_assigned_from_the_middle :
    nested.answer (.assign 1 "a" (.boolean true) 1) =
      nested.answer (.assignAt 1 1 "a" (.boolean true) 1) ∧
    ((nested.answer (.assign 1 "a" (.boolean true) 1)).2.answer (.get 0 "a" 1)).1 =
      .ok (.value (.boolean true)) ∧
    ((nested.answer (.assign 1 "a" (.boolean true) 1)).2.answer (.get 2 "a" 1)).1 =
      .ok (.value .nil) := by
  have hreached : nested.Reached :=
    ((((Reached.empty.step (r := .root) (by decide)).step (r := .child 0) (by decide)).step
      (r := .child 1) (by decide)).step (r := .define 0 "a" .nil) (by decide)).step
        (r := .define 2 "a" .nil) (by decide)
  obtain ⟨fs, hc, hu, -, -, -, hn, -⟩ := walks_agree_with_hops hreached (f := 1) (by decide)
    "a" (.boolean true) 1
  obtain rfl : [1, 0] = fs := hu [1, 0] (.link (by decide) (.root (by decide)))
  obtain ⟨-, hagree, hread⟩ := hn 1 0 ⟨rfl, by decide +kernel, by decide +kernel⟩
  have hroot := hread 0 (by decide) [0] (.root (by decide)) "a" 1
  have hinner := hread 2 (by decide) [2, 1, 0]
    (.link (by decide) (.link (by decide) (.root (by decide)))) "a" 1
  refine ⟨hagree, hroot.1 ⟨⟨0, rfl, by decide +kernel, by decide⟩, rfl⟩, (hinner.2 ?_).trans rfl⟩
  rintro ⟨⟨d, hd⟩, -⟩
  have hfound := find?_eq_some_iff.mpr ⟨d, hd⟩
  exact absurd hfound (by decide +kernel)

end Lox.Store
