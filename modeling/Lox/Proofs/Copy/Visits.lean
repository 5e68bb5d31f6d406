import Lox.Proofs.Copy.Relined
import Lox.Proofs.Copy.Sessions
import Lox.Proofs.Run.Chronicle
import Lox.Proofs.Source.Joined

/-!
Programs that may not be run leave no trace. A caller who runs programs, looks at global variables,
evaluates expressions and calls functions is told the same, whether or not somewhere in between a
program was looked at and turned down.
-/

namespace Lox

/-! ### Expressions made by hand -/

mutual

def Expr.renumbered (f : Nat → Nat) : Expr → Expr
  | .literal l => .literal l
  | .grouping e => .grouping (e.renumbered f)
  | .unary op e => .unary op (e.renumbered f)
  | .binary l op r => .binary (l.renumbered f) op (r.renumbered f)
  | .logical l op r => .logical (l.renumbered f) op (r.renumbered f)
  | .read id name => .read (f id) name
  | .assign id name e => .assign (f id) name (e.renumbered f)
  | .call callee paren args => .call (callee.renumbered f) paren (Expr.listRenumbered f args)

def Expr.listRenumbered (f : Nat → Nat) : List Expr → List Expr
  | [] => []
  | e :: es => e.renumbered f :: Expr.listRenumbered f es

end

/-- An expression made by hand. Its occurrences are numbered below `count`, and the notes say for
some of the numbers how many frames out the variable is. -/
structure Sketch where
  expr : Expr
  count : Nat
  notes : List (Nat × Nat)
  numbered : ∀ i ∈ expr.ids, i < count
  noted : ∀ n ∈ notes, n.1 < count

def Sketch.findings (e : Sketch) (firstId : Nat) : List Finding :=
  e.notes.map fun n => .settled (firstId + n.1) "" (some n.2)

/-- The expression with fresh identities, its notes taken down. -/
def Session.draw (e : Sketch) (s : Session) : Expr × Session :=
  (e.expr.renumbered (s.nextId + ·),
    recordAll (e.findings s.nextId) { s with nextId := s.nextId + e.count })

/-! ### What a caller does and is told -/

/-- A host whose clock stands still, with no further functions. -/
def Host.still : Host := ⟨fun _ => 0, fun _ _ => .error ""⟩

/-- A value that a caller has at hand: a plain one, that of a global variable, or one that was given
as an answer, the last one being the first. What is not there counts as nil. -/
inductive Operand
  | literal (l : Literal)
  | global (name : String)
  | given (n : Nat)

inductive Step
  | run (host : Host) (fuel : Nat) (source : String)
  | global (name : String)
  | evaluate (host : Host) (fuel : Nat) (e : Sketch)
  | call (host : Host) (fuel : Nat) (callee : Operand) (args : List Operand) (line : Nat)

inductive Reply
  | outcome (o : Outcome)
  | found (v : Option Value)
  | answer (a : Session.Answer)
  | notCallable (v : Value)

/-- A session with the values that it has given as answers. -/
structure Visit where
  session : Session
  given : List Value

/-- A reply and what can be seen of the session then. -/
structure Sight where
  reply : Reply
  printed : Array String
  result : String
  lastFault : Option RuntimeFault

def Session.Answer.unnumbered : Session.Answer → Session.Answer
  | .value v => .value v.unnumbered
  | a => a

/-- A reply up to the identities in the functions that are given. -/
def Reply.unnumbered : Reply → Reply
  | .outcome o => .outcome o
  | .found v => .found (v.map Value.unnumbered)
  | .answer a => .answer a.unnumbered
  | .notCallable v => .notCallable v.unnumbered

namespace Visit

def start : Visit := ⟨.start, []⟩

def operand (v : Visit) : Operand → Value
  | .literal l => .ofLiteral l
  | .global name => (v.session.global? name).getD .nil
  | .given n => v.given[n]?.getD .nil

def answered (v : Visit) : Session.Answer × Session → Reply × Visit
  | (.value u, s) => (.answer (.value u), ⟨s, u :: v.given⟩)
  | (a, s) => (.answer a, ⟨s, v.given⟩)

def step (v : Visit) : Step → Reply × Visit
  | .run host fuel source =>
    let r := v.session.run host fuel source
    (.outcome r.1, ⟨r.2, v.given⟩)
  | .global name =>
    let u := v.session.global? name
    (.found u, ⟨v.session, u.toList ++ v.given⟩)
  | .evaluate host fuel e =>
    let (x, s) := v.session.draw e
    v.answered (s.evaluate host fuel x)
  | .call host fuel callee args line =>
    match (v.operand callee).callable? with
    | none => (.notCallable (v.operand callee), v)
    | some c => v.answered (v.session.call host fuel c (args.map v.operand) line)

def sight (r : Reply × Visit) : Sight :=
  ⟨r.1.unnumbered, r.2.session.machine.printed, r.2.session.result, r.2.session.lastFault⟩

/-- What the caller sees step by step. -/
def sights : List Step → Visit → List Sight
  | [], _ => []
  | st :: sts, v => sight (v.step st) :: sights sts (v.step st).2

def after (steps : List Step) : Visit := steps.foldl (fun v st => (v.step st).2) start

end Visit

/-! ### Expressions drawn in a session and in a copy -/

section

variable {same : Nat → Nat → Prop} {f g : Nat → Nat}

mutual

theorem Expr.copy_renumbered : (e : Expr) → (∀ i ∈ e.ids, same (f i) (g i)) →
    (e.renumbered f).Copy (.inPlace same) (e.renumbered g)
  | .literal l, _ => .literal l
  | .grouping e, h => .grouping (Expr.copy_renumbered e h)
  | .unary op e, h => .unary op (Expr.copy_renumbered e h)
  | .binary l op r, h =>
      .binary op (Expr.copy_renumbered l fun i hi => h i (List.mem_append_left _ hi))
        (Expr.copy_renumbered r fun i hi => h i (List.mem_append_right _ hi))
  | .logical l op r, h =>
      .logical op (Expr.copy_renumbered l fun i hi => h i (List.mem_append_left _ hi))
        (Expr.copy_renumbered r fun i hi => h i (List.mem_append_right _ hi))
  | .read id name, h => .read name (h id List.mem_cons_self)
  | .assign id name e, h =>
      .assign name (h id (List.mem_append_right _ List.mem_cons_self))
        (Expr.copy_renumbered e fun i hi => h i (List.mem_append_left _ hi))
  | .call callee paren args, h =>
      .call paren (Expr.copy_renumbered callee fun i hi => h i (List.mem_append_left _ hi))
        (Expr.listCopy_renumbered args fun i hi => h i (List.mem_append_right _ hi))

theorem Expr.listCopy_renumbered : (es : List Expr) → (∀ i ∈ Expr.listIds es, same (f i) (g i)) →
    Expr.ListCopy (.inPlace same) (Expr.listRenumbered f es) (Expr.listRenumbered g es)
  | [], _ => .nil
  | e :: es, h =>
      .cons (Expr.copy_renumbered e fun i hi => h i (List.mem_append_left _ hi))
        (Expr.listCopy_renumbered es fun i hi => h i (List.mem_append_right _ hi))

end

end

/-- What is found leaves an identity alone of which nothing is found. -/
theorem Hops.recordAll_of_forall {fs : List Finding} {i : Nat}
    (h : ∀ f ∈ fs, ∀ t : Hops, (f.record t)[i]? = t[i]?) (t : Hops) :
    (t.recordAll fs)[i]? = t[i]? := by
  induction fs generalizing t with
  | nil => rfl
  | cons f fs ih =>
      exact (ih (fun g hg => h g (List.mem_cons_of_mem f hg)) _).trans (h f List.mem_cons_self t)

theorem Sketch.recordAll_findings (e : Sketch) (t : Hops) {firstId i : Nat}
    (hi : firstId + e.count ≤ i) : (t.recordAll (e.findings firstId))[i]? = t[i]? := by
  refine Hops.recordAll_of_forall (fun f hf t => ?_) t
  obtain ⟨n, hn, rfl⟩ := List.mem_map.mp hf
  have hlt := e.noted n hn
  have hne : firstId + n.1 ≠ i := by omega
  simp only [Finding.record, Std.TreeMap.getElem?_insert, Nat.compare_eq_eq, if_neg hne]

theorem mem_zip_range' {m n count i : Nat} (hi : i < count) :
    (m + i, n + i) ∈ (List.range' m count).zip (List.range' n count) := by
  refine List.mem_iff_getElem.mpr ⟨i, by simpa using hi, ?_⟩
  simp

theorem Session.Copy.draw {same : Nat → Nat → Prop} {s s' : Session}
    (h : s.Copy (.inPlace same) s') (e : Sketch) : ∃ same',
      (Copying.inPlace same).Sub (.inPlace same') ∧
        (s.draw e).1.Copy (.inPlace same') (s'.draw e).1 ∧
        (s.draw e).2.Copy (.inPlace same') (s'.draw e).2 := by
  have hzip {i : Nat} (hi : i < e.count) : ((Copying.inPlace same).extend
      (List.range' s.nextId e.count) (List.range' s'.nextId e.count)).same
        (s.nextId + i) (s'.nextId + i) := .inr (mem_zip_range' hi)
  refine ⟨_, (Copying.inPlace same).sub_extend _ _,
    Expr.copy_renumbered e.expr fun i hi => hzip (e.numbered i hi), ?_⟩
  refine h.record (Nat.le_add_right _ _) (Nat.le_add_right _ _) List.nodup_range' List.nodup_range'
    (fun i hi => List.mem_range'_1.mp hi) (fun j hj => List.mem_range'_1.mp hj) ?_
    (fun i hi => e.recordAll_findings _ hi) fun j hj => e.recordAll_findings _ hj
  rw [FindingsCopy, Sketch.findings, Sketch.findings, List.forall₂_map_left_iff,
    List.forall₂_map_right_iff]
  exact List.forall₂_same.mpr fun n hn => .settled _ _ (hzip (e.noted n hn))

/-! ### A visit and a copy of it -/

theorem Machine.Copy.global? {k : Copying} {m m' : Machine} (h : m.Copy k m') (name : String) :
    Option.Rel (Value.Copy k) (m.store.get? globals name) (m'.store.get? globals name) := by
  rw [Store.get?, Store.get?, h.store.binder?]
  cases m.store.binder? globals name with
  | none => exact .none
  | some frame => exact h.store.values frame name

theorem Value.Copy.getD {k : Copying} {o o' : Option Value} (h : Option.Rel (Value.Copy k) o o') :
    (o.getD .nil).Copy k (o'.getD .nil) := by
  cases h with
  | none => exact .nil
  | some h => exact h

theorem forall₂_getElem? {α β : Type} {R : α → β → Prop} {as : List α} {bs : List β}
    (h : List.Forall₂ R as bs) (n : Nat) : Option.Rel R as[n]? bs[n]? := by
  induction h generalizing n with
  | nil => exact .none
  | cons hab _ ih =>
      cases n with
      | zero => exact .some hab
      | succ n => exact ih n

structure Visit.Copy (same : Nat → Nat → Prop) (v v' : Visit) : Prop where
  session : v.session.Copy (.inPlace same) v'.session
  given : List.Forall₂ (Value.Copy (.inPlace same)) v.given v'.given

/-- In place, a copy is the same up to identities. -/
theorem Value.Copy.unnumbered_eq {same : Nat → Nat → Prop} {v v' : Value}
    (h : v.Copy (.inPlace same) v') : v'.unnumbered = v.unnumbered := by
  rw [h.unnumbered, Value.relined_id]

theorem Fault.relined_id {κ : Type} (e : Fault κ) : e.relined (fun l => l) = e := rfl

theorem Outcome.relined_id (o : Outcome) : o.relined (fun l => l) = o := by
  have hmap {κ : Type} (fs : List (Fault κ)) : fs.map (Fault.relined fun l => l) = fs :=
    List.map_id fs
  rcases o with _ | (fs | fs | fs | f) | _
  · rfl
  · exact congrArg (fun fs => Outcome.failed (.lex fs)) (hmap fs)
  · exact congrArg (fun fs => Outcome.failed (.parse fs)) (hmap fs)
  · exact congrArg (fun fs => Outcome.failed (.resolve fs)) (hmap fs)
  · rfl
  · rfl

theorem Session.Answer.Copy.unnumbered_eq {same : Nat → Nat → Prop} {a a' : Session.Answer}
    (h : a.Copy (.inPlace same) a') : a'.unnumbered = a.unnumbered := by
  cases h with
  | value h => exact congrArg Session.Answer.value h.unnumbered_eq
  | fault f => rfl
  | unfinished => rfl

/-- A source text runs the same in a session and in a copy. -/
theorem Session.Copy.run {same : Nat → Nat → Prop} {s s' : Session}
    (h : s.Copy (.inPlace same) s') (host : Host) (fuel : Nat) (source : String) :
    ∃ same', (Copying.inPlace same).Sub (.inPlace same') ∧
      (s'.run host fuel source).1 = (s.run host fuel source).1 ∧
      (s.run host fuel source).2.Copy (.inPlace same') (s'.run host fuel source).2 := by
  unfold Session.run
  dsimp only
  split
  · exact ⟨same, .refl _, rfl, h⟩
  · obtain ⟨⟨same', line'⟩, hk, ho, hs⟩ := h.runTokens host fuel (Source.tokens_ne_nil source)
    obtain rfl : line' = fun l => l := hk.line
    rw [show (Source.tokens source).map (Token.relined fun l => l) = Source.tokens source from
      List.map_id _] at ho hs
    rw [Outcome.relined_id] at ho
    exact ⟨same', hk, ho, hs⟩

namespace Visit.Copy

variable {same : Nat → Nat → Prop} {v v' : Visit}

theorem operand (h : v.Copy same v') (o : Operand) :
    (v.operand o).Copy (.inPlace same) (v'.operand o) := by
  cases o with
  | literal l => exact .ofLiteral l
  | global name => exact .getD (h.session.machine.global? name)
  | given n => exact .getD (forall₂_getElem? h.given n)

theorem sight {same' : Nat → Nat → Prop} {r r' : Reply × Visit}
    (h : r'.1.unnumbered = r.1.unnumbered) (hv : r.2.Copy same' r'.2) :
    Visit.sight r' = Visit.sight r := by
  have hlast : r'.2.session.lastFault = r.2.session.lastFault :=
    hv.session.lastFault.trans Option.map_id'
  rw [Visit.sight, Visit.sight, h, hv.session.machine.printed, hlast]
  exact congrArg (Sight.mk _ _ · _) hv.session.machine.result

theorem answered (h : v.Copy same v') {same' : Nat → Nat → Prop}
    (hk : (Copying.inPlace same).Sub (.inPlace same')) {r r' : Session.Answer × Session}
    (ha : r.1.Copy (.inPlace same') r'.1) (hs : r.2.Copy (.inPlace same') r'.2) :
    (v'.answered r').1.unnumbered = (v.answered r).1.unnumbered ∧
      (v.answered r).2.Copy same' (v'.answered r').2 := by
  obtain ⟨a, s⟩ := r
  obtain ⟨a', s'⟩ := r'
  have hgiven := h.given.imp fun _ _ hv => hv.mono hk
  refine ⟨?_, ?_⟩
  · have hu := Session.Answer.Copy.unnumbered_eq ha
    cases ha <;> exact congrArg Reply.answer hu
  · cases ha with
    | value hv => exact ⟨hs, .cons hv hgiven⟩
    | fault f => exact ⟨hs, hgiven⟩
    | unfinished => exact ⟨hs, hgiven⟩

/-- Whatever is done to a session and to a copy, the caller is told the same. -/
theorem step (h : v.Copy same v') (st : Step) : ∃ same',
    Visit.sight (v'.step st) = Visit.sight (v.step st) ∧
      (v.step st).2.Copy same' (v'.step st).2 := by
  cases st with
  | run host fuel source =>
      obtain ⟨same', hk, ho, hs⟩ := h.session.run host fuel source
      have hv : Visit.Copy same' (v.step (.run host fuel source)).2
          (v'.step (.run host fuel source)).2 := ⟨hs, h.given.imp fun _ _ hv => hv.mono hk⟩
      exact ⟨same', sight (congrArg Reply.outcome ho) hv, hv⟩
  | global name =>
      have hg : Option.Rel (Value.Copy (.inPlace same)) (v.session.global? name)
          (v'.session.global? name) := h.session.machine.global? name
      refine ⟨same, ?_⟩
      unfold Visit.step
      dsimp only
      generalize v.session.global? name = o, v'.session.global? name = o' at hg ⊢
      cases hg with
      | none => exact ⟨sight rfl h, h⟩
      | some hu =>
          have hv : Visit.Copy same ⟨v.session, _ :: v.given⟩ ⟨v'.session, _ :: v'.given⟩ :=
            ⟨h.session, .cons hu h.given⟩
          exact ⟨sight (congrArg (fun u => Reply.found (some u)) hu.unnumbered_eq) hv, hv⟩
  | evaluate host fuel e =>
      obtain ⟨same', hk, he, hs⟩ := h.session.draw e
      obtain ⟨ha, ht⟩ := hs.perform ((allRepeat _ host fuel).eval he)
      obtain ⟨hreply, hv⟩ := h.answered hk ha ht
      exact ⟨same', sight hreply hv, hv⟩
  | call host fuel callee args line =>
      have hc := (h.operand callee).callable?
      have hcallee := (h.operand callee).unnumbered_eq
      refine ⟨same, ?_⟩
      unfold Visit.step
      dsimp only
      generalize (v.operand callee).callable? = o, (v'.operand callee).callable? = o' at hc ⊢
      cases hc with
      | none => exact ⟨sight (congrArg Reply.notCallable hcallee) h, h⟩
      | some hc =>
          have hargs : List.Forall₂ (Value.Copy (.inPlace same)) (args.map v.operand)
              (args.map v'.operand) := by
            rw [List.forall₂_map_left_iff, List.forall₂_map_right_iff]
            exact List.forall₂_same.mpr fun o _ => h.operand o
          obtain ⟨ha, ht⟩ := h.session.perform ((allRepeat _ host fuel).apply line hc hargs)
          obtain ⟨hreply, hv⟩ := h.answered (.refl _) ha ht
          exact ⟨sight hreply hv, hv⟩

theorem sights (h : v.Copy same v') (steps : List Step) :
    Visit.sights steps v' = Visit.sights steps v := by
  induction steps generalizing same v v' with
  | nil => rfl
  | cons st steps ih =>
      obtain ⟨same', hsight, hv⟩ := h.step st
      rw [Visit.sights, Visit.sights, hsight, ih hv]

theorem start : Visit.start.Copy (fun _ _ => False) Visit.start where
  session := {
    machine := {
      store := Store.Copy.define
        (Store.Copy.push ⟨rfl, fun _ => rfl, fun _ _ => .none⟩ none) globals clock.name .clock
      hops := fun _ _ h => h.elim
      current := rfl
      callDepth := rfl
      printed := rfl
      last := .none
      nextClosure := rfl
      steps := rfl }
    lastFault := rfl
    unique := fun h => h.elim
    below := fun h => h.elim
    fresh := fun _ _ => rfl
    fresh' := fun _ _ => rfl }
  given := .nil

/-- What is reached step by step is its own copy. -/
theorem after (steps : List Step) : ∃ same, (Visit.after steps).Copy same (Visit.after steps) := by
  have hfoldl (v : Visit) (h : ∃ same, v.Copy same v) :
      ∃ same, (steps.foldl (fun v st => (v.step st).2) v).Copy same
        (steps.foldl (fun v st => (v.step st).2) v) := by
    induction steps generalizing v with
    | nil => exact h
    | cons st steps ih =>
        obtain ⟨same, h⟩ := h
        obtain ⟨same', -, h⟩ := h.step st
        exact ih _ ⟨same', h⟩
  exact hfoldl _ ⟨_, start⟩

end Visit.Copy

end Lox
