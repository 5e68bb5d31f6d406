import Lox.Proofs.Run.Tape
import Lox.Proofs.Scope.Covers

/-!
What the past of a tape says of activations and variables: the way outwards from an activation, and
which value a variable was given last.
-/

namespace Lox

namespace Past

variable {past past' : Past} {a b c f g : Nat} {p q : Path} {x : String}

@[simp] theorem entered?_entered (past : Past) (a : Nat) (p : Path) (o : Origin) (b : Nat) :
    entered? (.entered a p o :: past) b = if a = b then some (p, o) else past.entered? b := by
  simp only [entered?, List.findSome?_cons]
  split <;> simp_all

@[simp] theorem maker?_made (past : Past) (f : Nat) (p : Path) (a : Nat) (g : Nat) :
    maker? (.made f p a :: past) g = if f = g then some (p, a) else past.maker? g := by
  simp only [maker?, List.findSome?_cons]
  split <;> simp_all

/-- What is known of the activations and functions of the past stays known. -/
structure Keeps (past past' : Past) : Prop where
  entry : ∀ a e, past.entered? a = some e → past'.entered? a = some e
  maker : ∀ f e, past.maker? f = some e → past'.maker? f = some e

theorem Keeps.refl (past : Past) : past.Keeps past := ⟨fun _ _ => id, fun _ _ => id⟩

theorem Keeps.trans {past'' : Past} (h : past.Keeps past') (h' : past'.Keeps past'') :
    past.Keeps past'' :=
  ⟨fun a e he => h'.entry a e (h.entry a e he), fun f e he => h'.maker f e (h.maker f e he)⟩

theorem Keeps.entered (h : past.entered? a = none) (p : Path) (o : Origin) :
    past.Keeps (.entered a p o :: past) := by
  refine ⟨fun b e he => ?_, fun f e he => he⟩
  rw [entered?_entered, if_neg, he]
  rintro rfl
  rw [h] at he
  cases he

theorem Keeps.made (h : past.maker? f = none) (p : Path) (a : Nat) :
    past.Keeps (.made f p a :: past) := by
  refine ⟨fun b e he => he, fun g e he => ?_⟩
  rw [maker?_made, if_neg, he]
  rintro rfl
  rw [h] at he
  cases he

/-! ### The way outwards -/

/-- One step outwards: from a block to the activation that executed it, from a call to the one that
the function called belongs to. -/
inductive Outwards (past : Past) : Nat → Nat → Prop
  | block {a b : Nat} {p : Path} (h : past.entered? a = some (p, .block b)) : Outwards past a b
  | call {a b f : Nat} {p q : Path} (h : past.entered? a = some (p, .call f))
      (hm : past.maker? f = some (q, b)) : Outwards past a b

/-- On the way outwards from an activation, the first one of a scope. -/
inductive Leads (past : Past) (scope : Path) : Nat → Nat → Prop
  | here {a : Nat} {o : Origin} (h : past.entered? a = some (scope, o)) : Leads past scope a a
  | out {a b c : Nat} {p : Path} {o : Origin} (h : past.entered? a = some (p, o)) (hp : p ≠ scope)
      (ho : Outwards past a b) (hl : Leads past scope b c) : Leads past scope a c

theorem Outwards.mono (h : past.Outwards a b) (hk : past.Keeps past') : past'.Outwards a b := by
  cases h with
  | block h => exact .block (hk.entry _ _ h)
  | call h hm => exact .call (hk.entry _ _ h) (hk.maker _ _ hm)

theorem Leads.mono (h : past.Leads p a b) (hk : past.Keeps past') : past'.Leads p a b := by
  induction h with
  | here h => exact .here (hk.entry _ _ h)
  | out h hp ho _ ih => exact .out (hk.entry _ _ h) hp (ho.mono hk) ih

theorem Outwards.unique (h : past.Outwards a b) (h' : past.Outwards a c) : b = c := by
  cases h with
  | block h =>
      cases h' with
      | block h' => cases h.symm.trans h'; rfl
      | call h' => cases h.symm.trans h'
  | call h hm =>
      cases h' with
      | block h' => cases h.symm.trans h'
      | call h' hm' =>
          cases h.symm.trans h'
          cases hm.symm.trans hm'
          rfl

theorem Leads.unique (h : past.Leads p a b) (h' : past.Leads p a c) : b = c := by
  induction h generalizing c with
  | here h =>
      cases h' with
      | here => rfl
      | out h' hp => cases h.symm.trans h'; exact absurd rfl hp
  | out h hp ho _ ih =>
      cases h' with
      | here h' => cases h.symm.trans h'; exact absurd rfl hp
      | out h' _ ho' hl' =>
          cases ho.unique ho'
          exact ih hl'

theorem Leads.entry (h : past.Leads p a b) : ∃ o, past.entered? b = some (p, o) := by
  induction h with
  | here h => exact ⟨_, h⟩
  | out _ _ _ _ ih => exact ih

end Past

/-! ### Frames and the way outwards -/

/-- The links of a frame follow the way outwards through activations of the given scopes. -/
inductive Lies (st : Store) (past : Past) : Nat → List Path → Prop
  | root : Lies st past globals []
  | inside {f g : Nat} {p : Path} {o : Origin} {ps : List Path} (hl : st.enclosing? f = some g)
      (he : past.entered? f = some (p, o)) (ho : past.Outwards f g)
      (hp : ∀ q ∈ ps, q.length < p.length) (h : Lies st past g ps) : Lies st past f (p :: ps)

namespace Lies

variable {st st' : Store} {past past' : Past} {f d : Nat} {p : Path} {ps : List Path}

theorem mono (h : Lies st past f ps) (hg : st.Grows st') (hk : past.Keeps past') :
    Lies st' past' f ps := by
  induction h with
  | root => exact .root
  | inside hl he ho hp _ ih =>
      exact .inside (hg.enclosing? hl) (hk.entry _ _ he) (ho.mono hk) hp ih

theorem innermost (h : Lies st past f ps) (hp : p ∈ ps.head?) :
    ∃ o, past.entered? f = some (p, o) := by
  cases h with
  | root => cases hp
  | inside _ he => cases hp; exact ⟨_, he⟩

/-- As many links out as there are scopes on the way is the activation of the scope. -/
theorem leads (h : Lies st past f ps) (hd : ps[d]? = some p) :
    ∃ g, st.ancestor? d f = some g ∧ past.Leads p f g := by
  induction h generalizing d with
  | root => simp at hd
  | @inside f g q o qs hl he ho hq h ih =>
      cases d with
      | zero =>
          cases hd
          exact ⟨f, rfl, .here he⟩
      | succ d =>
          rw [List.getElem?_cons_succ] at hd
          obtain ⟨g', hg', hlead⟩ := ih hd
          refine ⟨g', by rw [Store.ancestor?, hl]; exact hg', .out he ?_ ho hlead⟩
          rintro rfl
          exact Nat.lt_irrefl _ (hq _ (List.mem_of_getElem? hd))

end Lies

/-! ### Occurrences -/

/-- An occurrence of a variable at the moment at which it is evaluated. -/
structure Occurrence where
  activation : Nat
  id : Nat
  name : Token
  machine : Machine

namespace Occurrence

/-- How many frames out the variable is, unless it is a global one. -/
def hops? (o : Occurrence) : Option Nat := o.machine.hops[o.id]?

def frame? (o : Occurrence) : Option Nat := o.machine.frameOf? o.id o.name.lexeme

def value? (o : Occurrence) : Option Value :=
  o.frame?.bind (o.machine.store.here? · o.name.lexeme)

end Occurrence

namespace Event

def occurrence? : Event → Option Occurrence
  | .read a id name m => some ⟨a, id, name, m⟩
  | .assigned a id name _ m => some ⟨a, id, name, m⟩
  | _ => none

/-- The value that an event gives to a name in a frame. -/
def writes? (frame : Nat) (x : String) : Event → Option Value
  | .bound a name v => if a = frame ∧ name = x then some v else none
  | .assigned _ id name v m =>
    if m.frameOf? id name.lexeme = some frame ∧ name.lexeme = x then some v else none
  | _ => none

end Event

/-- The value that a name in a frame was given last. -/
def Past.written? (past : Past) (frame : Nat) (x : String) : Option Value :=
  past.findSome? (Event.writes? frame x)

namespace Past

variable {past : Past} {st : Store} {f g : Nat} {x : String} {v : Value}

theorem written?_cons (e : Event) (past : Past) (f : Nat) (x : String) :
    written? (e :: past) f x = (e.writes? f x).or (past.written? f x) := by
  rw [written?]
  rw [List.findSome?_cons]
  cases e.writes? f x <;> rfl

theorem written?_bound (h : g < st.size) (name : String) (v : Value)
    (hw : st.here? f x = past.written? f x) :
    (st.define g name v).here? f x = written? (.bound g name v :: past) f x := by
  rw [Store.here?_define st h, written?_cons, Event.writes?, hw]
  split <;> rfl

theorem written?_assigned {a id : Nat} {name : Token} {m : Machine} (h : g < st.size) (v : Value)
    (hm : m.frameOf? id name.lexeme = some g) (hw : st.here? f x = past.written? f x) :
    (st.define g name.lexeme v).here? f x = written? (.assigned a id name v m :: past) f x := by
  rw [Store.here?_define st h, written?_cons, Event.writes?, hw, hm]
  simp only [Option.some.injEq]
  split <;> rfl

end Past

end Lox
