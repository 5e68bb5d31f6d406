import Lox.Machine.State

/-!
How the scopes of a place in a program and the frames of a running machine agree: there are as many
of the ones as of the others, and what a scope defines its frame binds.
-/

namespace Lox

/-! ### Stores that grow -/

namespace Store

/-- Nothing that a store holds is lost: links stay and names stay bound. -/
structure Grows (st st' : Store) : Prop where
  size : st.size ≤ st'.size
  links : ∀ f < st.size, st'.enclosing? f = st.enclosing? f
  bound : ∀ f x, (st.here? f x).isSome → (st'.here? f x).isSome

variable {st st' st'' : Store} {f g : Nat} {name : String} {v : Value}

theorem Grows.refl (st : Store) : st.Grows st := ⟨Nat.le_refl _, fun _ _ => rfl, fun _ _ => id⟩

theorem Grows.trans (h : st.Grows st') (h' : st'.Grows st'') : st.Grows st'' where
  size := Nat.le_trans h.size h'.size
  links f hf := (h'.links f (Nat.lt_of_lt_of_le hf h.size)).trans (h.links f hf)
  bound f x hx := h'.bound f x (h.bound f x hx)

theorem lt_of_enclosing? (h : st.enclosing? f = some g) : f < st.size := by
  rw [enclosing?] at h
  refine Nat.lt_of_not_le fun hf => ?_
  rw [Array.getElem?_eq_none hf] at h
  cases h

theorem Grows.enclosing? (h : st.Grows st') (hl : st.enclosing? f = some g) :
    st'.enclosing? f = some g :=
  (h.links f (lt_of_enclosing? hl)).trans hl

theorem here?_of_le (h : st.size ≤ f) (x : String) : st.here? f x = none := by
  rw [here?, Array.getElem?_eq_none h]
  rfl

theorem define_of_le (h : st.size ≤ f) : st.define f name v = st := by
  rw [define]
  congr 1
  refine Array.ext (by simp) fun i hi _ => ?_
  rw [Array.getElem_modify, if_neg]
  rintro rfl
  rw [Array.size_modify] at hi
  exact absurd hi (Nat.not_lt.mpr h)

theorem Grows.define (st : Store) (f : Nat) (name : String) (v : Value) :
    st.Grows (st.define f name v) := by
  refine ⟨Nat.le_of_eq (size_define ..).symm, fun g _ => enclosing?_define .., fun g x hx => ?_⟩
  by_cases hf : f < st.size
  · rw [here?_define st hf]
    split
    · rfl
    · exact hx
  · rwa [define_of_le (Nat.not_lt.mp hf)]

theorem Grows.push (st : Store) (enclosing : Option Nat) : st.Grows (st.push enclosing) := by
  refine ⟨by simp, fun f hf => ?_, fun f x hx => by rwa [here?_push]⟩
  rw [enclosing?_push, if_neg (Nat.ne_of_lt hf)]

end Store

/-! ### Scopes -/

/-- No name of the scope is still without its initial value. -/
def Scope.Settled (s : Scope) : Prop := ∀ x, s.status? x ≠ some .declared

def Scopes.Settled (ss : Scopes) : Prop := ∀ s ∈ ss, s.Settled

theorem Scope.status?_cons (s : Scope) (name : String) (status : Status) (x : String) :
    Scope.status? ((name, status) :: s) x = if x = name then some status else s.status? x := by
  unfold Scope.status?
  rw [List.lookup_cons]
  by_cases h : x = name
  · simp [h]
  · rw [if_neg h, beq_eq_false_iff_ne.mpr h]

namespace Scopes

variable {ss : Scopes} {s : Scope} {name : Token}

theorem depth?_cons (s : Scope) (ss : Scopes) (name : Token) :
    depth? (s :: ss) name =
      if (s.status? name.lexeme).isSome then some 0 else (ss.depth? name).map (· + 1) := by
  unfold depth?
  rw [List.findIdx?_cons]

theorem depth?_lt {d : Nat} (h : ss.depth? name = some d) : d < ss.length :=
  (List.findIdx?_eq_some_iff_getElem.mp h).1

@[simp] theorem length_mark (ss : Scopes) (name : String) (status : Status) :
    (ss.mark name status).length = ss.length := by
  cases ss <;> rfl

@[simp] theorem tail_mark (ss : Scopes) (name : String) (status : Status) :
    (ss.mark name status).tail = ss.tail := by
  cases ss <;> rfl

theorem Settled.nil : Settled [] := fun _ h => by cases h

theorem Settled.push (h : ss.Settled) : Settled ([] :: ss) := by
  rintro s (_ | ⟨_, hs⟩)
  · exact fun x => by simp [Scope.status?]
  · exact h s hs

theorem Settled.tail (h : ss.Settled) : Settled ss.tail :=
  fun s hs => h s (List.mem_of_mem_tail hs)

theorem Settled.define (h : ss.Settled) (name : Token) : ((ss.declare name).define name).Settled := by
  cases ss with
  | nil => exact h
  | cons s ss =>
      rintro t (_ | ⟨_, ht⟩)
      · intro x
        rw [Scope.status?_cons, Scope.status?_cons]
        split
        · simp
        · exact h s List.mem_cons_self x
      · exact h t (List.mem_cons_of_mem _ ht)

theorem Settled.bindParams (h : ss.Settled) (ps : List Token) : (ss.bindParams ps).Settled := by
  induction ps generalizing ss with
  | nil => exact h
  | cons p ps ih => exact ih (h.define p)

theorem Settled.after {ss : Scopes} (h : ss.Settled) : (s : Stmt) → (ss.after s).Settled
  | .var name _ | .classDecl name _ => h.define name
  | .function decl => h.define decl.name
  | .conditional _ yes none => Settled.after h yes
  | .conditional _ yes (some no) => Settled.after (Settled.after h yes) no
  | .whileLoop _ body => Settled.after h body
  | .expression _ | .print _ | .block _ | .returning .. => h

theorem after_alternative (ss : Scopes) (c : Expr) (yes no : Stmt) :
    ss.after (.conditional c yes (some no)) = (ss.after yes).after no := rfl

/-- The outermost level is no scope, so nothing is declared in it. -/
theorem after_nil : (s : Stmt) → Scopes.after [] s = []
  | .conditional _ yes none => after_nil yes
  | .conditional _ yes (some no) => by rw [after_alternative, after_nil yes, after_nil no]
  | .whileLoop _ body => after_nil body
  | .expression _ | .print _ | .var .. | .block _ | .function _ | .returning .. | .classDecl .. => rfl

end Scopes

/-! ### Scopes and frames -/

/-- A frame and those around it bind what the scopes define, and nothing but the global variables is
around the outermost of them. -/
inductive Covers (st : Store) : Nat → Scopes → Prop
  | root : Covers st globals []
  | inside {f g : Nat} {s : Scope} {ss : Scopes}
      (hb : ∀ x, s.status? x = some .defined → (st.here? f x).isSome)
      (hl : st.enclosing? f = some g) (h : Covers st g ss) : Covers st f (s :: ss)

namespace Covers

variable {st st' : Store} {f g d : Nat} {ss : Scopes} {name : Token} {v : Value}

theorem lt_size (h : Covers st f ss) (hs : 0 < st.size) : f < st.size := by
  cases h with
  | root => exact hs
  | inside _ hl => exact Store.lt_of_enclosing? hl

theorem mono (h : Covers st f ss) (hg : st.Grows st') : Covers st' f ss := by
  induction h with
  | root => exact .root
  | @inside f g s ss hb hl _ ih =>
      exact .inside (fun x hx => hg.bound f x (hb x hx)) (hg.enclosing? hl) ih

theorem ancestor? (h : Covers st f ss) (hd : d ≤ ss.length) :
    ∃ g, st.ancestor? d f = some g ∧ Covers st g (ss.drop d) := by
  induction d generalizing f ss with
  | zero => exact ⟨f, rfl, h⟩
  | succ d ih =>
      cases h with
      | root => simp at hd
      | @inside _ g s ss _ hl h =>
          obtain ⟨g', hg', hc⟩ := ih h (by simpa using hd)
          exact ⟨g', by rw [Store.ancestor?, hl]; exact hg', hc⟩

/-- The frames around a place end at the global variables after as many as there are scopes. -/
theorem ancestor?_length (h : Covers st f ss) : st.ancestor? ss.length f = some globals := by
  obtain ⟨g, hg, hc⟩ := h.ancestor? (Nat.le_refl _)
  rw [List.drop_length] at hc
  cases hc
  exact hg

/-- A name is bound where its scope is, unless it waits there for its initial value. -/
theorem bound (h : Covers st f ss) (ht : Scopes.Settled ss.tail) (hd : ss.depth? name = some d)
    (hn : ss.here? name ≠ some .declared) :
    ∃ g, st.ancestor? d f = some g ∧ (st.here? g name.lexeme).isSome := by
  induction h generalizing d with
  | root => cases hd
  | @inside f g s ss hb hl h ih =>
      rw [Scopes.depth?_cons] at hd
      split at hd
      · next hs =>
        cases hd
        refine ⟨f, rfl, hb _ ?_⟩
        cases hstat : s.status? name.lexeme with
        | none => rw [hstat] at hs; cases hs
        | some status =>
            cases status with
            | defined => rfl
            | declared => exact absurd hstat hn
      · obtain ⟨d', hd', rfl⟩ := Option.map_eq_some_iff.mp hd
        have hhere : ss.here? name ≠ some .declared := by
          cases ss with
          | nil => simp [Scopes.here?]
          | cons t ts => exact ht t List.mem_cons_self name.lexeme
        obtain ⟨g', hg', hx⟩ := ih (Scopes.Settled.tail ht) hd' hhere
        exact ⟨g', by rw [Store.ancestor?, hl]; exact hg', hx⟩

/-- Looking at an initial value takes the name away that it is for. -/
theorem declare (h : Covers st f ss) (name : Token) : Covers st f (ss.declare name) := by
  cases h with
  | root => exact .root
  | @inside _ g s ss hb hl h =>
      refine .inside (fun x hx => ?_) hl h
      rw [Scope.status?_cons] at hx
      split at hx
      · cases hx
      · exact hb x hx

theorem define (h : Covers st f ss) (hs : 0 < st.size) (name : Token) (v : Value) :
    Covers (st.define f name.lexeme v) f ((ss.declare name).define name) := by
  have hf := h.lt_size hs
  have hgrow := Store.Grows.define st f name.lexeme v
  cases h with
  | root => exact .root
  | @inside _ g s ss hb hl h =>
      refine .inside (fun x hx => ?_) (by rw [Store.enclosing?_define, hl]) (h.mono hgrow)
      rw [Scope.status?_cons, Scope.status?_cons] at hx
      by_cases hx' : x = name.lexeme
      · subst hx'
        rw [Store.here?_define st hf, if_pos ⟨rfl, rfl⟩]
        rfl
      · rw [if_neg hx', if_neg hx'] at hx
        exact hgrow.bound f x (hb x hx)

theorem push (h : Covers st f ss) : Covers (st.push (some f)) st.size ([] :: ss) := by
  refine .inside (fun x hx => ?_) ?_ (h.mono (Store.Grows.push st (some f)))
  · cases hx
  · rw [Store.enclosing?_push, if_pos rfl]

theorem bindParams (h : Covers st f ss) (hs : 0 < st.size) {ps : List Token} {vs : List Value}
    (hl : ps.length = vs.length) :
    Covers (st.bindParams f ps vs) f (ss.bindParams ps) := by
  induction ps generalizing st ss vs with
  | nil => exact h
  | cons p ps ih =>
      cases vs with
      | nil => cases hl
      | cons v vs => exact ih (h.define hs p v) (by simpa using hs) (by simpa using hl)

end Covers

end Lox
