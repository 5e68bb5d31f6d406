import Lox.Proofs.Renaming.Mirror
import Lox.Proofs.Run.Steps

/-!
Two machines that run programs which mirror each other. Their frames correspond one to one, and each
has a label that says how its names are called in the second machine.
-/

namespace Lox

/-- What values of two machines are compared by: the tables of hops, the frames of the first machine
and their labels. -/
structure World where
  hops : Hops
  hops' : Hops
  store : Store
  label : Nat → Label

/-- The labels of a frame and of those around it, up to the global variables. -/
inductive Marks (w : World) : Nat → List Label → Prop
  | root : Marks w globals []
  | inside {f g : Nat} {σs : List Label} (hl : w.store.enclosing? f = some g) (h : Marks w g σs) :
      Marks w f (w.label f :: σs)

/-- A frame with the scopes that it covers and their labels. -/
structure World.Inside (w : World) (f : Nat) (ss : Scopes) (σs : List Label) : Prop where
  covers : Covers w.store f ss
  marks : Marks w f σs

/-- Functions made at one moment from declarations that mirror each other. -/
structure Closure.Alike (w : World) (c c' : Closure) : Prop where
  id : c'.id = c.id
  frame : c'.frame = c.frame
  stands : ∃ ss σs, w.Inside c.frame ss σs ∧ ss.Settled ∧
    Stmt.FunctionMirrors w.hops w.hops' ss σs c.decl c'.decl

inductive Value.Alike (w : World) : Value → Value → Prop
  | nil : Value.Alike w .nil .nil
  | boolean (b : Bool) : Value.Alike w (.boolean b) (.boolean b)
  | number (x : Float) : Value.Alike w (.number x) (.number x)
  | string (s : String) : Value.Alike w (.string s) (.string s)
  | clock : Value.Alike w (.native clock) (.native clock)
  | closure {c c' : Closure} (h : c.Alike w c') : Value.Alike w (.closure c) (.closure c')

/-- More is known, and nothing else of what was known. -/
structure World.Grows (w w' : World) : Prop where
  hops : w'.hops = w.hops
  hops' : w'.hops' = w.hops'
  store : w.store.Grows w'.store
  label : ∀ f < w.store.size, w'.label f = w.label f

section

variable {w w' w'' : World} {f : Nat} {ss : Scopes} {σs : List Label} {v v' : Value}

theorem World.Grows.refl (w : World) : w.Grows w := ⟨rfl, rfl, .refl _, fun _ _ => rfl⟩

theorem World.Grows.trans (h : w.Grows w') (h' : w'.Grows w'') : w.Grows w'' where
  hops := h'.hops.trans h.hops
  hops' := h'.hops'.trans h.hops'
  store := h.store.trans h'.store
  label f hf := (h'.label f (Nat.lt_of_lt_of_le hf h.store.size)).trans (h.label f hf)

theorem Marks.mono (h : Marks w f σs) (hg : w.Grows w') : Marks w' f σs := by
  induction h with
  | root => exact .root
  | @inside f g σs hl _ ih =>
      have hf := Store.lt_of_enclosing? hl
      rw [← hg.label f hf]
      exact .inside (by rw [hg.store.links f hf, hl]) ih

theorem World.Inside.mono (h : w.Inside f ss σs) (hg : w.Grows w') : w'.Inside f ss σs :=
  ⟨h.covers.mono hg.store, h.marks.mono hg⟩

theorem Closure.Alike.mono {c c' : Closure} (h : c.Alike w c') (hg : w.Grows w') :
    c.Alike w' c' := by
  obtain ⟨ss, σs, hi, hss, hf⟩ := h.stands
  rw [← hg.hops, ← hg.hops'] at hf
  exact ⟨h.id, h.frame, ss, σs, hi.mono hg, hss, hf⟩

theorem Value.Alike.mono (h : v.Alike w v') (hg : w.Grows w') : v.Alike w' v' := by
  cases h with
  | closure h => exact .closure (h.mono hg)
  | nil => exact .nil
  | boolean b => exact .boolean b
  | number x => exact .number x
  | string s => exact .string s
  | clock => exact .clock

theorem Value.Alike.lift {o o' : Option Value} (h : Option.Rel (Value.Alike w) o o')
    (hg : w.Grows w') : Option.Rel (Value.Alike w') o o' := by
  cases h with
  | none => exact .none
  | some h => exact .some (h.mono hg)

theorem Value.Alike.type (h : v.Alike w v') : v'.type = v.type := by cases h <;> rfl

theorem Value.Alike.truthy (h : v.Alike w v') : v'.truthy = v.truthy := by cases h <;> rfl

theorem Value.Alike.text (h : v.Alike w v') : v'.text = v.text := by
  cases h with
  | closure hc =>
      obtain ⟨_, _, -, -, hf⟩ := hc.stands
      rw [Value.text, Value.text, hf.lexeme]
  | _ => rfl

theorem Value.Alike.texts {o o' : Option Value} (h : Option.Rel (Value.Alike w) o o') :
    o'.map Value.text = o.map Value.text := by
  cases h with
  | none => rfl
  | some h => exact congrArg some h.text

theorem Value.Alike.isSome {o o' : Option Value} (h : Option.Rel (Value.Alike w) o o') :
    o'.isSome = o.isSome := by
  cases h <;> rfl

/-- The frame so many links out bears the label of the scope so many out. -/
theorem Marks.ancestor? {d g : Nat} (h : Marks w f σs) (hd : d < σs.length)
    (hg : w.store.ancestor? d f = some g) : σs[d]? = some (w.label g) := by
  induction h generalizing d with
  | root => cases hd
  | @inside f g' σs hl _ ih =>
      cases d with
      | zero => cases hg; rfl
      | succ d =>
          rw [Store.ancestor?, hl] at hg
          exact ih (Nat.lt_of_succ_lt_succ hd) hg

theorem World.Inside.length_eq (h : w.Inside f ss σs) (hr : w.store.enclosing? globals = none) :
    σs.length = ss.length := by
  obtain ⟨hc, hm⟩ := h
  induction hc generalizing σs with
  | root =>
      cases hm with
      | root => rfl
      | inside hl => rw [hr] at hl; cases hl
  | inside _ hl' _ ih =>
      cases hm with
      | root => rw [hr] at hl'; cases hl'
      | inside hl h =>
          rw [hl] at hl'
          cases hl'
          rw [List.length_cons, List.length_cons, ih h]

end

structure Twins where
  one : Machine
  two : Machine
  label : Nat → Label

namespace Twins

def world (t : Twins) : World := ⟨t.one.hops, t.two.hops, t.one.store, t.label⟩

/-- The two machines differ in what the labels say, and in nothing else that can be seen. -/
structure Valid (t : Twins) : Prop where
  root : t.one.store.enclosing? globals = none
  pos : 0 < t.one.store.size
  size : t.two.store.size = t.one.store.size
  links : ∀ f, t.two.store.enclosing? f = t.one.store.enclosing? f
  injective : ∀ f x y, t.label f x = t.label f y → x = y
  outermost : ∀ x, t.label globals x = x
  values : ∀ f x, Option.Rel (Value.Alike t.world) (t.one.store.here? f x)
    (t.two.store.here? f (t.label f x))
  current : t.two.current = t.one.current
  callDepth : t.two.callDepth = t.one.callDepth
  printed : t.two.printed = t.one.printed
  last : t.two.last.map Value.text = t.one.last.map Value.text
  nextClosure : t.two.nextClosure = t.one.nextClosure
  steps : t.two.steps = t.one.steps

structure Grows (t t' : Twins) : Prop where
  world : t.world.Grows t'.world
  current : t'.one.current = t.one.current

theorem Grows.refl (t : Twins) : t.Grows t := ⟨.refl _, rfl⟩

theorem Grows.trans {t t' t'' : Twins} (h : t.Grows t') (h' : t'.Grows t'') : t.Grows t'' :=
  ⟨h.world.trans h'.world, h'.current.trans h.current⟩

theorem Grows.hops {t t' : Twins} (h : t.Grows t') : t'.one.hops = t.one.hops := h.world.hops

theorem Grows.hops' {t t' : Twins} (h : t.Grows t') : t'.two.hops = t.two.hops := h.world.hops'

/-- The machines run in a frame with the given scopes and labels around. -/
def At (t : Twins) (ss : Scopes) (σs : List Label) : Prop := t.world.Inside t.one.current ss σs

theorem At.mono {t t' : Twins} {ss : Scopes} {σs : List Label} (h : t.At ss σs)
    (hg : t.Grows t') : t'.At ss σs := by
  rw [At, hg.current]
  exact World.Inside.mono h hg.world

/-- Twins in another frame. -/
def moved (t : Twins) (frame : Nat) : Twins :=
  { t with one := { t.one with current := frame }, two := { t.two with current := frame } }

/-- Twins in which so many calls are active. -/
def called (t : Twins) (n n' : Nat) : Twins :=
  { t with one := { t.one with callDepth := n }, two := { t.two with callDepth := n' } }

end Twins

/-! ### Runs side by side -/

/-- From twins, two runs come to twins: to results with the property `Q`, or to one way to stop. -/
inductive Agree {α β : Type} (t : Twins) (x : Eval α) (y : Eval β) (Q : α → β → Twins → Prop) : Prop
  | ok (a : α) (b : β) (t' : Twins) (hx : x t.one = .ok a t'.one) (hy : y t.two = .ok b t'.two)
      (hv : t'.Valid) (hg : t.Grows t') (hq : Q a b t')
  | error (e : Stop) (t' : Twins) (hx : x t.one = .error e t'.one) (hy : y t.two = .error e t'.two)
      (hv : t'.Valid) (hg : t.Grows t')

namespace Agree

variable {α β γ δ : Type} {t : Twins} {x : Eval α} {y : Eval β} {Q : α → β → Twins → Prop}

theorem mono {Q' : α → β → Twins → Prop} (h : Agree t x y Q)
    (hi : ∀ a b t', t.Grows t' → Q a b t' → Q' a b t') : Agree t x y Q' := by
  cases h with
  | ok a b t' hx hy hv hg hq => exact .ok a b t' hx hy hv hg (hi a b t' hg hq)
  | error e t' hx hy hv hg => exact .error e t' hx hy hv hg

theorem pure {a : α} {b : β} (hv : t.Valid) (h : Q a b t) :
    Agree t (pure a : Eval α) (pure b : Eval β) Q := .ok a b t rfl rfl hv (.refl t) h

theorem bind {f : α → Eval γ} {g : β → Eval δ} {R : γ → δ → Twins → Prop} (h : Agree t x y Q)
    (hf : ∀ a b t', t'.Valid → t.Grows t' → Q a b t' → Agree t' (f a) (g b) R) :
    Agree t (x >>= f) (y >>= g) R := by
  cases h with
  | error e t' hx hy hv hg =>
      refine .error e t' ?_ ?_ hv hg
      · simp only [Bind.bind, EStateM.bind, hx]
      · simp only [Bind.bind, EStateM.bind, hy]
  | ok a b t' hx hy hv hg hq =>
      have hx' : (x >>= f) t.one = f a t'.one := by simp only [Bind.bind, EStateM.bind, hx]
      have hy' : (y >>= g) t.two = g b t'.two := by simp only [Bind.bind, EStateM.bind, hy]
      cases hf a b t' hv hg hq with
      | ok c d t'' hx'' hy'' hv' hg' hr =>
          exact .ok c d t'' (hx'.trans hx'') (hy'.trans hy'') hv' (hg.trans hg') hr
      | error e t'' hx'' hy'' hv' hg' =>
          exact .error e t'' (hx'.trans hx'') (hy'.trans hy'') hv' (hg.trans hg')

theorem outOfFuel (hv : t.Valid) :
    Agree t (throw .outOfFuel : Eval α) (throw .outOfFuel : Eval β) Q :=
  .error .outOfFuel t rfl rfl hv (.refl t)

theorem raise {line line' : Nat} {cause cause' : RuntimeCause} (hv : t.Valid) (hl : line' = line)
    (hc : cause' = cause) :
    Agree t (raise line cause : Eval α) (Lox.raise line' cause' : Eval β) Q := by
  rw [hl, hc]
  exact .error (.fault ⟨line, cause⟩) t rfl rfl hv (.refl t)

theorem get (hv : t.Valid) : Agree t (get : Eval Machine) (get : Eval Machine)
    fun m m' t' => m = t'.one ∧ m' = t'.two :=
  .ok t.one t.two t rfl rfl hv (.refl t) ⟨rfl, rfl⟩

/-- Runs in one frame on both sides. -/
theorem within {frame : Nat} (h : Agree (t.moved frame) x y Q)
    (hc : t.two.current = t.one.current) (hQ : ∀ a b t' c, Q a b t' → Q a b (t'.moved c)) :
    Agree t (within frame x) (Lox.within frame y) Q := by
  cases h with
  | ok a b t' hx hy hv hg hq =>
      refine .ok a b (t'.moved t.one.current) ?_ ?_ { hv with current := rfl } ⟨hg.world, rfl⟩
        (hQ a b t' _ hq)
      · simp only [Lox.within, show x { t.one with current := frame } = _ from hx, Twins.moved]
      · simp only [Lox.within, show y { t.two with current := frame } = _ from hy, Twins.moved, hc]
  | error e t' hx hy hv hg =>
      refine .error e (t'.moved t.one.current) ?_ ?_ { hv with current := rfl } ⟨hg.world, rfl⟩
      · simp only [Lox.within, show x { t.one with current := frame } = _ from hx, Twins.moved]
      · simp only [Lox.within, show y { t.two with current := frame } = _ from hy, Twins.moved, hc]

/-- Runs as one more active call on both sides. -/
theorem asCall {line : Nat} (hv : t.Valid)
    (h : ∀ t', t'.Valid → t.Grows t' → Agree t' x y Q)
    (hQ : ∀ a b t' n n', Q a b t' → Q a b (t'.called n n')) :
    Agree t (asCall line x) (Lox.asCall line y) Q := by
  by_cases hd : maxCallDepth ≤ t.one.callDepth
  · refine .error (.fault ⟨line, .stackOverflow⟩) t ?_ ?_ hv (.refl t)
    · rw [Lox.asCall, if_pos hd]
      rfl
    · rw [Lox.asCall, hv.callDepth, if_pos hd]
      rfl
  · let t₁ := t.called (t.one.callDepth + 1) (t.two.callDepth + 1)
    have hv₁ : t₁.Valid := { hv with callDepth := congrArg (· + 1) hv.callDepth }
    have hd' : ¬maxCallDepth ≤ t.two.callDepth := by rwa [hv.callDepth]
    cases h t₁ hv₁ ⟨.refl _, rfl⟩ with
    | ok a b t' hx hy hv' hg hq =>
        refine .ok a b (t'.called (t'.one.callDepth - 1) (t'.two.callDepth - 1)) ?_ ?_
          { hv' with callDepth := congrArg (· - 1) hv'.callDepth } ⟨hg.world, hg.current⟩
          (hQ a b t' _ _ hq)
        · rw [Lox.asCall, if_neg hd, show x { t.one with callDepth := _ } = _ from hx]
          rfl
        · rw [Lox.asCall, if_neg hd', show y { t.two with callDepth := _ } = _ from hy]
          rfl
    | error e t' hx hy hv' hg =>
        refine .error e (t'.called (t'.one.callDepth - 1) (t'.two.callDepth - 1)) ?_ ?_
          { hv' with callDepth := congrArg (· - 1) hv'.callDepth } ⟨hg.world, hg.current⟩
        · rw [Lox.asCall, if_neg hd, show x { t.one with callDepth := _ } = _ from hx]
          rfl
        · rw [Lox.asCall, if_neg hd', show y { t.two with callDepth := _ } = _ from hy]
          rfl

end Agree

end Lox
