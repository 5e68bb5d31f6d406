import Lox.Proofs.Renaming.Twins
import Lox.Proofs.Run.Preserved
import Mathlib.Data.List.Forall2
import Mathlib.Logic.Basic

/-!
What the single steps of runs side by side do to twins.
-/

namespace Lox

section

variable {w : World} {v v' u u' : Value} {op : Token}

/-! ### Operators -/

namespace Value.Alike

theorem same (h : v.Alike w v') (hu : u.Alike w u') : v'.same u' = v.same u := by
  cases h <;> cases hu <;> try rfl
  next c c' hc d d' hd => rw [Value.same, Value.same, hc.id, hd.id]

/-- What is no function is alike itself. -/
theorem of_type (h : v.type ≠ .function) : v.Alike w v := by
  cases v with
  | nil => exact .nil
  | boolean b => exact .boolean b
  | number x => exact .number x
  | string s => exact .string s
  | native n | closure c => exact absurd rfl h

theorem applyUnary_eq (h : v.Alike w v') : applyUnary op v' = applyUnary op v := by
  have hn : negate op v' = negate op v := by cases h <;> rfl
  rw [applyUnary, applyUnary, hn, h.truthy]

theorem add_eq (h : v.Alike w v') (hu : u.Alike w u') : add op v' u' = add op v u := by
  cases h <;> cases hu <;> try rfl
  · next s c c' hc => simp only [add, (Value.Alike.closure hc).text]
  · next c c' hc s => simp only [add, (Value.Alike.closure hc).text]

theorem onNumbers_eq {g : Float → Float → Except RuntimeFault Value} (h : v.Alike w v')
    (hu : u.Alike w u') : onNumbers op g v' u' = onNumbers op g v u := by
  cases h <;> cases hu <;> rfl

theorem applyBinary_eq (h : v.Alike w v') (hu : u.Alike w u') :
    applyBinary op v' u' = applyBinary op v u := by
  simp only [applyBinary, h.add_eq hu, h.onNumbers_eq hu, h.same hu]

theorem decides_eq (h : v.Alike w v') : decides op v' = decides op v := by
  rw [decides, decides, h.truthy]

end Value.Alike

inductive Callable.Alike (w : World) : Callable → Callable → Prop
  | clock : Callable.Alike w (.native clock) (.native clock)
  | closure {c c' : Closure} (h : c.Alike w c') : Callable.Alike w (.closure c) (.closure c')

theorem Callable.Alike.mono {w' : World} {c c' : Callable} (h : c.Alike w c') (hg : w.Grows w') :
    c.Alike w' c' := by
  cases h with
  | clock => exact .clock
  | closure h => exact .closure (h.mono hg)

theorem Callable.Alike.arity {c c' : Callable} (h : c.Alike w c') : c'.arity = c.arity := by
  cases h with
  | clock => rfl
  | closure hc =>
      obtain ⟨_, _, -, -, hf⟩ := hc.stands
      obtain ⟨_, -, hp, -⟩ := hf.inside
      exact hp.length_eq

theorem Value.Alike.callable? (h : v.Alike w v') :
    Option.Rel (Callable.Alike w) v.callable? v'.callable? := by
  cases h with
  | clock => exact .some .clock
  | closure hc => exact .some (.closure hc)
  | _ => exact .none

end

/-! ### Stores -/

namespace Store

variable {st st' : Store} {f g : Nat} {x : String}

theorem ancestor?_congr (hl : ∀ f, st'.enclosing? f = st.enclosing? f) (d : Nat) (f : Nat) :
    st'.ancestor? d f = st.ancestor? d f := by
  induction d generalizing f with
  | zero => rfl
  | succ d ih => rw [ancestor?, ancestor?, hl, funext ih]

theorem binder?_globals_eq (hr : st.enclosing? globals = none) (hs : 0 < st.size) (x : String) :
    st.binder? globals x = if (st.here? globals x).isSome then some globals else none := by
  obtain ⟨n, hn⟩ := Nat.exists_eq_succ_of_ne_zero (Nat.ne_of_gt hs)
  rw [binder?, hn, Nat.succ_eq_add_one, binder?.go, hr]
  rfl

end Store

namespace Twins

variable {t : Twins} {f : Nat} {ss : Scopes} {σs : List Label} {name name' : Token}
  {v v' : Value}

/-- One value for a name on both sides. -/
def define (t : Twins) (f : Nat) (x x' : String) (v v' : Value) : Twins :=
  { t with
    one := { t.one with store := t.one.store.define f x v }
    two := { t.two with store := t.two.store.define f x' v' } }

theorem Grows.define (t : Twins) (f : Nat) (x x' : String) (v v' : Value) :
    t.Grows (t.define f x x' v v') :=
  ⟨⟨rfl, rfl, .define .., fun _ _ => rfl⟩, rfl⟩

theorem Valid.bound (hv : t.Valid) (hf : f < t.one.store.size) (x : String)
    (h : v.Alike (t.define f x (t.label f x) v v').world v') :
    (t.define f x (t.label f x) v v').Valid := by
  have hg := Grows.define t f x (t.label f x) v v'
  exact { hv with
    root := (Store.enclosing?_define ..).trans hv.root
    pos := by rw [Twins.define, Store.size_define]; exact hv.pos
    size := by rw [Twins.define, Store.size_define, Store.size_define, hv.size]
    links := fun g => by
      rw [Twins.define, Store.enclosing?_define, Store.enclosing?_define, hv.links]
    values := fun g y => by
      have hiff : (f = g ∧ t.label f x = t.label g y) ↔ (f = g ∧ x = y) := by
        constructor
        · rintro ⟨rfl, hy⟩
          exact ⟨rfl, hv.injective f x y hy⟩
        · rintro ⟨rfl, rfl⟩
          exact ⟨rfl, rfl⟩
      have hf' : f < t.two.store.size := by rwa [hv.size]
      rw [Twins.define, Store.here?_define _ hf, Store.here?_define _ hf', if_congr hiff rfl rfl]
      split
      · exact .some h
      · exact Value.Alike.lift (hv.values g y) hg.world }

/-- A name is called as the label of its frame says. -/
theorem Valid.calls (hv : t.Valid) (hi : t.world.Inside f ss σs)
    (ht : name.Mirrors ss σs (some 0) name') : name'.lexeme = t.label f name.lexeme := by
  rw [ht.lexeme]
  cases hi.marks with
  | root => exact (hv.outermost _).symm
  | inside _ _ => rfl

theorem inside_define (hv : t.Valid) (hi : t.world.Inside f ss σs) (x' : String) :
    (t.define f name.lexeme x' v v').world.Inside f ((ss.declare name).define name) σs :=
  ⟨hi.covers.define hv.pos name v, hi.marks.mono (Grows.define ..).world⟩

theorem Valid.define (hv : t.Valid) (hi : t.world.Inside f ss σs)
    (ht : name.Mirrors ss σs (some 0) name')
    (h : v.Alike (t.define f name.lexeme name'.lexeme v v').world v') :
    (t.define f name.lexeme name'.lexeme v v').Valid := by
  rw [hv.calls hi ht] at h ⊢
  exact hv.bound (hi.covers.lt_size hv.pos) _ h

/-- A frame more on both sides, in which names are called as the label says. -/
def push (t : Twins) (f : Nat) (σ : Label) : Twins where
  one := { t.one with store := t.one.store.push (some f) }
  two := { t.two with store := t.two.store.push (some f) }
  label g := if g = t.one.store.size then σ else t.label g

theorem Grows.push (t : Twins) (f : Nat) (σ : Label) : t.Grows (t.push f σ) :=
  ⟨⟨rfl, rfl, .push .., fun _ hg => if_neg (Nat.ne_of_lt hg)⟩, rfl⟩

theorem Valid.push {σ : Label} (hv : t.Valid) (hi : t.world.Inside f ss σs)
    (hσ : ∀ x y, σ x = σ y → x = y) :
    (t.push f σ).Valid ∧ (t.push f σ).world.Inside t.one.store.size ([] :: ss) (σ :: σs) := by
  have hg := Grows.push t f σ
  have hne : globals ≠ t.one.store.size := Nat.ne_of_lt hv.pos
  refine ⟨?_, hi.covers.push, ?_⟩
  · exact { hv with
      root := by rw [Twins.push, Store.enclosing?_push, if_neg hne]; exact hv.root
      pos := by simp [Twins.push]
      size := by simp [Twins.push, hv.size]
      links := fun g => by
        rw [Twins.push, Store.enclosing?_push, Store.enclosing?_push, hv.size, hv.links]
      injective := fun g x y hxy => by
        by_cases h : g = t.one.store.size
        · simp only [Twins.push, if_pos h] at hxy
          exact hσ x y hxy
        · simp only [Twins.push, if_neg h] at hxy
          exact hv.injective g x y hxy
      outermost := fun x => by
        simp only [Twins.push, if_neg hne]
        exact hv.outermost x
      values := fun g x => by
        simp only [Twins.push, Store.here?_push]
        by_cases h : g = t.one.store.size
        · rw [Store.here?_of_le (Nat.le_of_eq h.symm),
            Store.here?_of_le (Nat.le_of_eq (hv.size.trans h.symm))]
          exact .none
        · rw [if_neg h]
          exact Value.Alike.lift (hv.values g x) hg.world
   }
  · have hl : (t.push f σ).world.store.enclosing? t.one.store.size = some f := by
      rw [world, Twins.push, Store.enclosing?_push, if_pos rfl]
    have := Marks.inside hl (hi.marks.mono hg.world)
    rwa [show (t.push f σ).world.label t.one.store.size = σ from if_pos rfl] at this

/-- Arguments for parameters on both sides. -/
def bindParams (t : Twins) (f : Nat) (ps ps' : List Token) (vs vs' : List Value) : Twins :=
  { t with
    one := { t.one with store := t.one.store.bindParams f ps vs }
    two := { t.two with store := t.two.store.bindParams f ps' vs' } }

theorem Valid.bindParams {ps ps' : List Token} {vs vs' : List Value} (hv : t.Valid)
    (hi : t.world.Inside f ss σs) (hp : Mirrored σs ss ps ps')
    (h : List.Forall₂ (Value.Alike t.world) vs vs') (hl : ps.length = vs.length) :
    (t.bindParams f ps ps' vs vs').Valid ∧ t.Grows (t.bindParams f ps ps' vs vs') ∧
      (t.bindParams f ps ps' vs vs').world.Inside f (ss.bindParams ps) σs := by
  induction hp generalizing t vs vs' with
  | nil =>
      cases h with
      | nil => exact ⟨hv, .refl t, hi⟩
      | cons => cases hl
  | @cons ss p p' ps ps' ht _ ih =>
      cases h with
      | nil => cases hl
      | @cons v v' vs vs' hx hvs =>
          have hg := Grows.define t f p.lexeme p'.lexeme v v'
          have hv₁ := hv.define hi ht (hx.mono hg.world)
          obtain ⟨hv₂, hg₂, hi₂⟩ := ih hv₁ (inside_define hv hi p'.lexeme)
            (hvs.imp fun _ _ ha => ha.mono hg.world) (Nat.succ.inj hl)
          exact ⟨hv₂, hg.trans hg₂, hi₂⟩

/-! ### The frames of occurrences -/

variable {id id' : Nat}

theorem Valid.frameOf? (hv : t.Valid) (hat : t.At ss σs)
    (ho : Occurs t.one.hops t.two.hops ss σs id id' name name') :
    t.two.frameOf? id' name'.lexeme = t.one.frameOf? id name.lexeme ∧
      ∀ g, t.one.frameOf? id name.lexeme = some g → g < t.one.store.size ∧
        name'.lexeme = t.label g name.lexeme := by
  rw [Machine.frameOf?, Machine.frameOf?, ho.hops, ho.hops']
  cases hd : ss.depth? name with
  | none =>
      have hsome := Value.Alike.isSome (hv.values globals name.lexeme)
      rw [hv.outermost] at hsome
      have hroot : t.two.store.enclosing? globals = none := (hv.links _).trans hv.root
      have hpos : 0 < t.two.store.size := by rw [hv.size]; exact hv.pos
      simp only [ho.lexeme hd]
      rw [Store.binder?_globals_eq hroot hpos, Store.binder?_globals_eq hv.root hv.pos, hsome]
      refine ⟨rfl, fun g hg => ?_⟩
      split at hg
      · cases hg
        exact ⟨hv.pos, (hv.outermost _).symm⟩
      · cases hg
  | some d =>
      simp only
      rw [Store.ancestor?_congr hv.links, hv.current]
      refine ⟨rfl, fun g hg => ?_⟩
      have hlt := Scopes.depth?_lt hd
      obtain ⟨g', hg', hc⟩ := hat.covers.ancestor? (Nat.le_of_lt hlt)
      cases hg'.symm.trans hg
      refine ⟨hc.lt_size hv.pos, ?_⟩
      have hx := ho.token.lexeme
      rwa [hd, Option.bind_some, hat.marks.ancestor? (by rwa [hat.length_eq hv.root]) hg] at hx

/-- What an occurrence finds on both sides. -/
theorem Valid.found? (hv : t.Valid) (hat : t.At ss σs)
    (ho : Occurs t.one.hops t.two.hops ss σs id id' name name') :
    Option.Rel (Value.Alike t.world)
      ((t.one.frameOf? id name.lexeme).bind (t.one.store.here? · name.lexeme))
      ((t.two.frameOf? id' name'.lexeme).bind (t.two.store.here? · name'.lexeme)) := by
  obtain ⟨heq, hframe⟩ := hv.frameOf? hat ho
  rw [heq]
  cases hf : t.one.frameOf? id name.lexeme with
  | none => exact .none
  | some g =>
      rw [(hframe g hf).2]
      exact hv.values g name.lexeme

end Twins

/-! ### Steps of runs -/

namespace Agree

variable {t : Twins} {ss : Scopes} {σs : List Label} {id id' : Nat} {name name' : Token}
  {v v' : Value}

theorem unary {op : Token} (hv : t.Valid) (h : v.Alike t.world v') :
    Agree t (orRaise (applyUnary op v)) (orRaise (applyUnary op v')) fun u u' t' =>
      u.Alike t'.world u' := by
  rw [h.applyUnary_eq]
  exact applyUnary_cases (P := fun r => Agree t (orRaise r) (orRaise r) _)
    (fun u hu => .ok u u t rfl rfl hv (.refl t) (.of_type hu))
    fun f _ => .error (.fault f) t rfl rfl hv (.refl t)

theorem binary {op : Token} {u u' : Value} (hv : t.Valid) (h : v.Alike t.world v')
    (hu : u.Alike t.world u') :
    Agree t (orRaise (applyBinary op v u)) (orRaise (applyBinary op v' u')) fun u u' t' =>
      u.Alike t'.world u' := by
  rw [h.applyBinary_eq hu]
  exact applyBinary_cases (P := fun r => Agree t (orRaise r) (orRaise r) _)
    (fun u hu => .ok u u t rfl rfl hv (.refl t) (.of_type hu))
    fun f _ => .error (.fault f) t rfl rfl hv (.refl t)

theorem calleeOf {line given : Nat} (hv : t.Valid) (h : v.Alike t.world v') :
    Agree t (orRaise (calleeOf line v given)) (orRaise (Lox.calleeOf line v' given))
      fun c c' t' => c.Alike t'.world c' ∧ c.arity = given := by
  have hcallable := h.callable?
  unfold Lox.calleeOf
  cases hc : v.callable? with
  | none =>
      cases hc' : v'.callable? with
      | some c' => rw [hc, hc'] at hcallable; cases hcallable
      | none =>
          rw [h.type]
          exact .error (.fault ⟨line, .notCallable v.type⟩) t rfl rfl hv (.refl t)
  | some c =>
      cases hc' : v'.callable? with
      | none => rw [hc, hc'] at hcallable; cases hcallable
      | some c' =>
          rw [hc, hc'] at hcallable
          cases hcallable with
          | some ha =>
              simp only [ha.arity]
              by_cases hl : c.arity = given
              · rw [if_pos hl, if_pos hl]
                exact .ok c c' t rfl rfl hv (.refl t) ⟨ha, hl⟩
              · rw [if_neg hl, if_neg hl]
                exact .error (.fault ⟨line, .wrongArity c.arity given⟩) t rfl rfl hv (.refl t)

theorem see (hv : t.Valid) (h : v.Alike t.world v') :
    Agree t (see v) (Lox.see v') fun _ _ _ => True := by
  let t' : Twins :=
    { t with
      one := { t.one with last := some v, steps := t.one.steps + 1 }
      two := { t.two with last := some v', steps := t.two.steps + 1 } }
  have hv' : t'.Valid := { hv with last := congrArg some h.text, steps := congrArg (· + 1) hv.steps }
  exact .ok _ _ t' rfl rfl hv' ⟨.refl _, rfl⟩ trivial

theorem printLine (hv : t.Valid) (h : v.Alike t.world v') :
    Agree t (printLine v) (Lox.printLine v') fun _ _ _ => True := by
  let t' : Twins :=
    { t with
      one := { t.one with
        last := some v, printed := t.one.printed.push v.text, steps := t.one.steps + 1 }
      two := { t.two with
        last := some v', printed := t.two.printed.push v'.text, steps := t.two.steps + 1 } }
  have hv' : t'.Valid := { hv with
    last := congrArg some h.text
    printed := by simp only [t', hv.printed, h.text]
    steps := congrArg (· + 1) hv.steps }
  exact .ok _ _ t' rfl rfl hv' ⟨.refl _, rfl⟩ trivial

theorem define (hv : t.Valid) (hat : t.At ss σs) (ht : name.Mirrors ss σs (some 0) name')
    (h : v.Alike t.world v') :
    Agree t (defineHere name.lexeme v) (defineHere name'.lexeme v') fun _ _ t' =>
      t'.At ((ss.declare name).define name) σs := by
  have hv' := hv.define hat ht (h.mono (Twins.Grows.define ..).world)
  refine .ok () () (t.define t.one.current name.lexeme name'.lexeme v v') rfl ?_ hv'
    (.define ..) (Twins.inside_define hv hat _)
  rw [← hv.current]
  rfl

theorem declare {f f' : Function} (hv : t.Valid) (hat : t.At ss σs) (hss : ss.Settled)
    (ht : f.name.Mirrors ss σs (some 0) f'.name)
    (hf : Stmt.FunctionMirrors t.one.hops t.two.hops ((ss.declare f.name).define f.name) σs f f') :
    Agree t (declareFunction f) (declareFunction f') fun _ _ t' =>
      t'.At ((ss.declare f.name).define f.name) σs := by
  -- Both sides count the function first and bind it to its name then.
  let counted : Twins :=
    { t with
      one := { t.one with nextClosure := t.one.nextClosure + 1 }
      two := { t.two with nextClosure := t.two.nextClosure + 1 } }
  have hcounted : counted.Valid := { hv with nextClosure := congrArg (· + 1) hv.nextClosure }
  let c : Closure := ⟨t.one.nextClosure, f, t.one.current⟩
  let c' : Closure := ⟨t.two.nextClosure, f', t.two.current⟩
  have hi : (counted.define t.one.current f.name.lexeme f'.name.lexeme (.closure c)
      (.closure c')).world.Inside t.one.current ((ss.declare f.name).define f.name) σs :=
    Twins.inside_define hcounted hat _
  have hc : c.Alike (counted.define t.one.current f.name.lexeme f'.name.lexeme (.closure c)
      (.closure c')).world c' :=
    ⟨hv.nextClosure, hv.current, _, _, hi, hss.define f.name, hf⟩
  have hv' := hcounted.define hat ht (.closure hc)
  have hg : t.Grows counted := ⟨.refl _, rfl⟩
  refine .ok () () _ rfl ?_ hv' (hg.trans (.define ..)) hi
  rw [declareFunction, ← hv.current]
  rfl

theorem read (hv : t.Valid) (hat : t.At ss σs) (hs : Scopes.Settled ss.tail)
    (ho : Occurs t.one.hops t.two.hops ss σs id id' name name')
    (hn : ss.here? name ≠ some .declared) :
    Agree t (readVariable id name) (readVariable id' name') fun v v' t' =>
      v.Alike t'.world v' := by
  have hfound := hv.found? hat ho
  cases hx : (t.one.frameOf? id name.lexeme).bind (t.one.store.here? · name.lexeme) with
  | some v =>
      cases hx' : (t.two.frameOf? id' name'.lexeme).bind (t.two.store.here? · name'.lexeme) with
      | none => rw [hx, hx'] at hfound; cases hfound
      | some v' =>
          rw [hx, hx'] at hfound
          cases hfound with
          | some h =>
              refine .ok v v' t ?_ ?_ hv (.refl t) h
              · rw [readVariable, hx]
              · rw [readVariable, hx']
  | none =>
      cases hx' : (t.two.frameOf? id' name'.lexeme).bind (t.two.store.here? · name'.lexeme) with
      | some v' => rw [hx, hx'] at hfound; cases hfound
      | none =>
          -- A local variable is bound, so only a global one is missed.
          have hd : ss.depth? name = none := by
            cases hd : ss.depth? name with
            | none => rfl
            | some d =>
                obtain ⟨g, hg, hb⟩ := hat.covers.bound hs hd hn
                have hf : t.one.frameOf? id name.lexeme = some g := by
                  rw [Machine.frameOf?, ho.hops, hd]
                  exact hg
                rw [hf, Option.bind_some] at hx
                rw [show t.world.store = t.one.store from rfl, hx] at hb
                cases hb
          refine .error (.fault ⟨name.line, .undefinedVariable name.lexeme⟩) t ?_ ?_ hv (.refl t)
          · rw [readVariable, hx]
          · rw [readVariable, hx', ho.lexeme hd, ho.token.line]

theorem assign (hv : t.Valid) (hat : t.At ss σs)
    (ho : Occurs t.one.hops t.two.hops ss σs id id' name name') (h : v.Alike t.world v') :
    Agree t (assignVariable id name v) (assignVariable id' name' v') fun _ _ _ => True := by
  obtain ⟨heq, hframe⟩ := hv.frameOf? hat ho
  cases hf : t.one.frameOf? id name.lexeme with
  | some g =>
      obtain ⟨hg, hx⟩ := hframe g hf
      refine .ok () () (t.define g name.lexeme (t.label g name.lexeme) v v') ?_ ?_
        (hv.bound hg name.lexeme (h.mono (Twins.Grows.define ..).world)) (.define ..) trivial
      · rw [assignVariable, hf]
        rfl
      · rw [assignVariable, heq, hf, hx]
        rfl
  | none =>
      have hd : ss.depth? name = none := by
        cases hd : ss.depth? name with
        | none => rfl
        | some d =>
            obtain ⟨g, hg, -⟩ := hat.covers.ancestor? (Nat.le_of_lt (Scopes.depth?_lt hd))
            rw [Machine.frameOf?, ho.hops, hd] at hf
            exact absurd (hg.symm.trans hf) (by simp)
      refine .error (.fault ⟨name.line, .undefinedVariable name.lexeme⟩) t ?_ ?_ hv (.refl t)
      · rw [assignVariable, hf]
      · rw [assignVariable, heq, hf, ho.lexeme hd, ho.token.line]

theorem openFrame {σ : Label} (hv : t.Valid) (hat : t.At ss σs) (hσ : ∀ x y, σ x = σ y → x = y) :
    Agree t (openFrame t.one.current) (Lox.openFrame t.two.current) fun f f' t' =>
      f' = f ∧ t'.world.Inside f ([] :: ss) (σ :: σs) := by
  obtain ⟨hv', hi⟩ := hv.push hat hσ
  refine .ok _ _ (t.push t.one.current σ) rfl ?_ hv' (.push ..) ⟨hv.size, hi⟩
  rw [← hv.current]
  rfl

theorem openCall {c c' : Closure} {args args' : List Value} (hv : t.Valid)
    (hc : c.Alike t.world c') (hargs : List.Forall₂ (Value.Alike t.world) args args')
    (hl : c.decl.params.length = args.length) :
    Agree t (openCall c args) (Lox.openCall c' args') fun f f' t' => f' = f ∧
      ∃ ss σs, t'.world.Inside f ss σs ∧ ss.Settled ∧
        Stmt.ListMirrors t'.one.hops t'.two.hops ss σs c.decl.body c'.decl.body := by
  obtain ⟨ss, σs, hi, hss, hf⟩ := hc.stands
  obtain ⟨σ, hσ, hp, hb⟩ := hf.inside
  obtain ⟨hv₁, hi₁⟩ := hv.push hi hσ
  have hg₁ := Twins.Grows.push t c.frame σ
  obtain ⟨hv₂, hg₂, hi₂⟩ := hv₁.bindParams hi₁ hp
    (hargs.imp fun _ _ ha => ha.mono hg₁.world) hl
  let t' := (t.push c.frame σ).bindParams t.one.store.size c.decl.params c'.decl.params args args'
  let t'' : Twins :=
    { t' with
      one := { t'.one with steps := t.one.steps + 1 }
      two := { t'.two with steps := t.two.steps + 1 } }
  have hv₃ : t''.Valid := { hv₂ with steps := congrArg (· + 1) hv.steps }
  refine .ok t.one.store.size t.two.store.size t'' rfl ?_ hv₃ ((hg₁.trans hg₂).trans ⟨.refl _, rfl⟩)
    ⟨hv.size, _, _, hi₂, hss.push.bindParams _, hb⟩
  rw [Lox.openCall, hc.frame, hv.size]
  rfl

theorem callNative {host : Host} {args args' : List Value} {line line' : Nat} (hv : t.Valid) :
    Agree t (callNative host clock args line) (Lox.callNative host clock args' line')
      fun v v' t' => v.Alike t'.world v' := by
  let t' : Twins :=
    { t with
      one := { t.one with steps := t.one.steps + 1 }
      two := { t.two with steps := t.two.steps + 1 } }
  have hv' : t'.Valid := { hv with steps := congrArg (· + 1) hv.steps }
  refine .ok _ _ t' rfl rfl hv' ⟨.refl _, rfl⟩ ?_
  rw [hv.steps]
  exact .number _

end Agree

end Lox
