import Lox.Proofs.Copy.Tree
import Lox.Proofs.Renaming.Steps

/-!
Copies of machines. A copy holds the same values, save that the functions are copies; what its table
of hops says of an occurrence, that of the original says of the corresponding one. Nothing is asked
of scopes, so the machines may run whatever is handed to them.
-/

namespace Lox

variable {k k' : Copying}

/-! ### Values -/

structure Closure.Copy (k : Copying) (c c' : Closure) : Prop where
  id : c'.id = c.id
  frame : c'.frame = c.frame
  decl : Stmt.FunctionCopy k c.decl c'.decl

inductive Value.Copy (k : Copying) : Value → Value → Prop
  | nil : Value.Copy k .nil .nil
  | boolean (b : Bool) : Value.Copy k (.boolean b) (.boolean b)
  | number (x : Float) : Value.Copy k (.number x) (.number x)
  | string (s : String) : Value.Copy k (.string s) (.string s)
  | clock : Value.Copy k (.native clock) (.native clock)
  | closure {c c' : Closure} (h : c.Copy k c') : Value.Copy k (.closure c) (.closure c')

inductive Callable.Copy (k : Copying) : Callable → Callable → Prop
  | clock : Callable.Copy k (.native clock) (.native clock)
  | closure {c c' : Closure} (h : c.Copy k c') : Callable.Copy k (.closure c) (.closure c')

theorem Stmt.FunctionCopy.lexeme {f f' : Function} (h : Stmt.FunctionCopy k f f') :
    f'.name.lexeme = f.name.lexeme := by
  cases h
  rfl

theorem Stmt.FunctionCopy.params {f f' : Function} (h : Stmt.FunctionCopy k f f') :
    f'.params = f.params.map (Token.relined k.line) := by
  cases h
  rfl

theorem Stmt.FunctionCopy.body {f f' : Function} (h : Stmt.FunctionCopy k f f') :
    Stmt.ListCopy k f.body f'.body := by
  cases h
  assumption

namespace Value.Copy

variable {v v' u u' : Value} {op : Token}

theorem mono (hk : k.Sub k') (h : v.Copy k v') : v.Copy k' v' := by
  cases h with
  | nil => exact .nil
  | boolean b => exact .boolean b
  | number x => exact .number x
  | string s => exact .string s
  | clock => exact .clock
  | closure h => exact .closure ⟨h.id, h.frame, h.decl.mono hk⟩

theorem lift {o o' : Option Value} (hk : k.Sub k') (h : Option.Rel (Value.Copy k) o o') :
    Option.Rel (Value.Copy k') o o' := by
  cases h with
  | none => exact .none
  | some h => exact .some (h.mono hk)

theorem isSome {o o' : Option Value} (h : Option.Rel (Value.Copy k) o o') :
    o'.isSome = o.isSome := by
  cases h <;> rfl

theorem type (h : v.Copy k v') : v'.type = v.type := by cases h <;> rfl

theorem truthy (h : v.Copy k v') : v'.truthy = v.truthy := by cases h <;> rfl

theorem text (h : v.Copy k v') : v'.text = v.text := by
  cases h with
  | closure h => rw [Value.text, Value.text, h.decl.lexeme]
  | _ => rfl

theorem texts {o o' : Option Value} (h : Option.Rel (Value.Copy k) o o') :
    o'.map Value.text = o.map Value.text := by
  cases h with
  | none => rfl
  | some h => exact congrArg some h.text

theorem same (h : v.Copy k v') (hu : u.Copy k u') : v'.same u' = v.same u := by
  cases h <;> cases hu <;> try rfl
  next c c' hc d d' hd => rw [Value.same, Value.same, hc.id, hd.id]

theorem ofLiteral (l : Literal) : (Value.ofLiteral l).Copy k (Value.ofLiteral l) := by
  cases l with
  | nil => exact .nil
  | boolean b => exact .boolean b
  | number x => exact .number x
  | string s => exact .string s

/-- What is no function is its own copy. -/
theorem of_type (h : v.type ≠ .function) : v.Copy k v := by
  cases v with
  | nil => exact .nil
  | boolean b => exact .boolean b
  | number x => exact .number x
  | string s => exact .string s
  | native n | closure c => exact absurd rfl h

/-! ### Operators -/

theorem applyUnary_eq (h : v.Copy k v') : applyUnary (op.relined k.line) v' =
    (applyUnary op v).mapError (Fault.relined k.line) := by
  have hn : negate (op.relined k.line) v' = (negate op v).mapError (Fault.relined k.line) := by
    cases h <;> rfl
  unfold applyUnary
  rw [Token.kind_relined, h.truthy]
  split
  · exact hn
  · rfl
  · rfl

theorem add_eq (h : v.Copy k v') (hu : u.Copy k u') :
    add (op.relined k.line) v' u' = (add op v u).mapError (Fault.relined k.line) := by
  cases h <;> cases hu <;> try rfl
  · next s c c' hc => simp only [add, (Value.Copy.closure hc).text, Except.mapError]
  · next c c' hc s => simp only [add, (Value.Copy.closure hc).text, Except.mapError]

theorem onNumbers_eq {f f' : Float → Float → Except RuntimeFault Value} (h : v.Copy k v')
    (hu : u.Copy k u') (hf : ∀ x y, f' x y = (f x y).mapError (Fault.relined k.line)) :
    onNumbers (op.relined k.line) f' v' u' =
      (onNumbers op f v u).mapError (Fault.relined k.line) := by
  cases h <;> cases hu <;> first | exact hf _ _ | rfl

theorem applyBinary_eq (h : v.Copy k v') (hu : u.Copy k u') : applyBinary (op.relined k.line) v' u' =
    (applyBinary op v u).mapError (Fault.relined k.line) := by
  unfold applyBinary
  rw [Token.kind_relined, h.same hu]
  split
  · exact h.add_eq hu
  case h_4 =>
    refine h.onNumbers_eq hu fun x y => ?_
    unfold divide
    split <;> rfl
  case h_9 | h_10 | h_11 => rfl
  all_goals exact h.onNumbers_eq hu fun _ _ => rfl

theorem decides_eq (h : v.Copy k v') : decides (op.relined k.line) v' = decides op v := by
  rw [decides, decides, h.truthy, Token.kind_relined]

theorem callable? (h : v.Copy k v') : Option.Rel (Callable.Copy k) v.callable? v'.callable? := by
  cases h with
  | clock => exact .some .clock
  | closure h => exact .some (.closure h)
  | _ => exact .none

end Value.Copy

theorem Callable.Copy.arity {c c' : Callable} (h : c.Copy k c') : c'.arity = c.arity := by
  cases h with
  | clock => rfl
  | closure h => rw [Callable.arity, Callable.arity, h.decl.params, List.length_map]

/-! ### Stores -/

structure Store.Copy (k : Copying) (st st' : Store) : Prop where
  size : st'.size = st.size
  links : ∀ f, st'.enclosing? f = st.enclosing? f
  values : ∀ f x, Option.Rel (Value.Copy k) (st.here? f x) (st'.here? f x)

namespace Store.Copy

variable {st st' : Store} {f : Nat} {x : String} {v v' : Value}

theorem mono (hk : k.Sub k') (h : st.Copy k st') : st.Copy k' st' :=
  ⟨h.size, h.links, fun f x => Value.Copy.lift hk (h.values f x)⟩

theorem isSome (h : st.Copy k st') (f : Nat) (x : String) :
    (st'.here? f x).isSome = (st.here? f x).isSome := Value.Copy.isSome (h.values f x)

theorem define (h : st.Copy k st') (f : Nat) (x : String) (hv : v.Copy k v') :
    (st.define f x v).Copy k (st'.define f x v') := by
  refine ⟨?_, fun g => ?_, fun g y => ?_⟩
  · rw [size_define, size_define, h.size]
  · rw [enclosing?_define, enclosing?_define, h.links]
  · by_cases hf : f < st.size
    · rw [here?_define st hf, here?_define st' (by rwa [h.size])]
      split
      · exact .some hv
      · exact h.values g y
    · have hle := Nat.not_lt.mp hf
      rw [define_of_le hle, define_of_le (by rwa [h.size])]
      exact h.values g y

theorem push (h : st.Copy k st') (enclosing : Option Nat) :
    (st.push enclosing).Copy k (st'.push enclosing) := by
  refine ⟨?_, fun g => ?_, fun g y => ?_⟩
  · rw [size_push, size_push, h.size]
  · rw [enclosing?_push, enclosing?_push, h.size, h.links]
  · rw [here?_push, here?_push]
    exact h.values g y

theorem bindParams (h : st.Copy k st') (f : Nat) (ps : List Token) {vs vs' : List Value}
    (hvs : List.Forall₂ (Value.Copy k) vs vs') :
    (st.bindParams f ps vs).Copy k (st'.bindParams f (ps.map (Token.relined k.line)) vs') := by
  induction ps generalizing st st' vs vs' with
  | nil => cases hvs <;> exact h
  | cons p ps ih =>
      cases hvs with
      | nil => exact h
      | cons hv hvs => exact ih (h.define f p.lexeme hv) hvs

theorem binder? (h : st.Copy k st') (f : Nat) (x : String) : st'.binder? f x = st.binder? f x := by
  have hgo (n f : Nat) : binder?.go st' x n f = binder?.go st x n f := by
    induction n generalizing f with
    | zero => rfl
    | succ n ih => rw [binder?.go, binder?.go, h.isSome, h.links, funext ih]
  rw [Store.binder?, Store.binder?, h.size, hgo]

theorem ancestor? (h : st.Copy k st') (d f : Nat) : st'.ancestor? d f = st.ancestor? d f :=
  ancestor?_congr h.links d f

end Store.Copy

/-! ### Machines -/

structure Machine.Copy (k : Copying) (m m' : Machine) : Prop where
  store : m.store.Copy k m'.store
  hops : ∀ i j, k.same i j → m'.hops[j]? = m.hops[i]?
  current : m'.current = m.current
  callDepth : m'.callDepth = m.callDepth
  printed : m'.printed = m.printed
  last : Option.Rel (Value.Copy k) m.last m'.last
  nextClosure : m'.nextClosure = m.nextClosure
  steps : m'.steps = m.steps

theorem Machine.Copy.result {m m' : Machine} (h : m.Copy k m') : m'.result = m.result := by
  rw [Machine.result, Machine.result, Value.Copy.texts h.last]

theorem Machine.Copy.frameOf? {m m' : Machine} {i j : Nat} (h : m.Copy k m') (hij : k.same i j)
    (x : String) : m'.frameOf? j x = m.frameOf? i x := by
  rw [Machine.frameOf?, Machine.frameOf?, h.hops i j hij, h.store.binder?, h.current,
    funext (h.store.ancestor? · m.current)]

/-- What a run leaves as it was: the table of hops, the frame and the number of active calls. Lines
are only added. -/
structure Machine.Kept (m n : Machine) : Prop where
  hops : n.hops = m.hops
  current : n.current = m.current
  callDepth : n.callDepth = m.callDepth
  printed : ∃ lines, n.printed = m.printed ++ lines

theorem Machine.Kept.refl (m : Machine) : m.Kept m := ⟨rfl, rfl, rfl, #[], by simp⟩

theorem Machine.Kept.trans {m n n' : Machine} (h : m.Kept n) (h' : n.Kept n') : m.Kept n' := by
  obtain ⟨ls, hls⟩ := h.printed
  obtain ⟨ls', hls'⟩ := h'.printed
  exact ⟨h'.hops.trans h.hops, h'.current.trans h.current, h'.callDepth.trans h.callDepth,
    ls ++ ls', by rw [hls', hls, Array.append_assoc]⟩

/-! ### Runs that repeat one another -/

def Stop.relined (f : Nat → Nat) : Stop → Stop
  | .fault e => .fault (e.relined f)
  | .outOfFuel => .outOfFuel

/-- Two runs that came from a machine and its copy end alike, in a machine and its copy. -/
inductive Ends {α β : Type} (k : Copying) (m m' : Machine) (Q : α → β → Prop) :
    EStateM.Result Stop Machine α → EStateM.Result Stop Machine β → Prop
  | ok {a : α} {b : β} {n n' : Machine} (hq : Q a b) (hc : n.Copy k n') (hk : m.Kept n)
      (hk' : m'.Kept n') : Ends k m m' Q (.ok a n) (.ok b n')
  | error {e : Stop} {n n' : Machine} (hc : n.Copy k n') (hk : m.Kept n) (hk' : m'.Kept n') :
      Ends k m m' Q (.error e n) (.error (e.relined k.line) n')

/-- On a copy of a machine the second run does what the first one does on the machine. -/
def Repeats {α β : Type} (k : Copying) (Q : α → β → Prop) (x : Eval α) (y : Eval β) : Prop :=
  ∀ m m', m.Copy k m' → Ends k m m' Q (x m) (y m')

namespace Repeats

variable {α β γ δ : Type} {Q : α → β → Prop} {R : γ → δ → Prop} {x : Eval α} {y : Eval β}

theorem mono {Q' : α → β → Prop} (h : Repeats k Q x y) (hi : ∀ a b, Q a b → Q' a b) :
    Repeats k Q' x y := by
  intro m m' hm
  have hx := h m m' hm
  generalize x m = r, y m' = r' at hx ⊢
  cases hx with
  | ok hq hc hk hk' => exact .ok (hi _ _ hq) hc hk hk'
  | error hc hk hk' => exact .error hc hk hk'

theorem pure {a : α} {b : β} (h : Q a b) : Repeats k Q (pure a) (pure b) :=
  fun m m' hm => .ok h hm (.refl m) (.refl m')

theorem bind {f : α → Eval γ} {g : β → Eval δ} (h : Repeats k Q x y)
    (hf : ∀ a b, Q a b → Repeats k R (f a) (g b)) : Repeats k R (x >>= f) (y >>= g) := by
  intro m m' hm
  have hx := h m m' hm
  simp only [Bind.bind, EStateM.bind]
  generalize x m = r, y m' = r' at hx ⊢
  cases hx with
  | error hc hk hk' => exact .error hc hk hk'
  | @ok a b n n' hq hc hk hk' =>
      have hrun := hf a b hq n n' hc
      simp only
      generalize f a n = r, g b n' = r' at hrun ⊢
      cases hrun with
      | ok hq hc hl hl' => exact .ok hq hc (hk.trans hl) (hk'.trans hl')
      | error hc hl hl' => exact .error hc (hk.trans hl) (hk'.trans hl')

theorem outOfFuel : Repeats k Q (throw .outOfFuel : Eval α) (throw .outOfFuel : Eval β) :=
  fun m m' hm => .error (e := .outOfFuel) hm (.refl m) (.refl m')

theorem raise (line : Nat) (cause : RuntimeCause) :
    Repeats k Q (raise line cause : Eval α) (Lox.raise (k.line line) cause : Eval β) :=
  fun m m' hm => .error (e := .fault ⟨line, cause⟩) hm (.refl m) (.refl m')

/-- Steps that do the same to a machine and to its copy. -/
theorem step {a : α} {b : β} {f g : Machine → Machine} (hx : ∀ m, x m = .ok a (f m))
    (hy : ∀ m, y m = .ok b (g m)) (hq : Q a b)
    (h : ∀ m m', m.Copy k m' → (f m).Copy k (g m') ∧ m.Kept (f m) ∧ m'.Kept (g m')) :
    Repeats k Q x y := by
  intro m m' hm
  rw [hx, hy]
  obtain ⟨hc, hk, hk'⟩ := h m m' hm
  exact .ok hq hc hk hk'

/-! ### Operators -/

variable {v v' u u' : Value}

theorem unary (op : Token) (h : v.Copy k v') : Repeats k (Value.Copy k)
    (orRaise (applyUnary op v)) (orRaise (applyUnary (op.relined k.line) v')) := by
  rw [h.applyUnary_eq]
  exact applyUnary_cases (P := fun r => Repeats k _ (orRaise r) (orRaise (r.mapError _)))
    (fun u hu => pure (.of_type hu)) fun f _ => raise f.line f.cause

theorem binary (op : Token) (h : v.Copy k v') (hu : u.Copy k u') : Repeats k (Value.Copy k)
    (orRaise (applyBinary op v u)) (orRaise (applyBinary (op.relined k.line) v' u')) := by
  rw [h.applyBinary_eq hu]
  exact applyBinary_cases (P := fun r => Repeats k _ (orRaise r) (orRaise (r.mapError _)))
    (fun u hu => pure (.of_type hu)) fun f _ => raise f.line f.cause

theorem calleeOf (line given : Nat) (h : v.Copy k v') : Repeats k (Callable.Copy k)
    (orRaise (calleeOf line v given)) (orRaise (Lox.calleeOf (k.line line) v' given)) := by
  have hcallable := h.callable?
  unfold Lox.calleeOf
  cases hc : v.callable? with
  | none =>
      rw [hc] at hcallable
      cases hc' : v'.callable? <;> rw [hc'] at hcallable <;> cases hcallable
      rw [h.type]
      exact raise line _
  | some c =>
      rw [hc] at hcallable
      cases hc' : v'.callable? <;> rw [hc'] at hcallable <;> cases hcallable
      next c' ha =>
      simp only [ha.arity]
      by_cases hl : c.arity = given
      · simp only [if_pos hl]
        exact pure ha
      · simp only [if_neg hl]
        exact raise line _

/-! ### Values that are seen and bound -/

theorem see (h : v.Copy k v') : Repeats k (fun _ _ => True) (see v) (Lox.see v') :=
  step (fun _ => rfl) (fun _ => rfl) trivial fun m m' hm =>
    ⟨{ hm with last := .some h, steps := congrArg (· + 1) hm.steps }, ⟨rfl, rfl, rfl, #[], by simp⟩,
      ⟨rfl, rfl, rfl, #[], by simp⟩⟩

theorem printLine (h : v.Copy k v') :
    Repeats k (fun _ _ => True) (printLine v) (Lox.printLine v') := by
  refine step (fun _ => rfl) (fun _ => rfl) trivial fun m m' hm => ⟨?_, ?_, ?_⟩
  · exact { hm with
      last := .some h
      printed := by simp only [hm.printed, h.text]
      steps := congrArg (· + 1) hm.steps }
  · exact ⟨rfl, rfl, rfl, #[v.text], by simp⟩
  · exact ⟨rfl, rfl, rfl, #[v'.text], by simp⟩

theorem define (x : String) (h : v.Copy k v') :
    Repeats k (fun _ _ => True) (defineHere x v) (defineHere x v') :=
  step (fun _ => rfl) (fun _ => rfl) trivial fun m m' hm =>
    ⟨{ hm with store := by rw [hm.current]; exact hm.store.define m.current x h },
      ⟨rfl, rfl, rfl, #[], by simp⟩, ⟨rfl, rfl, rfl, #[], by simp⟩⟩

theorem declare {f f' : Function} (h : Stmt.FunctionCopy k f f') :
    Repeats k (fun _ _ => True) (declareFunction f) (declareFunction f') := by
  refine step (fun _ => rfl) (fun _ => rfl) trivial fun m m' hm =>
    ⟨?_, ⟨rfl, rfl, rfl, #[], by simp⟩, ⟨rfl, rfl, rfl, #[], by simp⟩⟩
  have hc : (Value.closure ⟨m.nextClosure, f, m.current⟩).Copy k
      (.closure ⟨m'.nextClosure, f', m'.current⟩) := .closure ⟨hm.nextClosure, hm.current, h⟩
  exact { hm with
    store := by
      simp only [h.lexeme]
      rw [hm.current] at hc ⊢
      exact hm.store.define m.current f.name.lexeme hc
    nextClosure := congrArg (· + 1) hm.nextClosure }

theorem read {i j : Nat} (name : Token) (h : k.same i j) :
    Repeats k (Value.Copy k) (readVariable i name) (readVariable j (name.relined k.line)) := by
  intro m m' hm
  rw [readVariable, readVariable, Token.lexeme_relined, hm.frameOf? h]
  cases m.frameOf? i name.lexeme with
  | none => exact raise _ _ m m' hm
  | some frame =>
      simp only [Option.bind_some]
      have hv := hm.store.values frame name.lexeme
      cases hx : m.store.here? frame name.lexeme with
      | none =>
          rw [hx] at hv
          cases hx' : m'.store.here? frame name.lexeme <;> rw [hx'] at hv <;> cases hv
          exact raise _ _ m m' hm
      | some v =>
          rw [hx] at hv
          cases hx' : m'.store.here? frame name.lexeme <;> rw [hx'] at hv <;> cases hv
          exact .ok ‹_› hm (.refl m) (.refl m')

theorem assign {i j : Nat} (name : Token) (h : k.same i j) (hv : v.Copy k v') :
    Repeats k (fun _ _ => True) (assignVariable i name v)
      (assignVariable j (name.relined k.line) v') := by
  intro m m' hm
  rw [assignVariable, assignVariable, Token.lexeme_relined, hm.frameOf? h]
  cases m.frameOf? i name.lexeme with
  | none => exact raise _ _ m m' hm
  | some frame =>
      exact .ok trivial { hm with store := hm.store.define frame name.lexeme hv }
        ⟨rfl, rfl, rfl, #[], by simp⟩ ⟨rfl, rfl, rfl, #[], by simp⟩

/-! ### Frames and calls -/

/-- A block opens a frame inside the one in which it stands. -/
theorem openHere : Repeats k Eq (do openFrame (← get).current) (do openFrame (← get).current) := by
  intro m m' hm
  have hopen (m : Machine) : (do openFrame (← get).current) m = openFrame m.current m := rfl
  rw [hopen, hopen, openFrame, openFrame]
  have hpush : (m.store.push (some m.current)).Copy k (m'.store.push (some m'.current)) := by
    rw [hm.current]
    exact hm.store.push _
  rw [hm.store.size]
  exact .ok rfl { hm with store := hpush } ⟨rfl, rfl, rfl, #[], by simp⟩ ⟨rfl, rfl, rfl, #[], by simp⟩

theorem openCall {c c' : Closure} {vs vs' : List Value} (h : c.Copy k c')
    (hvs : List.Forall₂ (Value.Copy k) vs vs') :
    Repeats k Eq (openCall c vs) (Lox.openCall c' vs') := by
  intro m m' hm
  rw [Lox.openCall, Lox.openCall, hm.store.size, h.frame, h.decl.params]
  exact .ok rfl { hm with
    store := (hm.store.push (some c.frame)).bindParams m.store.size c.decl.params hvs
    steps := congrArg (· + 1) hm.steps } ⟨rfl, rfl, rfl, #[], by simp⟩ ⟨rfl, rfl, rfl, #[], by simp⟩

theorem callNative (host : Host) {vs vs' : List Value} (line line' : Nat) :
    Repeats k (Value.Copy k) (callNative host clock vs line)
      (Lox.callNative host clock vs' line') := by
  intro m m' hm
  rw [Lox.callNative, Lox.callNative, hm.steps]
  exact .ok (.number _) { hm with steps := rfl } ⟨rfl, rfl, rfl, #[], by simp⟩
    ⟨rfl, rfl, rfl, #[], by simp⟩

theorem within (frame : Nat) (h : Repeats k Q x y) :
    Repeats k Q (within frame x) (Lox.within frame y) := by
  intro m m' hm
  have hrun := h { m with current := frame } { m' with current := frame } { hm with current := rfl }
  rw [Lox.within, Lox.within]
  generalize x { m with current := frame } = r, y { m' with current := frame } = r' at hrun ⊢
  cases hrun with
  | ok hq hc hk hk' =>
      exact .ok hq { hc with current := hm.current } ⟨hk.hops, rfl, hk.callDepth, hk.printed⟩
        ⟨hk'.hops, rfl, hk'.callDepth, hk'.printed⟩
  | error hc hk hk' =>
      exact .error { hc with current := hm.current } ⟨hk.hops, rfl, hk.callDepth, hk.printed⟩
        ⟨hk'.hops, rfl, hk'.callDepth, hk'.printed⟩

theorem asCall (line : Nat) (h : Repeats k Q x y) :
    Repeats k Q (asCall line x) (Lox.asCall (k.line line) y) := by
  intro m m' hm
  have hback {n n' : Machine} {d : Nat} (h : Machine.Kept { n with callDepth := d + 1 } n') :
      n'.callDepth - 1 = d := by rw [h.callDepth, Nat.add_sub_cancel]
  rw [Lox.asCall, Lox.asCall, hm.callDepth]
  split
  · exact raise line _ m m' hm
  have hrun := h { m with callDepth := m.callDepth + 1 } { m' with callDepth := m.callDepth + 1 }
    { hm with callDepth := rfl }
  generalize x { m with callDepth := m.callDepth + 1 } = r,
    y { m' with callDepth := m.callDepth + 1 } = r' at hrun ⊢
  cases hrun with
  | ok hq hc hk hk' =>
      exact .ok hq { hc with callDepth := congrArg (· - 1) hc.callDepth }
        ⟨hk.hops, hk.current, hback hk, hk.printed⟩
        ⟨hk'.hops, hk'.current, (hback hk').trans hm.callDepth.symm, hk'.printed⟩
  | error hc hk hk' =>
      exact .error { hc with callDepth := congrArg (· - 1) hc.callDepth }
        ⟨hk.hops, hk.current, hback hk, hk.printed⟩
        ⟨hk'.hops, hk'.current, (hback hk').trans hm.callDepth.symm, hk'.printed⟩

end Repeats

end Lox
