import Lox.Proofs.Run.Depth
import Lox.Proofs.Run.Hygiene

/-!
Loops with clauses, round by round. The frame in which such a loop is done is opened once, before
its first clause; all rounds are done in it, each with the increment behind a body that ended by
itself; and when the loop has come to its end the machine is back outside, where no way leads to
that frame.
-/

namespace Lox

/-- A loop with clauses, all of which may be left out. -/
structure ForLoop where
  initial : Option Stmt
  condition : Option Expr
  increment : Option Expr
  body : Stmt

namespace ForLoop

variable (l : ForLoop)

def test : Expr := l.condition.getD (.literal (.boolean true))

/-- The body with the increment behind it. -/
def round : Stmt := Grammar.withIncrement l.body l.increment

def loop : Stmt := .whileLoop l.test l.round

def tree : Stmt := Grammar.withInitial l.loop l.initial

/-- The frame in which the loop is done, a new one if there is a first clause. -/
def frame (m : Machine) : Nat := if l.initial.isSome then m.store.size else m.current

end ForLoop

/-! ### Blocks and pairs of statements -/

/-- How a statement ends, and in which machine. -/
abbrev Ending := EStateM.Result Stop Machine Flow

def Ending.backIn (frame : Nat) : Ending → Ending
  | .ok flow m => .ok flow { m with current := frame }
  | .error e m => .error e { m with current := frame }

/-- The statement behind is done next. -/
def Ending.goesOn : Ending → Bool
  | .ok .normal _ => true
  | _ => false

def Ending.cutOff : Ending → Bool
  | .error .outOfFuel _ => true
  | _ => false

/-- The machine in a new frame inside its own. -/
def Machine.entered (m : Machine) : Machine :=
  { m with store := m.store.push (some m.current), current := m.store.size }

def Machine.saw (v : Value) (m : Machine) : Machine :=
  { m with last := some v, steps := m.steps + 1 }

variable {host : Host} {fuel : Nat} {m : Machine} {s t : Stmt} {r : Ending}

theorem Ending.cutOff_backIn (frame : Nat) (r : Ending) : (r.backIn frame).cutOff = r.cutOff := by
  rcases r with _ | ⟨_ | _, _⟩ <;> rfl

theorem exec_zero (s : Stmt) (m : Machine) : exec host 0 s m = .error .outOfFuel m := by
  unfold exec
  rfl

theorem execAll_zero (ss : List Stmt) (m : Machine) :
    execAll host 0 ss m = .error .outOfFuel m := by
  unfold execAll
  rfl

theorem within_apply (frame : Nat) (run : Eval Flow) (m : Machine) :
    within frame run m = Ending.backIn m.current (run { m with current := frame }) := by
  unfold within
  cases run { m with current := frame } <;> rfl

theorem exec_block (body : List Stmt) (m : Machine) : exec host (fuel + 1) (.block body) m =
    Ending.backIn m.current (execAll host fuel body m.entered) := by
  rw [exec]
  exact within_apply m.store.size _ { m with store := m.store.push (some m.current) }

theorem execAll_cons (ss : List Stmt) (m : Machine) :
    execAll host (fuel + 1) (s :: ss) m = match exec host fuel s m with
      | .ok .normal n => execAll host fuel ss n
      | r => r := by
  rw [execAll]
  simp only [bind, EStateM.bind]
  rcases exec host fuel s m with ⟨_ | v, n⟩ | e <;> rfl

theorem execAll_one (s : Stmt) (m : Machine) :
    execAll host (fuel + 1) [s] m = exec host fuel s m := by
  rw [execAll_cons]
  cases fuel with
  | zero => rw [exec_zero]
  | succ fuel =>
      rcases exec host (fuel + 1) s m with ⟨_ | v, n⟩ | e
      · rw [execAll]
        rfl
      · rfl
      · rfl

/-- Two statements in a block are done in a frame of its own, the second one when the first one has
ended by itself. -/
theorem exec_pair (h : exec host fuel (.block [s, t]) m = r) (hr : r.cutOff = false) :
    ∃ (k : Nat) (r₀ : Ending), fuel = k + 3 ∧ r = r₀.backIn m.current ∧
      (exec host (k + 1) s m.entered = r₀ ∧ r₀.goesOn = false ∨
        ∃ n, exec host (k + 1) s m.entered = .ok .normal n ∧ exec host k t n = r₀) := by
  obtain _ | _ | _ | k := fuel
  · rw [exec_zero] at h
    exact absurd (h ▸ hr) nofun
  · rw [exec_block, execAll_zero] at h
    exact absurd (h ▸ hr) nofun
  · rw [exec_block, execAll_cons, exec_zero] at h
    exact absurd (h ▸ hr) nofun
  · rw [exec_block, execAll_cons] at h
    refine ⟨k, _, rfl, h.symm, ?_⟩
    rcases hs : exec host (k + 1) s m.entered with ⟨_ | v, n⟩ | e
    · exact .inr ⟨n, rfl, (execAll_one t n).symm⟩
    · exact .inl ⟨rfl, rfl⟩
    · exact .inl ⟨rfl, rfl⟩

/-! ### One round -/

/-- How an expression statement ends. -/
theorem exec_expression {e : Expr} (h : exec host fuel (.expression e) m = r)
    (hr : r.cutOff = false) : ∃ k, fuel = k + 1 ∧
      ((∃ f n, eval host k e m = .error f n ∧ r = .error f n) ∨
        ∃ v n, eval host k e m = .ok v n ∧ r = .ok .normal (n.saw v)) := by
  cases fuel with
  | zero =>
      rw [exec_zero] at h
      exact absurd (h ▸ hr) nofun
  | succ k =>
      refine ⟨k, rfl, ?_⟩
      rw [exec] at h
      simp only [bind, EStateM.bind] at h
      cases he : eval host k e m with
      | error f n =>
          rw [he] at h
          exact .inl ⟨f, n, rfl, h.symm⟩
      | ok v n =>
          rw [he] at h
          exact .inr ⟨v, n, rfl, h.symm⟩

namespace ForLoop

variable {l : ForLoop} {n : Machine} {k : Nat}

/-- How a round goes: the body, and behind one that has ended by itself the increment, both in a
frame that is opened for them. Without an increment the body is all. -/
inductive Round (host : Host) (l : ForLoop) (m : Machine) : Ending → Prop
  | plain {k : Nat} {r : Ending} (hi : l.increment = none) (hb : exec host k l.body m = r) :
      Round host l m r
  | ends {e : Expr} {k : Nat} {r : Ending} (hi : l.increment = some e)
      (hb : exec host k l.body m.entered = r) (hr : r.goesOn = false) :
      Round host l m (r.backIn m.current)
  | fails {e : Expr} {j k : Nat} {n n' : Machine} {f : Stop} (hi : l.increment = some e)
      (hb : exec host k l.body m.entered = .ok .normal n) (he : eval host j e n = .error f n') :
      Round host l m (.error f { n' with current := m.current })
  | goesOn {e : Expr} {j k : Nat} {n n' : Machine} {v : Value} (hi : l.increment = some e)
      (hb : exec host k l.body m.entered = .ok .normal n) (he : eval host j e n = .ok v n') :
      Round host l m (.ok .normal { n'.saw v with current := m.current })

theorem round_of_exec (h : exec host fuel l.round m = r) (hr : r.cutOff = false) :
    l.Round host m r := by
  rw [round] at h
  cases hi : l.increment with
  | none =>
      rw [hi] at h
      exact .plain hi h
  | some e =>
      rw [hi] at h
      obtain ⟨k, r₀, -, rfl, ⟨hb, hend⟩ | ⟨n, hb, hexec⟩⟩ := exec_pair h hr
      · exact .ends hi hb hend
      · rw [Ending.cutOff_backIn] at hr
        obtain ⟨j, -, ⟨f, n', he, rfl⟩ | ⟨v, n', he, rfl⟩⟩ := exec_expression hexec hr
        · exact .fails hi hb he
        · exact .goesOn hi hb he

/-! ### Round after round -/

/-- The loop started in `m` is before its condition in `n`, after its first clause and any number of
rounds that ended by themselves. Both machines come with the fuel that is left. -/
inductive AtHead (host : Host) (l : ForLoop) (fuel : Nat) (m : Machine) : Nat → Machine → Prop
  | bare (hi : l.initial = none) : AtHead host l fuel m fuel m
  | begun {i : Stmt} {k : Nat} {n : Machine} (hi : l.initial = some i) (hf : fuel = k + 3)
      (hb : exec host (k + 1) i m.entered = .ok .normal n) : AtHead host l fuel m k n
  | again {k : Nat} {n n₁ n₂ : Machine} {v : Value} (h : AtHead host l fuel m (k + 1) n)
      (ht : eval host k l.test n = .ok v n₁) (hv : v.truthy = true)
      (hr : exec host k l.round (n₁.saw v) = .ok .normal n₂) : AtHead host l fuel m k n₂

/-- How the loop ends before its condition: there, or with a round that does not end by itself. -/
inductive Last (host : Host) (l : ForLoop) (n : Machine) : Ending → Prop
  | fails {k : Nat} {n' : Machine} {f : Stop} (ht : eval host k l.test n = .error f n') :
      Last host l n (.error f n')
  | stops {k : Nat} {n' : Machine} {v : Value} (ht : eval host k l.test n = .ok v n')
      (hv : v.truthy = false) : Last host l n (.ok .normal (n'.saw v))
  | leaves {k : Nat} {n' : Machine} {v : Value} {r : Ending}
      (ht : eval host k l.test n = .ok v n') (hv : v.truthy = true)
      (hr : l.Round host (n'.saw v) r) (hend : r.goesOn = false) : Last host l n r

/-- How the whole loop ends. -/
inductive Whole (host : Host) (l : ForLoop) (fuel : Nat) (m : Machine) : Ending → Prop
  | unbegun {i : Stmt} {k : Nat} {r : Ending} (hi : l.initial = some i)
      (hb : exec host k i m.entered = r) (hr : r.goesOn = false) :
      Whole host l fuel m (r.backIn m.current)
  | ended {k : Nat} {n : Machine} {r : Ending} (h : l.AtHead host fuel m k n)
      (hr : l.Last host n r) : Whole host l fuel m (r.backIn m.current)

theorem exec_loop (n : Machine) : exec host (k + 1) l.loop n = match eval host k l.test n with
    | .error f n' => .error f n'
    | .ok v n' =>
      if v.truthy then
        match exec host k l.round (n'.saw v) with
        | .ok .normal n'' => exec host k l.loop n''
        | r => r
      else .ok .normal (n'.saw v) := by
  rw [loop, exec]
  simp only [bind, EStateM.bind]
  cases eval host k l.test n with
  | error f n' => rfl
  | ok v n' =>
      have hsee : see v n' = .ok () (n'.saw v) := rfl
      simp only [hsee]
      cases v.truthy with
      | false => rfl
      | true =>
          simp only [if_true, EStateM.bind]
          rcases exec host k l.round (n'.saw v) with ⟨_ | w, n''⟩ | e <;> rfl

theorem last_of_exec (h : exec host k l.loop n = r) (hr : r.cutOff = false)
    (hn : l.AtHead host fuel m k n) : ∃ k n, l.AtHead host fuel m k n ∧ l.Last host n r := by
  induction k generalizing n with
  | zero =>
      rw [exec_zero] at h
      exact absurd (h ▸ hr) nofun
  | succ k ih =>
      rw [exec_loop] at h
      cases ht : eval host k l.test n with
      | error f n' =>
          rw [ht] at h
          exact ⟨_, n, hn, h ▸ .fails ht⟩
      | ok v n' =>
          simp only [ht] at h
          cases hv : v.truthy with
          | false =>
              rw [hv] at h
              exact ⟨_, n, hn, h ▸ .stops ht hv⟩
          | true =>
              simp only [hv, if_true] at h
              rcases hround : exec host k l.round (n'.saw v) with ⟨_ | w, n''⟩ | e
              · rw [hround] at h
                exact ih h (.again hn ht hv hround)
              · rw [hround] at h
                obtain rfl : .ok (.returned w) n'' = r := h
                exact ⟨_, n, hn, .leaves ht hv (round_of_exec hround hr) rfl⟩
              · rw [hround] at h
                obtain rfl : .error e _ = r := h
                exact ⟨_, n, hn, .leaves ht hv (round_of_exec hround hr) rfl⟩

/-- Unless it is cut off for want of fuel, a loop with clauses is its first clause and rounds. -/
theorem whole_of_exec (h : exec host fuel l.tree m = r) (hr : r.cutOff = false) :
    l.Whole host fuel m r := by
  cases hi : l.initial with
  | none =>
      rw [tree, hi] at h
      obtain ⟨k, n, hn, hlast⟩ := last_of_exec h hr (.bare hi)
      have hback : r = r.backIn m.current := by
        have hkept := (allKeep host fuel).exec l.loop
        cases r with
        | ok flow n => rw [Ending.backIn, ← (hkept.ok h).current]
        | error e n => rw [Ending.backIn, ← (hkept.error h).current]
      rw [hback]
      exact .ended hn hlast
  | some i =>
      rw [tree, hi] at h
      obtain ⟨k, r₀, hf, rfl, ⟨hb, hend⟩ | ⟨n, hb, hloop⟩⟩ := exec_pair h hr
      · exact .unbegun hi hb hend
      · rw [Ending.cutOff_backIn] at hr
        obtain ⟨k, n, hn, hlast⟩ := last_of_exec hloop hr (.begun hi hf hb)
        exact .ended hn hlast

/-- The loop is before its increment in `n`, in a round of which the body has ended by itself. -/
inductive AtIncrement (host : Host) (l : ForLoop) (fuel : Nat) (m : Machine) : Machine → Prop
  | intro {e : Expr} {k : Nat} {n n₁ n₂ : Machine} {v : Value} (hi : l.increment = some e)
      (h : AtHead host l fuel m (k + 4) n) (ht : eval host (k + 3) l.test n = .ok v n₁)
      (hv : v.truthy = true) (hb : exec host (k + 1) l.body (n₁.saw v).entered = .ok .normal n₂) :
      AtIncrement host l fuel m n₂

/-! ### The frame of the loop -/

/-- What holds of the loop's frame as long as the loop is at work. -/
structure Stands (l : ForLoop) (m n : Machine) : Prop where
  grows : m.store.Grows n.store
  around : l.initial.isSome = true → n.store.enclosing? (l.frame m) = some m.current
  bound : ∀ x e, l.initial = some (.var x e) → (n.store.here? (l.frame m) x.lexeme).isSome

theorem Stands.mono {n' : Machine} (h : l.Stands m n) (hg : n.store.Grows n'.store) :
    l.Stands m n' where
  grows := h.grows.trans hg
  around hi := hg.enclosing? (h.around hi)
  bound x e hi := hg.bound _ _ (h.bound x e hi)

end ForLoop

namespace Run

variable {runs : List Run} {r : Run} {task : Task} {n : Machine} {flow : Flow}

theorem Does.grows (h : r.Does (Session.after runs) fuel task m) :
    m.store.Grows (task.leaves r.host fuel m).store := by
  obtain ⟨past, hv, hr⟩ := h.ready
  obtain ⟨past', -, hg⟩ := hr.grows r.host fuel hv
  exact hg.store

theorem Does.grows_exec (h : r.Does (Session.after runs) fuel (.exec s) m)
    (hn : exec r.host fuel s m = .ok flow n) : m.store.Grows n.store := by
  have hg := h.grows
  rwa [Task.leaves, Eval.leaves, hn] at hg

theorem Does.grows_eval {e : Expr} {v : Value}
    (h : r.Does (Session.after runs) fuel (.eval e) m) (hn : eval r.host fuel e m = .ok v n) :
    m.store.Grows n.store := by
  have hg := h.grows
  rwa [Task.leaves, Eval.leaves, hn] at hg

/-- A declaration of a variable that ends by itself leaves the variable bound. -/
theorem Does.bound_of_var {x : Token} {e : Option Expr}
    (h : r.Does (Session.after runs) fuel (.exec (.var x e)) m)
    (hn : exec r.host fuel (.var x e) m = .ok .normal n) :
    (n.store.here? m.current x.lexeme).isSome := by
  have hdefine {st : Store} (hs : m.store.Grows st) (v : Value) :
      ((st.define m.current x.lexeme v).here? m.current x.lexeme).isSome := by
    obtain ⟨past, hv, hr⟩ := h.ready
    have hlt := Nat.lt_of_lt_of_le (hr.current_lt hv rfl) hs.size
    rw [Store.here?_define st hlt, if_pos ⟨rfl, rfl⟩]
    rfl
  cases fuel with
  | zero =>
      rw [exec_zero] at hn
      cases hn
  | succ k =>
      cases e with
      | none =>
          rw [exec] at hn
          cases hn
          exact hdefine (.refl _) .nil
      | some e =>
          rw [exec] at hn
          simp only [bind, EStateM.bind] at hn
          cases he : eval r.host k e m with
          | error f n' =>
              rw [he] at hn
              cases hn
          | ok v n' =>
              rw [he] at hn
              cases hn
              have hc := (((allKeep r.host k).eval e).ok he).current
              simp only [hc]
              exact hdefine ((h.part .initial).grows_eval he) v

/-- A statement that is no declaration gives no name to the frames that are there. -/
theorem Does.gains_nothing {f : Nat} {x : String}
    (h : r.Does (Session.after runs) fuel (.exec s) m) (hs : s.isDeclaration = false)
    (hn : exec r.host fuel s m = .ok flow n) (hf : f < m.store.size)
    (hx : m.store.here? f x = none) : n.store.here? f x = none := by
  obtain ⟨past, hv, hr⟩ := h.ready
  have hgains := Task.gains r.host _ fuel hv hr.tighten f hf x
  rw [Task.leaves, Eval.leaves, hn, hx] at hgains
  refine Option.not_isSome_iff_eq_none.mp fun hsome => ?_
  rcases hgains hsome with hsome | ⟨-, hname⟩
  · cases hsome
  · cases s <;> cases hs <;> cases hname

end Run

/-! ### Names that lead to a frame -/

namespace Store

variable {st : Store} {f g : Nat} {x : String}

theorem lt_of_here? (h : (st.here? f x).isSome) : f < st.size := by
  refine Nat.lt_of_not_le fun hf => ?_
  rw [here?_of_le hf] at h
  cases h

theorem binder?_here (h : (st.here? f x).isSome) : st.binder? f x = some f := by
  obtain ⟨k, hk⟩ := Nat.exists_eq_add_of_lt (lt_of_here? h)
  rw [binder?, hk, binder?.go, if_pos h]

theorem binder?_around (hg : st.here? g x = none) (hl : st.enclosing? g = some f)
    (h : (st.here? f x).isSome) : st.binder? g x = some f := by
  have hne : g ≠ f := by
    rintro rfl
    rw [hg] at h
    cases h
  have hgs := lt_of_enclosing? hl
  have hfs := lt_of_here? h
  obtain ⟨k, hk⟩ := Nat.exists_eq_add_of_le (show 2 ≤ st.size by omega)
  rw [binder?, hk, Nat.add_comm, binder?.go, hg, hl, Option.isSome_none, if_neg Bool.false_ne_true,
    Option.bind_some, binder?.go, if_pos h]

end Store

namespace ForLoop

variable {l : ForLoop} {runs : List Run} {r : Run} {n : Machine} {k : Nat}

/-- Before the condition the machine is in the frame of the loop, whatever rounds there were. -/
theorem AtHead.stands (h : l.AtHead r.host fuel m k n)
    (hm : r.Does (Session.after runs) fuel (.exec l.tree) m) :
    r.Does (Session.after runs) k (.exec l.loop) n ∧ n.current = l.frame m ∧ l.Stands m n := by
  induction h with
  | bare hi =>
      rw [tree, hi] at hm
      refine ⟨hm, ?_, .refl _, fun h => ?_, fun x e h => ?_⟩
      · rw [frame, hi]
        rfl
      · rw [hi] at h
        cases h
      · rw [hi] at h
        cases h
  | @begun i k n hi hf hb =>
      rw [tree, hi, Grammar.withInitial, hf] at hm
      have hframe : l.frame m = m.store.size := by rw [frame, hi]; rfl
      have hfirst : r.Does (Session.after runs) (k + 1) (.exec i) m.entered :=
        (hm.part (.block rfl)).part .statement
      have hpush := Store.Grows.push m.store (some m.current)
      have hg := hfirst.grows_exec hb
      have hentered : m.entered.store.enclosing? m.store.size = some m.current := by
        rw [Machine.entered, Store.enclosing?_push, if_pos rfl]
      refine ⟨((hm.part (.block rfl)).part (.rest hb)).part .statement, ?_, hpush.trans hg,
        fun _ => ?_, fun x e h => ?_⟩
      · rw [hframe, (((allKeep r.host (k + 1)).exec i).ok hb).current]
        rfl
      · rw [hframe]
        exact hg.enclosing? hentered
      · obtain rfl : i = .var x e := Option.some.inj (hi.symm.trans h)
        rw [hframe]
        exact hfirst.bound_of_var hb
  | again _ ht hv hr ih =>
      obtain ⟨hdoes, hcurrent, hstands⟩ := ih
      have hagain := hdoes.part (.again ht rfl hv hr)
      obtain ⟨past, hvalid, hready⟩ := hdoes.ready
      obtain ⟨past', hf⟩ := (Task.Asks.again ht rfl hv hr).follows hvalid hready
      refine ⟨hagain, ?_, hstands.mono hf.store⟩
      rcases hf.current with hc | ⟨-, body, hbody⟩
      · rw [hc, hcurrent]
      · cases hbody

/-- Before the increment it is in a frame without names that stands in the frame of the loop. -/
theorem AtIncrement.stands (h : l.AtIncrement r.host fuel m n) (hd : l.body.isDeclaration = false)
    (hm : r.Does (Session.after runs) fuel (.exec l.tree) m) :
    n.store.enclosing? n.current = some (l.frame m) ∧ (∀ x, n.store.here? n.current x = none) ∧
      l.Stands m n := by
  cases h with
  | @intro e k n₀ n₁ _ v hi hn ht hv hb =>
      obtain ⟨hdoes, hcurrent, hstands⟩ := hn.stands hm
      have hround : r.Does (Session.after runs) (k + 3) (.exec l.round) (n₁.saw v) :=
        hdoes.part (.round ht rfl hv)
      rw [round, hi, Grammar.withIncrement] at hround
      have hbody : r.Does (Session.after runs) (k + 1) (.exec l.body) (n₁.saw v).entered :=
        (hround.part (.block rfl)).part .statement
      have htest : n₀.store.Grows n₁.store := (hdoes.part .test).grows_eval ht
      have hpush := Store.Grows.push n₁.store (some n₁.current)
      have hg := hbody.grows_exec hb
      have hsame : n₁.current = l.frame m := by
        rw [(((allKeep r.host (k + 3)).eval l.test).ok ht).current, hcurrent]
      have hentered : (n₁.saw v).entered.store.enclosing? n₁.store.size = some (l.frame m) := by
        rw [← hsame]
        simp only [Machine.entered, Machine.saw, Store.enclosing?_push, if_true]
      have hframe : n.current = n₁.store.size :=
        (((allKeep r.host (k + 1)).exec l.body).ok hb).current
      rw [hframe]
      refine ⟨hg.enclosing? hentered, fun x => ?_,
        ((hstands.mono htest).mono hpush).mono hg⟩
      exact hbody.gains_nothing hd hb (Store.lt_of_enclosing? hentered) (Store.here?_new _ _ x)

/-- The variable of the first clause is one for all rounds: its name leads to the frame of the loop
from the condition and from the increment. -/
theorem shared {x : Token} {e : Option Expr} (hi : l.initial = some (.var x e))
    (hd : l.body.isDeclaration = false)
    (hm : r.Does (Session.after runs) fuel (.exec l.tree) m)
    (h : l.AtHead r.host fuel m k n ∨ l.AtIncrement r.host fuel m n) :
    n.store.binder? n.current x.lexeme = some (l.frame m) := by
  rcases h with h | h
  · obtain ⟨-, hcurrent, hstands⟩ := h.stands hm
    rw [hcurrent]
    exact Store.binder?_here (hstands.bound x e hi)
  · obtain ⟨haround, hnone, hstands⟩ := h.stands hd hm
    exact Store.binder?_around (hnone _) haround (hstands.bound x e hi)

/-- From a place in a program no way leads to frames that were opened later. -/
theorem ancestor?_lt {st st' : Store} {f g d : Nat} {ss : Scopes} (h : Covers st f ss)
    (hg : st.Grows st') (hroot : st'.enclosing? globals = none) (hs : 0 < st.size)
    (hd : st'.ancestor? d f = some g) : g < st.size := by
  induction d generalizing f ss with
  | zero =>
      cases hd
      exact h.lt_size hs
  | succ d ih =>
      rw [Store.ancestor?] at hd
      cases h with
      | root =>
          rw [hroot] at hd
          cases hd
      | inside hb hl h =>
          rw [hg.enclosing? hl] at hd
          exact ih h hd

/-- When the loop is done the machine is back outside, and no occurrence means a variable in the
frame that was opened for the loop. -/
theorem gone (hm : r.Does (Session.after runs) fuel (.exec l.tree) m) :
    let n := (Task.exec l.tree).leaves r.host fuel m
    n.current = m.current ∧
      (l.initial.isSome = true → ∀ id x, n.frameOf? id x ≠ some (l.frame m)) := by
  intro n
  have hcurrent : n.current = m.current := (Task.kept r.host fuel (.exec l.tree) m).current
  refine ⟨hcurrent, fun hi id x hid => ?_⟩
  obtain ⟨past, hv, hr⟩ := hm.ready
  obtain ⟨past', hv', hg⟩ := hr.grows r.host fuel hv
  obtain ⟨a, ss, ps, path, hat, -⟩ := hr
  have hlt : l.frame m < m.store.size := by
    rw [Machine.frameOf?] at hid
    split at hid
    · rw [hcurrent] at hid
      exact ancestor?_lt (hat.current ▸ hat.covers) hg.store hv'.root hv.size hid
    · rw [(Store.binder?_globals hv'.root hid).1]
      exact hv.size
  rw [frame, if_pos hi] at hlt
  exact Nat.lt_irrefl _ hlt

end ForLoop

end Lox
