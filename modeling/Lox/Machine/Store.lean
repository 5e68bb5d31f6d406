import Std.Data.TreeMap
import Lox.Machine.Cause

/-!
Frames hold the variables of a program while it runs. A frame may stand inside an earlier one, and
many frames may stand inside the same one, so a store is a forest with links towards the roots.
-/

namespace Lox

abbrev Bindings := Std.TreeMap String Value

structure Frame where
  bindings : Bindings := ∅
  enclosing : Option Nat := none

/-- Frames are known by their place in the store. -/
structure Store where
  frames : Array Frame := #[]

namespace Store

def size (s : Store) : Nat := s.frames.size

/-- Adds a frame inside another, or a root. The new frame's place is the old size. -/
def push (s : Store) (enclosing : Option Nat) : Store := ⟨s.frames.push { enclosing := enclosing }⟩

/-- Binds a name in a frame, whatever it meant there before. -/
def define (s : Store) (frame : Nat) (name : String) (v : Value) : Store :=
  ⟨s.frames.modify frame fun f => { f with bindings := f.bindings.insert name v }⟩

/-- The value that a frame itself gives a name. -/
def here? (s : Store) (frame : Nat) (name : String) : Option Value :=
  s.frames[frame]?.bind fun f => f.bindings[name]?

def enclosing? (s : Store) (frame : Nat) : Option Nat :=
  s.frames[frame]?.bind Frame.enclosing

/-- The first frame on the way out that binds a name. Links lead to earlier frames, so the size of
the store bounds the way. -/
def binder? (s : Store) (frame : Nat) (name : String) : Option Nat := go s.size frame
where
  go : Nat → Nat → Option Nat
    | 0, _ => none
    | fuel + 1, frame =>
      if (s.here? frame name).isSome then some frame
      else (s.enclosing? frame).bind (go fuel)

/-- The frame a number of links out. -/
def ancestor? (s : Store) : (hops frame : Nat) → Option Nat
  | 0, frame => some frame
  | hops + 1, frame => (s.enclosing? frame).bind (s.ancestor? hops)

def get? (s : Store) (frame : Nat) (name : String) : Option Value :=
  (s.binder? frame name).bind (s.here? · name)

/-- Gives a new value to a name where it is bound already. -/
def assign? (s : Store) (frame : Nat) (name : String) (v : Value) : Option Store :=
  (s.binder? frame name).map (s.define · name v)

def getAt? (s : Store) (frame hops : Nat) (name : String) : Option Value :=
  (s.ancestor? hops frame).bind (s.here? · name)

/-- Binds a name in the frame a number of links out. -/
def assignAt? (s : Store) (frame hops : Nat) (name : String) (v : Value) : Option Store :=
  (s.ancestor? hops frame).map (s.define · name v)

/-! ### What is seen of a store after a step -/

@[simp] theorem size_push (s : Store) (enclosing : Option Nat) :
    (s.push enclosing).size = s.size + 1 := by simp [size, push]

@[simp] theorem size_define (s : Store) (frame : Nat) (name : String) (v : Value) :
    (s.define frame name v).size = s.size := by simp [size, define]

/-- The links never change. -/
@[simp] theorem enclosing?_define (s : Store) (frame : Nat) (name : String) (v : Value) (g : Nat) :
    (s.define frame name v).enclosing? g = s.enclosing? g := by
  simp only [enclosing?, define, Array.getElem?_modify]
  split <;> cases s.frames[g]? <;> rfl

theorem here?_define (s : Store) {frame : Nat} (h : frame < s.size) (name : String) (v : Value)
    (g : Nat) (x : String) :
    (s.define frame name v).here? g x = if frame = g ∧ name = x then some v else s.here? g x := by
  simp only [here?, define, Array.getElem?_modify]
  by_cases hg : frame = g
  · subst hg
    rw [size] at h
    simp [Array.getElem?_eq_getElem h, Std.TreeMap.getElem?_insert]
  · simp [hg]

/-- A new frame binds nothing, and the others bind what they did. -/
@[simp] theorem here?_push (s : Store) (enclosing : Option Nat) (g : Nat) (x : String) :
    (s.push enclosing).here? g x = s.here? g x := by
  simp only [here?, push, Array.getElem?_push]
  split
  · next h => subst h; simp
  · rfl

theorem enclosing?_push (s : Store) (enclosing : Option Nat) (g : Nat) :
    (s.push enclosing).enclosing? g = if g = s.size then enclosing else s.enclosing? g := by
  simp only [enclosing?, push, Array.getElem?_push, size]
  by_cases h : g = s.frames.size <;> simp [h]

end Store

/-- The fault of a name that is not bound where it was looked for. -/
def orUndefined {α : Type} (name : String) (line : Nat) : Option α → Except RuntimeFault α
  | some a => .ok a
  | none => .error ⟨line, .undefinedVariable name⟩

end Lox
