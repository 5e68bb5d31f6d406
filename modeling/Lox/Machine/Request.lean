import Lox.Machine.Store

/-!
What a store may be asked to do, and what it answers. A request that fails leaves the store alone.
-/

namespace Lox.Store

/-- Frames are named by earlier answers. The line is that of a fault, if there is one. -/
inductive Request
  | root
  | child (frame : Nat)
  | define (frame : Nat) (name : String) (v : Value)
  | get (frame : Nat) (name : String) (line : Nat)
  | getAt (frame hops : Nat) (name : String) (line : Nat)
  | assign (frame : Nat) (name : String) (v : Value) (line : Nat)
  | assignAt (frame hops : Nat) (name : String) (v : Value) (line : Nat)

inductive Reply
  | opened (frame : Nat)
  | value (v : Value)
  | done

abbrev Answer := Except RuntimeFault Reply

/-- The frame that a request is about. -/
def Request.frame? : Request → Option Nat
  | .root => none
  | .child frame | .define frame .. | .get frame .. | .getAt frame .. | .assign frame ..
  | .assignAt frame .. => some frame

/-- A value that was looked for. -/
def found (s : Store) (name : String) (line : Nat) (v : Option Value) : Answer × Store :=
  ((orUndefined name line v).map .value, s)

/-- The store after a change, unless the change fails. -/
def changed (s : Store) (name : String) (line : Nat) (t : Option Store) : Answer × Store :=
  ((orUndefined name line t).map fun _ => .done, t.getD s)

def answer (s : Store) : Request → Answer × Store
  | .root => (.ok (.opened s.size), s.push none)
  | .child frame => (.ok (.opened s.size), s.push (some frame))
  | .define frame name v => (.ok .done, s.define frame name v)
  | .get frame name line => s.found name line (s.get? frame name)
  | .getAt frame hops name line => s.found name line (s.getAt? frame hops name)
  | .assign frame name v line => s.changed name line (s.assign? frame name v)
  | .assignAt frame hops name v line => s.changed name line (s.assignAt? frame hops name v)

end Lox.Store
