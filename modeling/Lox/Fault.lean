/-!
A fault is a cause found at a line. Each stage has causes of its own.
-/

namespace Lox

structure Fault (κ : Type) where
  line : Nat
  cause : κ
  deriving DecidableEq, Repr

end Lox
