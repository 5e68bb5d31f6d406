/-!
A clock for runs that cannot look at the time while they go on. It is set beforehand and moves on
with the steps of the run, so work takes time and a program that waits does not wait for ever.
-/

namespace Lox

/-- The microseconds that a number of steps takes, about a quarter for each. Both numbers are
primes, so no loop of a few steps keeps pace with the clock. -/
def elapsed (steps : Nat) : Nat := steps * 251 / 1009

theorem elapsed_zero : elapsed 0 = 0 := rfl

theorem elapsed_le_succ (n : Nat) : elapsed n ≤ elapsed (n + 1) := by
  simp only [elapsed]; omega

theorem elapsed_succ_le (n : Nat) : elapsed (n + 1) ≤ elapsed n + 1 := by
  simp only [elapsed]; omega

theorem elapsed_lt_add_five (n : Nat) : elapsed n < elapsed (n + 5) := by
  simp only [elapsed]; omega

/-- The seconds shown by a clock that was set to a number of microseconds. -/
def clockFrom (set steps : Nat) : Float := (set + elapsed steps).toFloat / 1000000

end Lox
