import Std.Data.TreeMap
import Lox.Scope.Finding

/-!
The table of hops: how many frames out the variable of an occurrence is found. An occurrence that
is not in the table means a global variable.
-/

namespace Lox

abbrev Hops := Std.TreeMap Nat Nat

def Finding.record (t : Hops) : Finding → Hops
  | .settled id _ (some depth) => t.insert id depth
  | _ => t

def Hops.recordAll (t : Hops) (fs : List Finding) : Hops := fs.foldl Finding.record t

end Lox
