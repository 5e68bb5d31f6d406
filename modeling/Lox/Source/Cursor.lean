import Lox.Source.Item

/-!
A text scanned item by item. Whoever scans it may stop at any item, or go on asking after the end.
-/

namespace Lox.Source

/-- The text ahead, the line reached, and whether the end mark has been given. -/
structure Cursor where
  ahead : List Char
  line : Nat := 1
  ended : Bool := false

namespace Cursor

def start (source : String) : Cursor := { ahead := source.toList }

/-- The next item, if there is one. Blanks and comments are passed over. -/
def next : Cursor → Option Item × Cursor
  | ⟨[], line, true⟩ => (none, ⟨[], line, true⟩)
  | ⟨[], line, false⟩ => (some (.token ⟨.eof, "", line⟩), ⟨[], line, true⟩)
  | ⟨c :: rest, line, ended⟩ =>
    let behind : Cursor := ⟨(cut c rest).2, line + (cut c rest).1.newlines, ended⟩
    match (cut c rest).1.item? behind.line with
    | some i => (some i, behind)
    | none => behind.next
termination_by s => s.ahead.length
decreasing_by
  exact Nat.lt_succ_of_le (length_cut_le c rest)

/-- The answer when items have been asked for `n` times before. -/
def yield : Nat → Cursor → Option Item
  | 0, s => s.next.1
  | n + 1, s => yield n s.next.2

end Cursor

end Lox.Source
