import Lox.Proofs.Source.Joined
import Lox.Proofs.Source.Segments

/-!
Scanning at a line break. Faulty stretches too end where their line ends, so a text in which no string
is left open leaves nothing behind at the break but the number of its lines.
-/

namespace Lox.Source

theorem closed_of_faults {source : String} (h : ∀ f ∈ faults source, f.cause ≠ .unterminatedString) :
    ∀ p ∈ pieces source.toList, p.isUnterminated = false := by
  intro p hp
  cases p with
  | unterminated body =>
      obtain ⟨line, hline⟩ := item_mem_of_mem hp 1
      have hmem : .fault ⟨line, .unterminatedString⟩ ∈ items source := by
        rw [items_eq]
        exact List.mem_append_left _ (hline _ rfl)
      exact absurd rfl (h _ (List.mem_filterMap.mpr ⟨_, hmem, rfl⟩))
  | _ => rfl

theorem items_eq_held (source : String) :
    items source = held source ++ [.token ⟨.eof, "", linesBefore source⟩] := by
  rw [items_eq, lineBehind_pieces]
  rfl

theorem dropLast_items (source : String) : (items source).dropLast = held source := by
  rw [items_eq_held, List.dropLast_concat]

/-- Texts joined by a line break hold the items of the first one without its end mark, faults
included, and then those of the second one, each as many lines further on as the first text and the
break take. A cursor on the joined text yields just these. -/
theorem items_at_break {a : String} (h : ∀ f ∈ faults a, f.cause ≠ .unterminatedString) (b : String) :
    (items a).getLast? = some (.token ⟨.eof, "", 1 + a.toList.count '\n'⟩) ∧
    items (a ++ "\n" ++ b) =
      (items a).dropLast ++ (items b).map (Item.relined (· + (1 + a.toList.count '\n'))) ∧
    ∀ n, (Cursor.start (a ++ "\n" ++ b)).yield n =
      ((items a).dropLast ++ (items b).map (Item.relined (· + (1 + a.toList.count '\n'))))[n]? := by
  have hitems := items_joined b (closed_of_faults h)
  rw [← dropLast_items] at hitems
  refine ⟨by rw [items_eq_held, List.getLast?_concat]; rfl, hitems, fun n => ?_⟩
  rw [Cursor.start, Cursor.yield_eq, ← items_eq]
  exact congrArg (·[n]?) hitems

/-- A text whose lines end in a comment, in a number with two points, in characters that may not occur,
and behind a string that is closed on the next line. -/
def frayed : String := "a // \"\n1.2.3\n\"\n\" @#"

theorem frayed_at_break :
    faults frayed = [⟨2, .malformedNumber "1.2.3"⟩, ⟨4, .unexpected "@#"⟩] ∧
    (∀ f ∈ faults frayed, f.cause ≠ .unterminatedString) ∧
    faults (frayed ++ "\n" ++ "#\"") = [⟨2, .malformedNumber "1.2.3"⟩, ⟨4, .unexpected "@#"⟩,
      ⟨5, .unexpected "#"⟩, ⟨5, .unterminatedString⟩] ∧
    items (frayed ++ "\n" ++ "#\"") =
      (items frayed).dropLast ++ (items "#\"").map (Item.relined (· + (1 + 3))) := by
  have hfaults : faults frayed = [⟨2, .malformedNumber "1.2.3"⟩, ⟨4, .unexpected "@#"⟩] := by
    decide +kernel
  have hno : ∀ f ∈ faults frayed, f.cause ≠ .unterminatedString := by
    rw [hfaults]
    simp
  exact ⟨hfaults, hno, by decide +kernel, (items_at_break hno "#\"").2.1⟩

end Lox.Source
