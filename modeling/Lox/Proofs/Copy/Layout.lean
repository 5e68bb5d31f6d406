import Lox.Proofs.Copy.Pieces
import Lox.Proofs.Source.Spaced

/-!
Layout does not matter. A text is read by its tokens and these are known by their lines only to
faults, so a text runs as its lexemes do when they are written with single blanks between them.
-/

namespace Lox

/-- What is shown apart from lines, and from the identities in functions. -/
def Showing.lineless (w : Showing) : Showing := (w.relined fun _ => 0).unnumbered

/-- A text without lexical faults and its lexemes joined by single blanks hold the same tokens, and
those of one line stand on one line. Run in a session they show the same apart from lines; the lines
of the program are moved as those of its tokens, and those from earlier programs are not: `w` is what
is shown with the lines of the program marked. -/
theorem layout_does_not_matter (steps : List Step) (host : Host) (fuel : Nat)
    {source respaced : String} (hf : Source.faults source = [])
    (h : respaced = Source.spaced (Source.tokens source) ∨
      respaced = Source.spaced (Source.heldTokens source)) :
    let s := (Visit.after steps).session
    Source.faults respaced = [] ∧
    (showing (s.run host fuel respaced)).lineless = (showing (s.run host fuel source)).lineless ∧
    ∃ f : Nat → Nat, Source.tokens respaced = (Source.tokens source).map (Token.relined f) ∧
      ∃ w : Showing,
        (showing (s.run host fuel source)).unnumbered = (w.relined (unmark fun l => l)).unnumbered ∧
        (showing (s.run host fuel respaced)).unnumbered = (w.relined (unmark f)).unnumbered := by
  intro s
  obtain ⟨same, hs⟩ : ∃ same, s.Copy (.inPlace same) s :=
    (Visit.Copy.after steps).imp fun _ hv => hv.session
  obtain ⟨hfaults, f, htokens⟩ := Source.tokens_respaced hf h
  obtain ⟨w, hmarks⟩ := hs.marks host fuel (Source.tokens_ne_nil source)
  have hrun : s.run host fuel source =
      s.runTokens host fuel ((Source.tokens source).map (Token.relined fun l => l)) := by
    rw [Session.run_eq host fuel hf]
    exact congrArg (s.runTokens host fuel) (List.map_id _).symm
  have hrespaced : s.run host fuel respaced =
      s.runTokens host fuel ((Source.tokens source).map (Token.relined f)) := by
    rw [Session.run_eq host fuel hfaults, htokens]
  have hplain (g : Nat → Nat) := hmarks g fun l => l
  simp only [Showing.relined_id] at hplain
  have hlineless (g : Nat → Nat) := hmarks g fun _ => 0
  rw [hrun, hrespaced]
  exact ⟨hfaults, (hlineless f).trans (hlineless fun l => l).symm, f, htokens, w, hplain _, hplain f⟩

def laidOut : String := "// a string\nprint \"of two\nlines\"; // and\nprint(nil)();"

/-- The fault on the fourth line is on the second one, where only the string breaks lines. -/
theorem laidOut_respaced :
    Source.faults laidOut = [] ∧
    Source.spaced (Source.tokens laidOut) = "print \"of two\nlines\" ; print ( nil ) ( ) ; " ∧
    (Session.start.run .still 20 laidOut).1 = .failed (.runtime ⟨4, .notCallable .nil⟩) ∧
    (Session.start.run .still 20 (Source.spaced (Source.tokens laidOut))).1 =
      .failed (.runtime ⟨2, .notCallable .nil⟩) ∧
    (showing (Session.start.run .still 20 (Source.spaced (Source.tokens laidOut)))).lineless =
      (showing (Session.start.run .still 20 laidOut)).lineless := by
  have hf : Source.faults laidOut = [] := by decide +kernel
  exact ⟨hf, by decide +kernel, by decide +kernel, by decide +kernel,
    (layout_does_not_matter [] .still 20 hf (.inl rfl)).2.1⟩

end Lox
