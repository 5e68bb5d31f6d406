import Lox.Proofs.Copy.Visits

/-!
What a run shows, and which lines in it are lines of the program. Lines are marked while a program
runs: those of the program are odd, those of what the session held before are even. All runs of the
program at other lines are images of the marked run.
-/

namespace Lox

/-- What can be seen of a session when a run has come to an end. -/
structure Showing where
  outcome : Outcome
  printed : Array String
  result : String
  lastFault : Option RuntimeFault
  globals : String → Option Value

def showing (r : Outcome × Session) : Showing :=
  ⟨r.1, r.2.machine.printed, r.2.result, r.2.lastFault, r.2.global?⟩

namespace Showing

def relined (f : Nat → Nat) (w : Showing) : Showing :=
  { w with
    outcome := w.outcome.relined f
    lastFault := w.lastFault.map (Fault.relined f)
    globals := fun x => (w.globals x).map (Value.relined f) }

/-- What is shown, up to the identities in functions. -/
def unnumbered (w : Showing) : Showing :=
  { w with globals := fun x => (w.globals x).map Value.unnumbered }

theorem relined_id (w : Showing) : w.relined (fun l => l) = w := by
  have hlast : w.lastFault.map (Fault.relined fun l => l) = w.lastFault := Option.map_id'
  have hglobals : (fun x => (w.globals x).map (Value.relined fun l => l)) = w.globals :=
    funext fun x => by rw [funext Value.relined_id]; exact Option.map_id'
  rw [relined, Outcome.relined_id, hlast, hglobals]

end Showing

theorem Value.Copy.map_relined {k : Copying} {o o' : Option Value}
    (h : Option.Rel (Value.Copy k) o o') (g : Nat → Nat) :
    (o'.map (Value.relined g)).map Value.unnumbered =
      (o.map (Value.relined fun l => g (k.line l))).map Value.unnumbered := by
  cases h with
  | none => rfl
  | some h => exact congrArg some (h.relined g)

theorem Outcome.relined_relined (f g : Nat → Nat) (o : Outcome) :
    (o.relined f).relined g = o.relined fun l => g (f l) := by
  have hmap {κ : Type} (fs : List (Fault κ)) : (fs.map (Fault.relined f)).map (Fault.relined g) =
      fs.map (Fault.relined fun l => g (f l)) := List.map_map
  rcases o with _ | (fs | fs | fs | e) | _
  · rfl
  · exact congrArg (fun fs => Outcome.failed (.lex fs)) (hmap fs)
  · exact congrArg (fun fs => Outcome.failed (.parse fs)) (hmap fs)
  · exact congrArg (fun fs => Outcome.failed (.resolve fs)) (hmap fs)
  · rfl
  · rfl

/-- Runs that end alike as far as they show it. -/
structure RunsShow (k : Copying) (r r' : Outcome × Session) : Prop where
  outcome : r'.1 = r.1.relined k.line
  lastFault : r'.2.lastFault = r.2.lastFault.map (Fault.relined k.line)
  machine : r.2.machine.Copy k r'.2.machine

theorem RunsShow.relined {k : Copying} {r r' : Outcome × Session} (h : RunsShow k r r')
    (g : Nat → Nat) : ((Lox.showing r').relined g).unnumbered =
      ((Lox.showing r).relined fun l => g (k.line l)).unnumbered := by
  have hglobals : (fun x => ((r'.2.global? x).map (Value.relined g)).map Value.unnumbered) =
      fun x => ((r.2.global? x).map (Value.relined fun l => g (k.line l))).map Value.unnumbered :=
    funext fun x => Value.Copy.map_relined (h.machine.global? x) g
  have hlast : r'.2.lastFault.map (Fault.relined g) =
      r.2.lastFault.map (Fault.relined fun l => g (k.line l)) := by
    rw [h.lastFault, Option.map_map]
    rfl
  simp only [Lox.showing, Showing.unnumbered, Showing.relined, h.outcome, Outcome.relined_relined,
    hlast, h.machine.printed, hglobals]
  rw [Session.result, h.machine.result, ← Session.result]

theorem RunsShow.showing {k : Copying} {r r' : Outcome × Session} (h : RunsShow k r r') :
    (showing r').unnumbered = ((showing r).relined k.line).unnumbered := by
  have hrelined := h.relined fun l => l
  rwa [Showing.relined_id] at hrelined

/-- In place, runs that end alike show the same. -/
theorem RunsShow.showing_eq {same : Nat → Nat → Prop} {r r' : Outcome × Session}
    (h : RunsShow (.inPlace same) r r') : (Lox.showing r').unnumbered = (Lox.showing r).unnumbered := by
  rw [h.showing, Showing.relined_id]

theorem RunsAlike.shows {k : Copying} {r r' : Outcome × Session} (h : RunsAlike k r r') :
    RunsShow k r r' := ⟨h.outcome, h.session.lastFault, h.session.machine⟩

/-! ### Marked lines -/

/-- The lines behind the marks, those of the program moved by `f`. -/
def unmark (f : Nat → Nat) (n : Nat) : Nat := if n % 2 = 0 then n / 2 else f (n / 2)

theorem unmark_even (f : Nat → Nat) (l : Nat) : unmark f (2 * l) = l := by
  rw [unmark, if_pos (Nat.mul_mod_right 2 l), Nat.mul_div_cancel_left l Nat.two_pos]

theorem unmark_odd (f : Nat → Nat) (l : Nat) : unmark f (2 * l + 1) = f l := by
  rw [unmark, if_neg (by omega), show (2 * l + 1) / 2 = l by omega]

/-- The session with all lines in it marked as lines of what it held before. -/
def Session.marked (s : Session) : Session :=
  { s with
    machine := s.machine.relined (2 * ·)
    lastFault := s.lastFault.map (Fault.relined (2 * ·)) }

namespace Session.Copy

variable {same : Nat → Nat → Prop} {s : Session}

theorem marked (h : s.Copy (.inPlace same) s) (f : Nat → Nat) :
    s.marked.Copy ⟨same, unmark f⟩ s := by
  have hline : (fun l => unmark f (2 * l)) = fun l => l := funext (unmark_even f)
  have hmachine : s.machine.Copy ⟨same, fun l => unmark f (2 * l)⟩ s.machine := by
    rw [hline]
    exact h.machine
  refine { h with machine := hmachine.of_relined, lastFault := ?_ }
  rw [Session.marked, Option.map_map]
  cases s.lastFault with
  | none => rfl
  | some e =>
      have he : some (Fault.mk (unmark f (2 * e.line)) e.cause) = some e := by rw [unmark_even]
      exact he.symm

/-- The lines of a program show in the runs of it as they are marked in one run, and so they do when
what is shown is looked at with other lines. -/
theorem marks (h : s.Copy (.inPlace same) s) (host : Host) (fuel : Nat) {tokens : List Token}
    (ht : tokens ≠ []) : ∃ w : Showing, ∀ f g : Nat → Nat,
      ((showing (s.runTokens host fuel (tokens.map (Token.relined f)))).relined g).unnumbered =
        (w.relined fun l => g (unmark f l)).unnumbered := by
  let marking := tokens.map (Token.relined (2 * · + 1))
  refine ⟨showing (s.marked.runTokens host fuel marking), fun f g => ?_⟩
  have hmarking : marking ≠ [] := by simpa [marking]
  obtain ⟨k, hk, hrun⟩ := (h.marked f).runTokens host fuel hmarking
  have hmap : marking.map (Token.relined (unmark f)) = tokens.map (Token.relined f) := by
    rw [List.map_map]
    refine List.map_congr_left fun t _ => ?_
    exact congrArg (Token.mk t.kind t.lexeme) (unmark_odd f t.line)
  rw [hmap] at hrun
  rw [hrun.shows.relined g, hk.line]

end Session.Copy

end Lox
