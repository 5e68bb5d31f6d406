import Lox.Proofs.Grammar.Endless
import Lox.Proofs.Grammar.Soundness

/-!
Reading makes progress, and its faults are bounded: unless the body of a block is stuck,
declarations read on, loops end, and there are no more faults than tokens.
-/

namespace Lox.Grammar

variable {α : Type} {n : Nat} {s t : State}

/-! ### Loops that end -/

/-- Recovery as a loop: it passes over one token after another, up to and with the next semicolon or
in front of the next keyword that starts a statement. -/
inductive State.Passes : State → State → Prop
  | atEnd {s : State} (hs : s.rest = []) : Passes s s
  | semicolon {s : State} (hs : s.At (.symbol .semicolon)) : Passes s (s.drop 1)
  | keyword {s : State} {k : Kind} (hs : s.At k) (hk : startsStatement k = true) : Passes s s
  | token {s t : State} {k : Kind} (hs : s.At k) (hsemi : k ≠ .symbol .semicolon)
      (hk : startsStatement k = false) (ht : Passes (s.drop 1) t) : Passes s t

theorem State.drop_drop (s : State) (j k : Nat) : (s.drop j).drop k = s.drop (j + k) := by
  simp [State.drop, Nat.add_assoc]

theorem State.passes_recover (s : State) : s.Passes s.recover := by
  have hdrop (ts : List Token) : ∀ s : State, s.rest = ts → s.Passes (s.drop (toBoundary ts)) := by
    induction ts with
    | nil => exact fun s hs => .atEnd hs
    | cons x xs ih =>
        intro s hs
        have hat : s.At x.kind := by rw [State.At, hs]; rfl
        rw [toBoundary]
        by_cases hsemi : x.kind = .symbol .semicolon
        · rw [if_pos hsemi]
          exact .semicolon (hsemi ▸ hat)
        rw [if_neg hsemi]
        cases hstart : startsStatement x.kind with
        | true => exact .keyword hat hstart
        | false =>
            refine .token hat hsemi hstart ?_
            have hpass := ih (s.drop 1) (by rw [State.drop, hs]; rfl)
            rwa [State.drop_drop, Nat.add_comm] at hpass
  exact hdrop s.rest s rfl

theorem Rounds.not_refused {step : α → Rule (Option α)} {a : α} {r : EStateM.Result Halt State α}
    (h : Rounds step a s r) (hstep : ∀ a u c t, step a u ≠ .error (.refused c) t)
    (c : Fault SyntaxCause) (t : State) : r ≠ .error (.refused c) t := by
  induction h with
  | last => nofun
  | @halt a s e u h =>
      intro hr
      cases hr
      exact hstep _ _ _ _ h
  | next _ _ ih => exact ih

/-- Whatever is wrong with a declaration, the series of declarations goes on. -/
theorem declarations_not_refused {p : Series} {read : Array Stmt} {c : Fault SyntaxCause}
    (hs : s.depth + n = maxDepth) : declarations p (rules n) read s ≠ .error (.refused c) t := by
  refine (declarations_rounds p read hs).not_refused (fun read u c v h => ?_) c t
  have he := nextDeclaration_error (Series.round_eq_error h).2
  cases he

namespace Call

/-- A reading in which every declaration reads on, so that all its loops come to their end. -/
structure Progresses (c : Call) : Prop where
  declaration : ∀ {n s}, c.Meets ⟨.declaration, n, s⟩ → s.rest ≠ [] ∧
    ∃ o t, Grammar.declaration (rules n) s = .ok o t ∧ s.position < t.position
  series : ∀ {p n s}, c.Meets ⟨.series p, n, s⟩ → ∀ read, ∃ all t,
    declarations p (rules n) read s = .ok all t ∧
      Rounds (p.round (nextDeclaration (rules n))) read s (.ok all t)
  methods : ∀ {n s}, c.Meets ⟨.methods, n, s⟩ → ∀ read,
    Rounds (Series.body.round (nextMethod (rules n))) read s (Grammar.methods (rules n) read s) ∧
      ∀ t, Grammar.methods (rules n) read s ≠ .error .endless t

theorem progresses_of_not_blocked {tokens : List Token} {firstId : Nat}
    (hb : ¬(ofTokens tokens firstId).Blocked) : (ofTokens tokens firstId).Progresses := by
  have hfree {c : Call} (hm : (ofTokens tokens firstId).Meets c) : ¬c.Blocked :=
    fun hc => hb (hc.of_meets hm)
  have hlevel {c : Call} (hm : (ofTokens tokens firstId).Meets c) : c.Leveled :=
    hm.leveled (ofTokens_leveled tokens firstId)
  constructor
  · intro n s hm
    obtain hm' | ⟨c, hc, ha⟩ := Relation.ReflTransGen.cases_tail hm
    · cases hm'
    cases ha with
    | @declaration p n s hs =>
    have hl := (hlevel hc).levels
    refine ⟨Series.rest_ne_nil hs, ?_⟩
    cases hr : Grammar.declaration (rules n) s with
    | error e t => exact absurd (declaration_endless (statements_pay n) hl hr).2 (hfree hm)
    | ok o t =>
        rcases declaration_ok (statements_pay n) hl (Series.rest_ne_nil hs) hr with
          ⟨hlt, -⟩ | ⟨-, hstuck, -⟩
        · exact ⟨o, t, rfl, hlt⟩
        · exact absurd (blocked_of_stuck (hlevel hc) hstuck) (hfree hc)
  · intro p n s hm read
    have hrounds := declarations_rounds p read (hlevel hm).levels
    cases hr : declarations p (rules n) read s with
    | ok all t => exact ⟨all, t, rfl, hr ▸ hrounds⟩
    | error e t =>
        cases e with
        | refused c => exact absurd hr (declarations_not_refused (hlevel hm).levels)
        | endless =>
            have hpays := declarations_pay (statements_pay n) (hlevel hm) read
            exact absurd (hpays.goes_on hr) (hfree hm)
  · intro n s hm read
    refine ⟨methods_rounds read (hlevel hm).levels, fun t ht => hfree hm ?_⟩
    exact (methods_pay (statements_pay n) (hlevel hm).levels read).goes_on ht

end Call

/-! ### Programs -/

/-- What a reading makes of a program is what it makes of its declarations. -/
theorem ofTokens?_eq (tokens : List Token) (firstId : Nat) : Program.ofTokens? tokens firstId =
    match declarations .program (rules maxDepth) #[] (.start tokens firstId) with
    | .ok all s => some ⟨all.toList, s.faults.toList, s.nextId⟩
    | .error _ _ => none := by
  rw [Program.ofTokens?, program_eq, bind_apply]
  cases declarations .program (rules maxDepth) #[] (.start tokens firstId) <;> rfl

theorem ofTokens?_of_not_blocked {tokens : List Token} {firstId : Nat}
    (hb : ¬(Call.ofTokens tokens firstId).Blocked) : ∃ p,
    Program.ofTokens? tokens firstId = some p ∧ p.faults.length ≤ (upToEnd tokens).length := by
  have hl := Call.ofTokens_leveled tokens firstId
  obtain ⟨all, t, ht, -⟩ := (Call.progresses_of_not_blocked hb).series .refl #[]
  have hp := (declarations_pay (statements_pay maxDepth) hl #[]).ok ht
  refine ⟨_, by rw [ofTokens?_eq, ht], ?_⟩
  have hcovered := hp.covered
  have hrest : (State.start tokens firstId).rest = upToEnd tokens := rfl
  have hfaults : (State.start tokens firstId).faults.size = 0 := rfl
  rw [hrest, hfaults] at hcovered
  simp only [Array.length_toList]
  omega

theorem ofTokens?_of_blocked {tokens : List Token} {firstId : Nat}
    (hb : (Call.ofTokens tokens firstId).Blocked) : Program.ofTokens? tokens firstId = none := by
  obtain ⟨t, ht⟩ := (Call.endless_iff_blocked (Call.ofTokens_leveled tokens firstId)).mpr hb #[]
  rw [ofTokens?_eq, ht]

/-- Reading makes progress. If the body of a block that is stuck is never met, every declaration
that is called for reads on, the loops end, the program is read, and it has at most as many faults
as tokens; otherwise reading goes on for ever. Recovery ends in any case. And in front of a token a
declaration returns where it began in the stuck state only. -/
theorem reading_makes_progress (tokens : List Token) (firstId : Nat) :
    (¬(Call.ofTokens tokens firstId).Blocked →
      (Call.ofTokens tokens firstId).Progresses ∧
        ∃ p, Program.ofTokens? tokens firstId = some p ∧
          p.faults.length ≤ (upToEnd tokens).length) ∧
    ((Call.ofTokens tokens firstId).Blocked → Program.ofTokens? tokens firstId = none) ∧
    (∀ s : State, s.Passes s.recover) ∧
    ∀ {n s o t}, s.depth + n = maxDepth → s.rest ≠ [] → declaration (rules n) s = .ok o t →
      s.position ≤ t.position ∧ (t.position = s.position ↔ s.Stuck) := by
  refine ⟨fun hb => ⟨Call.progresses_of_not_blocked hb, ofTokens?_of_not_blocked hb⟩,
    ofTokens?_of_blocked, State.passes_recover, fun {n s o t} hs hne hr => ?_⟩
  rcases declaration_ok (statements_pay n) hs hne hr with ⟨hlt, -⟩ | ⟨hpos, hstuck, -⟩
  · refine ⟨Nat.le_of_lt hlt, fun hpos => absurd hpos (Nat.ne_of_gt hlt), fun hstuck => ?_⟩
    obtain rfl : n = 0 := by have := hstuck.1; omega
    obtain ⟨u, hu, hpos⟩ := declaration_of_stuck hstuck
    rw [hr] at hu
    cases hu
    exact hpos
  · exact ⟨Nat.le_of_eq hpos.symm, fun _ => hstuck, fun _ => hpos⟩

/-- Two semicolons are passed over one by one, each with a fault: there can be as many faults as
tokens. Behind 128 opening braces no statement is left a level. -/
theorem semicolons_are_passed_over :
    let semicolon : Token := ⟨.symbol .semicolon, ";", 1⟩
    let brace : Token := ⟨.symbol .leftBrace, "\x7b", 1⟩
    let print : Token := ⟨.keyword .kwPrint, "print", 1⟩
    let last : State := ⟨[print], 128, 1, maxDepth, #[], 0⟩
    ((Call.ofTokens [semicolon, semicolon] 0).Progresses ∧
      ∃ p, Program.ofTokens? [semicolon, semicolon] 0 = some p ∧ p.faults.length = 2) ∧
    (Call.ofTokens (List.replicate 128 brace ++ [print]) 0).Blocked ∧
    last.Stuck := by
  intro semicolon brace print last
  have htwo : (Program.ofTokens? [semicolon, semicolon] 0).map (·.faults.length) = some 2 := by
    decide +kernel
  have hbraces : Program.ofTokens? (List.replicate 128 brace ++ [print]) 0 = none := by
    decide +kernel
  refine ⟨?_, ?_, ?_⟩
  · obtain ⟨h, h', -⟩ := reading_makes_progress [semicolon, semicolon] 0
    have hb : ¬(Call.ofTokens [semicolon, semicolon] 0).Blocked := by
      intro hb
      rw [h' hb] at htwo
      cases htwo
    obtain ⟨p, hp, -⟩ := (h hb).2
    rw [hp] at htwo
    exact ⟨(h hb).1, p, hp, Option.some.inj htwo⟩
  · refine Classical.byContradiction fun hb => ?_
    obtain ⟨p, hp, -⟩ := ((reading_makes_progress (List.replicate 128 brace ++ [print]) 0).1 hb).2
    rw [hbraces] at hp
    cases hp
  · obtain ⟨t, ht, hpos⟩ : ∃ t, declaration (rules 0) last = .ok none t ∧
        t.position = last.position := ⟨_, rfl, rfl⟩
    exact ((reading_makes_progress [] 0).2.2.2 (n := 0) rfl (List.cons_ne_nil _ _) ht).2.mp hpos

end Lox.Grammar
