import Lox.Proofs.Copy.Form
import Lox.Proofs.Copy.Reading
import Lox.Proofs.Grammar.Completeness
import Lox.Proofs.Grammar.Fenced
import Lox.Proofs.Grammar.Progress

/-!
Tokens are read in the same way wherever they stand. Once the declarations in front of them have
come to an end, with no level open, nothing is left of those but their statements and faults. So
tokens without a fault do not disturb those behind them nor the other way round, and neither do
tokens up to a semicolon outside braces, whatever is wrong with them.
-/

namespace Lox.Grammar

variable {n : Nat} {p : Series} {s t : State}

/-! ### Declarations behind others -/

/-- What comes of a series of declarations where others were read before. -/
def behind (before : Array Stmt) :
    EStateM.Result Halt State (Array Stmt) → EStateM.Result Halt State (Array Stmt)
  | .ok all t => .ok (before ++ all) t
  | .error e t => .error e t

theorem nextDeclaration_behind (inner : Rules) (before read : Array Stmt) (s : State) :
    nextDeclaration inner (before ++ read) s = behind before (nextDeclaration inner read s) := by
  rw [nextDeclaration_apply, nextDeclaration_apply]
  cases declaration inner s with
  | error e t => rfl
  | ok o t =>
      by_cases ht : t.position = s.position
      · simp only [if_pos ht, behind]
      · simp only [if_neg ht, behind]
        cases o with
        | none => rfl
        | some x => simp

/-- The rounds of a series do not depend on what was read before. -/
theorem Rounds.behind {inner : Rules} {read : Array Stmt}
    {r : EStateM.Result Halt State (Array Stmt)} (before : Array Stmt)
    (h : Rounds (p.round (nextDeclaration inner)) read s r) :
    Rounds (p.round (nextDeclaration inner)) (before ++ read) s (Grammar.behind before r) := by
  induction h with
  | @last read s t h =>
      by_cases hc : p.Closes s
      · rw [Series.round_of_closes hc] at h
        cases h
        exact .last (Series.round_of_closes hc)
      · rw [Series.round_of_not_closes hc] at h
        obtain ⟨_, _, -, h⟩ := bind_eq_ok h
        cases h
  | @halt read s e t h =>
      obtain ⟨hc, h⟩ := Series.round_eq_error h
      refine .halt ?_
      rw [Series.round_of_not_closes hc, bind_apply, nextDeclaration_behind, h]
      rfl
  | @next read s all t r h _ ih =>
      obtain ⟨hc, h⟩ := Series.round_eq_some h
      refine .next ?_ ih
      rw [Series.round_of_not_closes hc, bind_apply, nextDeclaration_behind, h]
      rfl

theorem declarations_behind (before : Array Stmt) (hs : s.depth + n = maxDepth) :
    declarations p (rules n) before s = behind before (declarations p (rules n) #[] s) := by
  have h := (declarations_rounds p #[] hs).behind before
  rw [Array.append_empty] at h
  exact (declarations_rounds p before hs).unique h

end Lox.Grammar

namespace Lox

open Grammar

/-- The statements and the faults of a program, and behind them those of another one. -/
structure Program.Continues (p q w : Program) : Prop where
  statements : Stmt.listUnnumbered w.statements =
    Stmt.listUnnumbered p.statements ++ Stmt.listUnnumbered q.statements
  faults : w.faults = p.faults ++ q.faults

namespace Grammar

variable {tokens : List Token} {i : Nat} {all : Array Stmt} {t : State}

theorem declarations_of_lead (h : ProgramLead #[] (.start tokens i) all t) (ht : t.depth = 0) :
    declarations .program (rules maxDepth) #[] (.start tokens i) =
      behind all (declarations .program (rules maxDepth) #[] t) := by
  have ht' : t.depth + maxDepth = maxDepth := by rw [ht, Nat.zero_add]
  rw [← declarations_behind all ht']
  exact (declarations_rounds .program #[] (Nat.zero_add _)).unique
    (h _ (declarations_rounds .program all ht'))

theorem ofTokens?_of_end (h : ProgramLead #[] (.start tokens i) all t) (ht : t.depth = 0)
    (hrest : t.rest = []) :
    Program.ofTokens? tokens i = some ⟨all.toList, t.faults.toList, t.nextId⟩ := by
  have hend : declarations .program (rules maxDepth) #[] t = .ok #[] t :=
    (declarations_rounds .program #[] (by rw [ht, Nat.zero_add])).unique
      (.last (Series.round_of_closes hrest))
  rw [ofTokens?_eq, declarations_of_lead h ht, hend]
  simp [behind]

/-- What is still ahead is read as it is by itself. -/
theorem ofTokens?_of_copy {Q : List Token} {j : Nat} (h : ProgramLead #[] (.start tokens i) all t)
    (ht : (State.start Q j).Copy ⟨fun l => l, t.position, t.faults⟩ t) :
    Option.Rel (Program.Continues ⟨all.toList, t.faults.toList, t.nextId⟩)
      (Program.ofTokens? Q j) (Program.ofTokens? tokens i) := by
  have hread : EndsAlike ⟨fun l => l, t.position, t.faults⟩ _
      (declarations .program (rules maxDepth) #[] (.start Q j))
      (declarations .program (rules maxDepth) #[] t) :=
    declarations_reread (rules_reread _ maxDepth) .atEnd _ _ ht
  rw [ofTokens?_eq, ofTokens?_eq, declarations_of_lead h ht.depth]
  generalize declarations .program (rules maxDepth) #[] (.start Q j) = r,
    declarations .program (rules maxDepth) #[] t = r' at hread ⊢
  cases hread with
  | error => exact .none
  | @ok xs ys u u' hxs hu =>
      have hys := (stmtListCopy_of_forall₂ hxs).unnumbered
      have hfaults : u'.faults = t.faults ++ u.faults := by
        rw [hu.faults, show u.faults.map (Fault.relined fun l => l) = u.faults from Array.map_id _]
      refine .some ⟨?_, ?_⟩
      · simp only [Array.toList_append, Stmt.listUnnumbered_eq_map, List.map_append] at hys ⊢
        rw [hys]
      · simp only [hfaults, Array.toList_append]

theorem closingLine_append {P Q : List Token} (hP : ∀ t ∈ P, t.kind ≠ .eof) (hQ : Q ≠ []) :
    closingLine (P ++ Q) = closingLine Q := by
  have hfind : P.find? (fun t => t.kind = .eof) = none := by
    rw [List.find?_eq_none]
    exact fun t ht => by simpa using hP t ht
  rw [closingLine, closingLine, List.find?_append, hfind, Option.none_or, List.getLast?_append]
  obtain ⟨t, ht⟩ := Option.ne_none_iff_exists'.mp (List.getLast?_eq_none_iff.not.mpr hQ)
  rw [ht]
  rfl

/-- What stands behind the declarations that were read is read as it is by itself. -/
theorem ofTokens?_of_lead {P Q : List Token} (hP : ∀ t ∈ P, t.kind ≠ .eof) (j : Nat)
    (h : ProgramLead #[] (.start (P ++ Q) i) all t) (hrest : t.rest = upToEnd Q)
    (hdepth : t.depth = 0) (hline : t.endLine = closingLine (P ++ Q)) :
    Option.Rel (Program.Continues ⟨all.toList, t.faults.toList, t.nextId⟩)
      (Program.ofTokens? Q j) (Program.ofTokens? (P ++ Q) i) := by
  by_cases hQ : Q = []
  · subst hQ
    have hempty : Program.ofTokens? [] j = some ⟨[], [], j⟩ :=
      ofTokens?_of_end (.refl #[] _) rfl rfl
    rw [ofTokens?_of_end h hdepth hrest, hempty]
    exact .some ⟨by simp [Stmt.listUnnumbered], by simp⟩
  · refine ofTokens?_of_copy h ⟨?_, rfl, ?_, hdepth, ?_⟩
    · rw [hrest]
      exact (List.map_id _).symm
    · rw [hline, closingLine_append hP hQ]
      rfl
    · simp [State.start]

/-! ### Behind tokens without a fault -/

/-- Declarations that derive from the grammar are read one after the other. -/
theorem lead_of_derives {parts : List (List Token × Stmt)} {rest : List Token}
    (hparts : ∀ p ∈ parts, DeclarationDerives maxDepth p.1 p.2) (hrest : NoElse rest)
    (read : Array Stmt) {s : State} (hs : s.rest = (parts.map Prod.fst).flatten ++ rest)
    (hd : s.depth = 0) : ∃ all id,
      ProgramLead read s all (s.past (parts.map Prod.fst).flatten rest [] id) ∧
        Stmt.listUnnumbered all.toList =
          Stmt.listUnnumbered read.toList ++ Stmt.listUnnumbered (parts.map Prod.snd) := by
  induction parts generalizing read s with
  | nil =>
      refine ⟨read, s.nextId, ?_, by simp [Stmt.listUnnumbered]⟩
      rw [List.map_nil, List.flatten_nil, ← s.past_nil hs]
      exact .refl read s
  | cons p parts ih =>
      have hp := hparts p List.mem_cons_self
      have hparts' : ∀ q ∈ parts, DeclarationDerives maxDepth q.1 q.2 :=
        fun q hq => hparts q (List.mem_cons_of_mem p hq)
      have hbehind : NoElse ((parts.map Prod.fst).flatten ++ rest) := by
        cases parts with
        | nil => exact hrest
        | cons q parts =>
            rw [List.map_cons, List.flatten_cons, List.append_assoc]
            exact (hparts' q List.mem_cons_self).noElse _
      rw [List.map_cons, List.flatten_cons, List.append_assoc] at hs
      obtain ⟨r, hr, hre, hf⟩ := hp.raw
      obtain ⟨_, id, hread, x, rfl, hx⟩ := nextDeclaration_reads (rules_complete maxDepth) hr
        hbehind read s hs (Nat.le_of_eq (by rw [hd, Nat.zero_add]))
      rw [hf] at hread
      rw [hre] at hx
      obtain ⟨all, id', hlead, hall⟩ := @ih hparts' (read.push x)
        (s.past p.1 ((parts.map Prod.fst).flatten ++ rest) [] id) rfl hd
      refine ⟨all, id', ?_, ?_⟩
      · have hne : s.rest ≠ [] := by simp [hs, hp.ne_nil]
        simpa [State.past, Nat.add_assoc] using ProgramLead.next hne hread hlead
      · simp only [Stmt.listUnnumbered_eq_map] at hall ⊢
        simp [hall, hx]

end Grammar

/-- Tokens without a fault are not disturbed by what follows them, be it well-formed or not: their
statements are read, and behind them what follows is read as it is by itself, with its faults and no
others. Reading goes on for ever if and only if it does so on what follows. -/
theorem faultless_reading_goes_on {P : List Token} (hP : ∀ t ∈ P, t.kind ≠ .eof) {i : Nat}
    {p : Program} (hp : Program.ofTokens? P i = some p) (hf : p.faults = []) {Q : List Token}
    (hQ : ∀ t ∈ Q.head?, t.kind ≠ .keyword .kwElse) (j k : Nat) :
    Option.Rel (fun q w => Stmt.listUnnumbered w.statements =
          Stmt.listUnnumbered p.statements ++ Stmt.listUnnumbered q.statements ∧
        w.faults = q.faults)
      (Program.ofTokens? Q j) (Program.ofTokens? (P ++ Q) k) := by
  obtain ⟨parts, hparts, hts, hbody⟩ := derives_of_ofTokens? hp hf
  rw [upToEnd_eq_self hP] at hts
  have hstart : (State.start (P ++ Q) k).rest = (parts.map Prod.fst).flatten ++ upToEnd Q := by
    rw [← hts]
    exact upToEnd_append hP Q
  obtain ⟨all, id, hlead, hall⟩ := lead_of_derives hparts (NoElse.upToEnd hQ) #[] hstart rfl
  have hrel := ofTokens?_of_lead hP j hlead rfl rfl rfl
  generalize Program.ofTokens? Q j = o, Program.ofTokens? (P ++ Q) k = o' at hrel ⊢
  cases hrel with
  | none => exact .none
  | some h =>
      refine .some ⟨?_, ?_⟩
      · rw [h.statements, hall, ← hbody]
        rfl
      · rw [h.faults]
        rfl

/-- The statement `print true;`. -/
def printTrue : List Token :=
  [⟨.keyword .kwPrint, "print", 1⟩, ⟨.keyword .kwTrue, "true", 1⟩, ⟨.symbol .semicolon, ";", 1⟩]

/-- A bracket with nothing to close. -/
def strayParen : Token := ⟨.symbol .rightParen, ")", 2⟩

/-- The bracket behind the statement is the only fault, and the statement is kept. -/
theorem printTrue_goes_on :
    (∀ t ∈ printTrue, t.kind ≠ .eof) ∧ (∀ t ∈ [strayParen].head?, t.kind ≠ .keyword .kwElse) ∧
    ∃ p, Program.ofTokens? printTrue 0 = some p ∧ p.faults = [] ∧
      ∃ q w, Program.ofTokens? [strayParen] 0 = some q ∧ q.faults.length = 1 ∧
        Program.ofTokens? (printTrue ++ [strayParen]) 0 = some w ∧ w.faults = q.faults ∧
        Stmt.listUnnumbered w.statements =
          Stmt.listUnnumbered p.statements ++ Stmt.listUnnumbered q.statements := by
  have hP : ∀ t ∈ printTrue, t.kind ≠ .eof := by decide
  have hQ : ∀ t ∈ [strayParen].head?, t.kind ≠ .keyword .kwElse := by decide
  have hread : (Program.ofTokens? printTrue 0).map Program.faults = some [] := by decide +kernel
  have hstray : (Program.ofTokens? [strayParen] 0).map (·.faults.length) = some 1 := by
    decide +kernel
  obtain ⟨p, hp, hf⟩ := Option.map_eq_some_iff.mp hread
  obtain ⟨q, hq, hone⟩ := Option.map_eq_some_iff.mp hstray
  have hrel := faultless_reading_goes_on hP hp hf hQ 0 0
  rw [hq] at hrel
  generalize Program.ofTokens? (printTrue ++ [strayParen]) 0 = o at hrel ⊢
  cases hrel with
  | @some _ w hw => exact ⟨hP, hQ, p, hp, hf, q, w, hq, hone, rfl, hw.2, hw.1⟩

/-! ### Behind a semicolon -/

/-- Identities decide nothing when tokens are read. -/
theorem Program.ofTokens?_renumbered {tokens : List Token} (h : tokens ≠ []) (i j : Nat) :
    Option.Rel (fun p p' => Stmt.listUnnumbered p'.statements = Stmt.listUnnumbered p.statements ∧
        p'.faults = p.faults)
      (Program.ofTokens? tokens i) (Program.ofTokens? tokens j) := by
  have hcopy := Program.ofTokens?_relined (fun l => l) h i j
  rw [show tokens.map (Token.relined fun l => l) = tokens from List.map_id _] at hcopy
  generalize Program.ofTokens? tokens i = o, Program.ofTokens? tokens j = o' at hcopy ⊢
  cases hcopy with
  | none => exact .none
  | some hc => exact .some ⟨hc.statements.unnumbered, hc.faults.trans (List.map_id _)⟩

namespace Grammar

/-- Up to the semicolon all declarations come to an end, and more than one of them is refused only
if there is a keyword to go on at. -/
theorem fenced_continues {G Q : List Token} {semicolon : Token} (hG : ∀ t ∈ G, t.kind ∉ unfenced)
    (hs : semicolon.kind = .symbol .semicolon) (hQ : NoElse Q) (j k : Nat) :
    ∃ g, Program.ofTokens? (G ++ [semicolon]) k = some g ∧
      Option.Rel g.Continues (Program.ofTokens? Q j) (Program.ofTokens? (G ++ semicolon :: Q) k) ∧
      ((∀ t ∈ G.tail, startsStatement t.kind = false) →
        (g.faults.filter (·.cause.stops)).length ≤ 1) := by
  have hkept : ∀ t ∈ G ++ [semicolon], t.kind ≠ .eof := by
    intro t ht heof
    rcases List.mem_append.mp ht with ht | ht
    · exact hG t ht (by simp [unfenced, heof])
    · rw [List.mem_singleton.mp ht, hs] at heof
      cases heof
  have hstart : (State.start (G ++ [semicolon]) k).rest = G ++ [semicolon] := upToEnd_eq_self hkept
  obtain ⟨all, t, hend, hdepth, hlead, hlead', hstops⟩ :=
    declarations_fenced (closingLine (G ++ [semicolon] ++ Q)) (NoElse.upToEnd hQ)
      (hstart ▸ fenced_append hG hs) rfl #[]
  have hplus : (State.start (G ++ [semicolon]) k).plus (upToEnd Q)
      (closingLine (G ++ [semicolon] ++ Q)) = .start (G ++ [semicolon] ++ Q) k := by
    rw [State.plus, hstart, ← upToEnd_append hkept]
    rfl
  rw [hplus] at hlead'
  have hrel := ofTokens?_of_lead hkept j hlead' (by rw [State.plus, hend]; rfl) hdepth rfl
  rw [List.append_assoc] at hrel
  refine ⟨_, ofTokens?_of_end hlead hdepth hend, hrel, fun hcalm => ?_⟩
  rcases hstops with hstops | ⟨x, hx, hstart'⟩
  · rw [← List.countP_eq_length_filter, Array.countP_toList]
    exact hstops
  rw [hstart] at hx
  have hquiet : startsStatement x.kind = false := by
    cases G with
    | nil => cases hx
    | cons y ys =>
        rcases List.mem_append.mp hx with hx | hx
        · exact hcalm x hx
        · rw [List.mem_singleton.mp hx, hs]
          rfl
  rw [hquiet] at hstart'
  cases hstart'

end Grammar

/-- A semicolon outside braces stops whatever goes wrong in front of it: tokens up to such a
semicolon are read in any case, and what follows is read as it is by itself. Where there is no
keyword to go on at, there is at most one fault up to the semicolon, save those that are noted in
passing. -/
theorem semicolon_stops_faults {G : List Token}
    (hG : ∀ t ∈ G, t.kind ∉ [.symbol .semicolon, .symbol .leftBrace, .keyword .kwFor, .eof])
    {semicolon : Token} (hs : semicolon.kind = .symbol .semicolon) {Q : List Token}
    (hQ : ∀ t ∈ Q.head?, t.kind ≠ .keyword .kwElse) (i j k : Nat) :
    ∃ g, Program.ofTokens? (G ++ [semicolon]) i = some g ∧
      Option.Rel g.Continues (Program.ofTokens? Q j) (Program.ofTokens? (G ++ semicolon :: Q) k) ∧
      ((∀ t ∈ G.tail, startsStatement t.kind = false) →
        (g.faults.filter (·.cause.stops)).length ≤ 1) := by
  obtain ⟨g', hg', hrel, hfew⟩ := fenced_continues hG hs hQ j k
  have hne : G ++ [semicolon] ≠ [] := List.append_ne_nil_of_right_ne_nil G (List.cons_ne_nil _ _)
  have hsame := Program.ofTokens?_renumbered hne i k
  rw [hg'] at hsame
  generalize Program.ofTokens? (G ++ [semicolon]) i = o at hsame ⊢
  cases hsame with
  | @some g _ h =>
      refine ⟨g, rfl, ?_, by rwa [← h.2]⟩
      generalize Program.ofTokens? Q j = o, Program.ofTokens? (G ++ semicolon :: Q) k = o' at hrel ⊢
      cases hrel with
      | none => exact .none
      | some hw => exact .some ⟨by rw [hw.statements, h.1], by rw [hw.faults, h.2]⟩

/-- Behind `print );` the statement `print true;` is read, with one fault in all. -/
theorem strayParen_is_stopped :
    let print : Token := ⟨.keyword .kwPrint, "print", 1⟩
    let semicolon : Token := ⟨.symbol .semicolon, ";", 1⟩
    ∃ g q w, Program.ofTokens? [print, strayParen, semicolon] 0 = some g ∧
      Program.ofTokens? printTrue 0 = some q ∧ q.faults = [] ∧
      Program.ofTokens? ([print, strayParen, semicolon] ++ printTrue) 0 = some w ∧
      g.Continues q w ∧ (w.faults.filter (·.cause.stops)).length ≤ 1 := by
  intro print semicolon
  have hG : ∀ t ∈ [print, strayParen],
      t.kind ∉ [.symbol .semicolon, .symbol .leftBrace, .keyword .kwFor, .eof] := by decide
  have hs : semicolon.kind = .symbol .semicolon := rfl
  have hQ : ∀ t ∈ printTrue.head?, t.kind ≠ .keyword .kwElse := by decide
  have hread : (Program.ofTokens? printTrue 0).map Program.faults = some [] := by decide +kernel
  obtain ⟨q, hq, hf⟩ := Option.map_eq_some_iff.mp hread
  obtain ⟨g, hg, hrel, hone⟩ := semicolon_stops_faults hG hs hQ 0 0 0
  rw [hq] at hrel
  generalize hw : Program.ofTokens? ([print, strayParen] ++ semicolon :: printTrue) 0 = o at hrel
  cases hrel with
  | @some _ w h =>
      refine ⟨g, q, w, hg, hq, hf, hw, h, ?_⟩
      rw [h.faults, hf, List.append_nil]
      exact hone (by decide)

end Lox
