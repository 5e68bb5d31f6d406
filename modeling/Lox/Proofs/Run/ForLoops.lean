import Lox.Proofs.Copy.Replaced
import Lox.Proofs.Grammar.Written
import Lox.Proofs.Run.Rounds

/-!
A loop with clauses is the loop that it is short for. The two are read as the same tree, so that the
one may stand for the other wherever there is a statement; and the tree does what the clauses say.
-/

namespace Lox

open Grammar

/-! ### The trees of the two forms -/

def Grammar.Clauses.lineless (q : Clauses) : Clauses :=
  ⟨q.initial.map Token.lineless, q.condition.map Token.lineless, q.increment.map Token.lineless,
    q.body.map Token.lineless⟩

/-- Tokens that differ in lines only derive trees that differ in lines and identities only. -/
theorem Grammar.ProgramDerives.lineless {ts ts' : List Token} {body body' : List Stmt}
    (hd : ProgramDerives maxDepth ts body) (hd' : ProgramDerives maxDepth ts' body')
    (h : ts'.map Token.lineless = ts.map Token.lineless) (hts : ∀ t ∈ ts, t.kind ≠ .eof) :
    Stmt.listLineless body' = Stmt.listLineless body := by
  have hts' : ∀ t ∈ ts', t.kind ≠ .eof := by
    intro t ht
    obtain ⟨u, hu, hut⟩ := List.mem_map.mp (h ▸ List.mem_map_of_mem ht)
    exact fun hk => hts u hu ((congrArg Token.kind hut).trans hk)
  obtain ⟨p, hp, -, hb⟩ := ofTokens?_of_derives 0 ((upToEnd_eq_self hts).symm ▸ hd)
  obtain ⟨p', hp', -, hb'⟩ := ofTokens?_of_derives 0 ((upToEnd_eq_self hts').symm ▸ hd')
  rw [← Stmt.listLineless_of_unnumbered hb, ← Stmt.listLineless_of_unnumbered hb']
  by_cases hne : ts = []
  · subst hne
    obtain rfl := List.map_eq_nil_iff.mp h
    obtain rfl := Option.some.inj (hp.symm.trans hp')
    rfl
  · have hne' : ts' ≠ [] := fun he => hne (List.map_eq_nil_iff.mp (h.symm.trans (by rw [he]; rfl)))
    have hread := Program.ofTokens?_relined (fun _ => 0) hne 0 0
    have hread' := Program.ofTokens?_relined (fun _ => 0) hne' 0 0
    rw [hp] at hread
    rw [hp', show ts'.map (Token.relined fun _ => 0) = ts.map (Token.relined fun _ => 0) from h]
      at hread'
    generalize Program.ofTokens? (ts.map (Token.relined fun _ => 0)) 0 = o at hread hread'
    cases hread with
    | some hcopy =>
        cases hread' with
        | some hcopy' => exact hcopy'.statements.lineless.symm.trans hcopy.statements.lineless

/-- The short form of the same clauses at other lines. -/
theorem Grammar.Clauses.Abridged.relined {q q' : Clauses} {ts : List Token} (h : q.Abridged ts)
    (hq : q'.lineless = q.lineless) :
    ∃ ts', q'.Abridged ts' ∧ ts'.map Token.lineless = ts.map Token.lineless := by
  obtain ⟨hi, hc, hn, hb⟩ := Clauses.mk.inj hq
  cases h with
  | intro hk hl hs hr =>
      refine ⟨_, .intro hk hl hs hr, ?_⟩
      simp only [List.map_cons, List.map_append, hi, hc, hn, hb]

/-- The two forms of a loop are read as one tree, up to lines and identities. -/
theorem Grammar.Clauses.Written.lineless {q q' : Clauses} {ts ts' : List Token}
    {body body' : List Stmt} (hq' : q'.WellFormed) (hlines : q'.lineless = q.lineless)
    (h : q.Abridged ts) (h' : q'.Written ts') (hts : ∀ t ∈ ts, t.kind ≠ .eof)
    (hd : ProgramDerives maxDepth ts body) (hd' : ProgramDerives maxDepth ts' body') :
    ∃ s', body' = [s'] ∧ Stmt.listLineless body' = Stmt.listLineless body := by
  obtain ⟨m, i, c, e, b, hm, hi, hmakes, rfl⟩ := h'.derives hq' hd'
  obtain ⟨us, hus, hlineless⟩ := h.relined hlines
  exact ⟨_, rfl, hd.lineless (hus.derives hi hmakes hm) hlineless hts⟩

/-! ### One for the other -/

/-- No run tells which of two statements a program has at some places. The program with the second
one bears new identities there, or throughout; whatever is shown is shown apart from lines. -/
def Stmt.Interchangeable (a b : Stmt) : Prop :=
  ∀ (steps : List Step) (tokens : List Token) (p p' : Program),
    Program.ofTokens? tokens (Visit.after steps).session.nextId = some p →
    p.Replaced a b p' → p'.NewTo (Visit.after steps).session → ∀ (host : Host) (fuel : Nat),
    let r := (Visit.after steps).session.runTokens host fuel tokens
    let r' := (Visit.after steps).session.runRead host fuel p'
    (showing r').lineless = (showing r).lineless ∧ ∀ runs, r'.2.shows runs = r.2.shows runs

theorem Stmt.interchangeable {a b : Stmt} (h : b.lineless = a.lineless) :
    a.Interchangeable b := by
  intro steps tokens p p' hp hreplaced hp' host fuel r r'
  obtain ⟨same, hv⟩ := Visit.Copy.after steps
  have hrun := hreplaced.runRead h hv.session (Program.newTo_of_ofTokens? hp) hp' host fuel
  rwa [← Session.runTokens_eq_runRead host fuel hp] at hrun

/-! ### What the loop does -/

/-- A loop as its clauses say. As long as it is not cut off for want of fuel it is its first clause
and rounds, and a round is the body with the increment behind it, unless the body returns or fails.
All rounds are done in one frame, and the name of the variable leads there from the condition and
from the increment. Behind the loop the scopes are as before it, the machine is back in its frame,
and no occurrence means a variable in the frame of the loop. -/
structure ForLoop.Works (l : ForLoop) : Prop where
  whole : ∀ {host fuel m r}, exec host fuel l.tree m = r → Ending.cutOff r = false →
    l.Whole host fuel m r
  round : ∀ {host fuel m r}, exec host fuel l.round m = r → Ending.cutOff r = false →
    l.Round host m r
  head : ∀ {runs r fuel m k n}, Run.Does r (Session.after runs) fuel (.exec l.tree) m →
    l.AtHead r.host fuel m k n → n.current = l.frame m ∧ l.Stands m n
  increment : ∀ {runs r fuel m n}, Run.Does r (Session.after runs) fuel (.exec l.tree) m →
    l.AtIncrement r.host fuel m n →
      n.store.enclosing? n.current = some (l.frame m) ∧ l.Stands m n
  shared : ∀ {x e runs r fuel m k n}, l.initial = some (.var x e) →
    Run.Does r (Session.after runs) fuel (.exec l.tree) m →
    l.AtHead r.host fuel m k n ∨ l.AtIncrement r.host fuel m n →
      n.store.binder? n.current x.lexeme = some (l.frame m)
  scopes : ∀ ss : Scopes, ss.after l.tree = ss
  behind : ∀ {runs r fuel m}, Run.Does r (Session.after runs) fuel (.exec l.tree) m →
    let n := (Task.exec l.tree).leaves r.host fuel m
    n.current = m.current ∧
      (l.initial.isSome = true → ∀ id x, n.frameOf? id x ≠ some (l.frame m))

theorem ForLoop.works {l : ForLoop} (hi : ∀ s ∈ l.initial, s.Placed)
    (hb : l.body.Placed ∧ l.body.isDeclaration = false) : l.Works where
  whole := whole_of_exec
  round := round_of_exec
  head hm hn := (hn.stands hm).2
  increment hm hn := ⟨(hn.stands hb.2 hm).1, (hn.stands hb.2 hm).2.2⟩
  shared hx hm hn := ForLoop.shared hx hb.2 hm hn
  scopes ss :=
    have hplaced := placed_withInitial hi (placed_withIncrement l.increment hb)
    ss.after_eq _ hplaced.1 hplaced.2
  behind hm := gone hm

/-- A loop with clauses and the same loop written out, tokens apart from lines being the same, are
read as one tree up to lines and identities. So the one may stand for the other anywhere in a
program, and either does what the clauses say. -/
theorem for_loops_are_written_out_while_loops {q q' : Clauses} (hq : q.WellFormed)
    (hq' : q'.WellFormed) (hlines : q'.lineless = q.lineless) {tokens tokens' : List Token}
    (hfor : q.Abridged (upToEnd tokens)) (hwhile : q'.Written (upToEnd tokens')) {i j : Nat}
    {p p' : Program} (hp : Program.ofTokens? tokens i = some p) (hf : p.faults = [])
    (hp' : Program.ofTokens? tokens' j = some p') (hf' : p'.faults = []) :
    ∃ (l : ForLoop) (s' : Stmt), p.statements = [l.tree] ∧ p'.statements = [s'] ∧
      (∃ n, ClauseDerives n q.initial l.initial ∧ q.Makes n l.condition l.increment l.body) ∧
      s'.lineless = l.tree.lineless ∧ l.tree.Interchangeable s' ∧ s'.Interchangeable l.tree ∧
      l.Works := by
  have hd := derives_of_ofTokens? hp hf
  have hd' := derives_of_ofTokens? hp' hf'
  have hts : ∀ t ∈ upToEnd tokens, t.kind ≠ .eof := fun t ht => by
    simpa using List.all_eq_true.mp List.all_takeWhile t ht
  obtain ⟨s', hs', hlineless⟩ := hwhile.lineless hq' hlines hfor hts hd hd'
  obtain ⟨m, i, c, e, b, hi, hmakes, hs⟩ := hfor.makes hq hd
  obtain ⟨o, hb⟩ := hmakes.body
  rw [hs, hs'] at hlineless
  have htree : s'.lineless = (ForLoop.mk i c e b).tree.lineless :=
    (List.cons_eq_cons.mp hlineless).1
  exact ⟨⟨i, c, e, b⟩, s', hs, hs', ⟨m, hi, hmakes⟩, htree, Stmt.interchangeable htree,
    Stmt.interchangeable htree.symm, ForLoop.works hi.placed hb.placed⟩

section

variable (line : Nat)

def symbolAt (s : Symbol) : Token := ⟨.symbol s, s.text, line⟩

def keywordAt (k : Keyword) : Token := ⟨.keyword k, k.text, line⟩

def indexAt : Token := ⟨.identifier, "i", line⟩

/-- `var i = true;`, `i`, `i = nil` and `print i;` -/
def once : Clauses where
  initial := [keywordAt line .kwVar, indexAt line, symbolAt line .equal, keywordAt line .kwTrue,
    symbolAt line .semicolon]
  condition := [indexAt line]
  increment := [indexAt line, symbolAt line .equal, keywordAt line .kwNil]
  body := [keywordAt line .kwPrint, indexAt line, symbolAt line .semicolon]

/-- `for (var i = true; i; i = nil) print i;` -/
def onceAbridged : List Token :=
  keywordAt line .kwFor :: symbolAt line .leftParen :: ((once line).initial ++
    ((once line).condition ++ symbolAt line .semicolon :: ((once line).increment ++
      symbolAt line .rightParen :: (once line).body)))

/-- `{ var i = true; while (i) { print i; i = nil; } }` -/
def onceWritten : List Token :=
  symbolAt line .leftBrace :: ((once line).initial ++
    (keywordAt line .kwWhile :: symbolAt line .leftParen :: ((once line).condition ++
      symbolAt line .rightParen :: symbolAt line .leftBrace :: ((once line).body ++
        ((once line).increment ++ [symbolAt line .semicolon]) ++ [symbolAt line .rightBrace]))) ++
    [symbolAt line .rightBrace])

theorem Grammar.Derives.of_primary {n : Nat} {ts : List Token} {e : Expr}
    (h : Derives n .primary ts e) : Derives n .assignment ts e :=
  .alone rfl <| .alone rfl <| .alone rfl <| .alone rfl <| .alone rfl <| .alone rfl <| .alone rfl <|
    .alone rfl <| .alone rfl h

theorem once_wellFormed : (once line).WellFormed where
  initial := ⟨1, _, .var (.intro rfl rfl
    (.some rfl (.expression (Derives.of_primary (.literal .yes)))) rfl)⟩
  condition := ⟨1, _, .some (.expression (Derives.of_primary (.read 0 rfl)))⟩
  increment := ⟨2, _, .some (.expression
    (.assign 0 rfl rfl (Derives.of_primary (.literal .nil))))⟩
  body := ⟨2, false, _, .print rfl (.expression (Derives.of_primary (.read 0 rfl))) rfl⟩

theorem once_abridged : (once line).Abridged (onceAbridged line) := .intro rfl rfl rfl rfl

theorem once_written : (once line).Written (onceWritten line) :=
  .block (by simp [once, kinds, keywordAt]) rfl
    (.intro rfl rfl (.given (by simp [once])) rfl (.block (by simp [once]) rfl rfl rfl)) rfl

end

/-- The short form on the first line and the written form on the second one. -/
theorem once_is_written_out :
    ∃ (p p' : Program) (l : ForLoop) (s' : Stmt),
      Program.ofTokens? (onceAbridged 1) 0 = some p ∧ p.statements = [l.tree] ∧
      Program.ofTokens? (onceWritten 2) 0 = some p' ∧ p'.statements = [s'] ∧
      l.tree.Interchangeable s' ∧ l.Works := by
  obtain ⟨p, hp, hf⟩ := Option.map_eq_some_iff.mp
    (show (Program.ofTokens? (onceAbridged 1) 0).map Program.faults = some [] by decide +kernel)
  obtain ⟨p', hp', hf'⟩ := Option.map_eq_some_iff.mp
    (show (Program.ofTokens? (onceWritten 2) 0).map Program.faults = some [] by decide +kernel)
  have habridged : upToEnd (onceAbridged 1) = onceAbridged 1 := by decide +kernel
  have hwritten : upToEnd (onceWritten 2) = onceWritten 2 := by decide +kernel
  obtain ⟨l, s', hs, hs', -, -, hinterchangeable, -, hworks⟩ :=
    for_loops_are_written_out_while_loops (once_wellFormed 1) (once_wellFormed 2) rfl
      (habridged.symm ▸ once_abridged 1) (hwritten.symm ▸ once_written 2) hp hf hp' hf'
  exact ⟨p, p', l, s', hp, hs, hp', hs', hinterchangeable, hworks⟩

end Lox
