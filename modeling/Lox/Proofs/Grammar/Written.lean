import Lox.Proofs.Grammar.Completeness
import Lox.Proofs.Grammar.Extent

/-!
Loops with clauses and the same loops written out. Where the pieces are such as the grammar has
them, the tokens of either form can be taken apart in one way only, so whatever they derive is made
of what the pieces derive.
-/

namespace Lox.Grammar

variable {n : Nat} {o : Bool} {ts us xs : List Token} {s : Stmt} {body : List Stmt} {t : Token}

/-! ### Which tokens something starts with -/

/-- No token of the kinds in front. -/
def StartsWithout (ks : List Kind) (ts : List Token) : Prop := ∀ t ∈ ts.head?, t.kind ∉ ks

theorem StartsWithout.mono {ks ls : List Kind} (h : StartsWithout ks ts) (hl : ls ⊆ ks) :
    StartsWithout ls ts := fun t ht hk => h t ht (hl hk)

theorem startsWithout_cons {ks : List Kind} (h : t.kind ∉ ks) : StartsWithout ks (t :: ts) := by
  rintro u ⟨⟩
  exact h

theorem Derives.startsWithout {e : Expr} (h : Derives n .expression ts e) (us : List Token) :
    StartsWithout otherKinds (ts ++ us) := by
  obtain ⟨r, hr, -⟩ := h.raw
  exact fun t ht hk => hr.head_ne hk t ht rfl

theorem ExpressionDerives.startsWithout (h : ExpressionDerives n ts s) :
    StartsWithout otherKinds ts := by
  cases h with
  | intro h => exact h.startsWithout _

theorem StatementDerives.startsWithout (h : StatementDerives n o ts s) :
    StartsWithout foreignKinds ts := by
  obtain ⟨r, hr, -⟩ := h.raw
  intro t ht hk
  rw [← List.append_nil ts] at ht
  exact hr.head_ne hk t ht rfl

theorem DeclarationDerives.toStatement (h : DeclarationDerives n ts s)
    (hts : StartsWithout foreignKinds ts) : ∃ o, StatementDerives n o ts s := by
  cases h with
  | klass hk | function hk => exact absurd (hk ▸ by decide) (hts _ rfl)
  | var h =>
      cases h with
      | intro hk => exact absurd (hk ▸ by decide) (hts _ rfl)
  | statement h => exact ⟨_, h⟩

theorem StatementDerives.toExpression (h : StatementDerives n o ts s)
    (hts : StartsWithout otherKinds ts) : ∃ m, n = m + 1 ∧ ExpressionDerives m ts s := by
  cases h with
  | expression h => exact ⟨_, rfl, h⟩
  | print hk | returning hk | block hk | conditional hk | alternative hk | whileLoop hk
  | forLoop hk => exact absurd (hk ▸ by decide) (hts _ rfl)

theorem DeclarationDerives.toVar (h : DeclarationDerives n (t :: ts) s)
    (ht : t.kind = .keyword .kwVar) : VarDerives n (t :: ts) s := by
  generalize hts : t :: ts = us at h
  cases h with
  | klass hk | function hk =>
      obtain ⟨rfl, -⟩ := List.cons_eq_cons.mp hts
      exact absurd (hk.symm.trans ht) nofun
  | var h => exact h
  | statement h =>
      obtain rfl := hts
      exact absurd (ht ▸ by decide) (h.startsWithout t rfl)

/-- What starts with a brace is a block. -/
theorem StatementDerives.toBlock (h : StatementDerives n o (t :: ts) s)
    (ht : t.kind = .symbol .leftBrace) :
    ∃ m body, n = m + 1 ∧ s = .block body ∧ BlockDerives m ts body := by
  generalize hts : t :: ts = us at h
  cases h with
  | block _ h =>
      obtain ⟨-, rfl⟩ := List.cons_eq_cons.mp hts
      exact ⟨_, _, rfl, rfl, h⟩
  | expression h =>
      obtain rfl := hts
      exact absurd (ht ▸ by decide) (h.startsWithout t rfl)
  | print hk | returning hk | conditional hk | alternative hk | whileLoop hk | forLoop hk =>
      obtain ⟨rfl, -⟩ := List.cons_eq_cons.mp hts
      exact absurd (hk.symm.trans ht) nofun

/-- What starts with that keyword is a loop without further clauses. -/
theorem StatementDerives.toWhile (h : StatementDerives n o (t :: ts) s)
    (ht : t.kind = .keyword .kwWhile) : ∃ m c b lparen rparen us vs, n = m + 1 ∧
      s = .whileLoop c b ∧ ts = lparen :: (us ++ rparen :: vs) ∧
      rparen.kind = .symbol .rightParen ∧ Derives m .expression us c ∧
      StatementDerives m o vs b := by
  generalize hts : t :: ts = us at h
  cases h with
  | whileLoop _ _ hc hr hb =>
      obtain ⟨-, rfl⟩ := List.cons_eq_cons.mp hts
      exact ⟨_, _, _, _, _, _, _, rfl, rfl, rfl, hr, hc, hb⟩
  | expression h =>
      obtain rfl := hts
      exact absurd (ht ▸ by decide) (h.startsWithout t rfl)
  | print hk | returning hk | block hk | conditional hk | alternative hk | forLoop hk =>
      obtain ⟨rfl, -⟩ := List.cons_eq_cons.mp hts
      exact absurd (hk.symm.trans ht) nofun

/-- What starts with that keyword is a loop with clauses. -/
theorem StatementDerives.toFor (h : StatementDerives n o (t :: ts) s)
    (ht : t.kind = .keyword .kwFor) : ∃ m i c e b lparen semicolon rparen us vs ws xs,
      ts = lparen :: (us ++ (vs ++ semicolon :: (ws ++ rparen :: xs))) ∧
      semicolon.kind = .symbol .semicolon ∧ rparen.kind = .symbol .rightParen ∧
      ClauseDerives m us i ∧ Optionally m vs c ∧ Optionally m ws e ∧ StatementDerives m o xs b ∧
      s = withInitial (.whileLoop (c.getD (.literal (.boolean true))) (withIncrement b e)) i := by
  generalize hts : t :: ts = us at h
  cases h with
  | forLoop _ _ hi hc hs hn hr hb =>
      obtain ⟨-, rfl⟩ := List.cons_eq_cons.mp hts
      exact ⟨_, _, _, _, _, _, _, _, _, _, _, _, rfl, hs, hr, hi, hc, hn, hb, rfl⟩
  | expression h =>
      obtain rfl := hts
      exact absurd (ht ▸ by decide) (h.startsWithout t rfl)
  | print hk | returning hk | block hk | conditional hk | alternative hk | whileLoop hk =>
      obtain ⟨rfl, -⟩ := List.cons_eq_cons.mp hts
      exact absurd (hk.symm.trans ht) nofun

theorem BlockDerives.row (h : BlockDerives n ts body) : ∃ m us rbrace, n = m + 1 ∧
    ts = us ++ [rbrace] ∧ rbrace.kind = .symbol .rightBrace ∧ ProgramDerives m us body := by
  cases h with
  | intro hp hr => exact ⟨_, _, _, rfl, rfl, hr, _, hp, rfl, rfl⟩

theorem Derives.ne_nil {f : Form} {e : Expr} (h : Derives n f ts e) : ts ≠ [] := by
  obtain ⟨r, hr, -⟩ := h.raw
  obtain ⟨us, rfl, -⟩ := hr.opens
  exact List.cons_ne_nil _ _

/-- A single literal derives nothing but itself. -/
theorem Derives.literal_eq {f : Form} {e : Expr} {l : Literal} (h : Derives n f ts e)
    (hts : ts = [t]) (hl : Denotes t.kind l) : e = .literal l := by
  induction h with
  | expression _ ih | alone _ _ ih => exact ih hts
  | assign => cases hts
  | join hx =>
      rcases List.append_eq_singleton_iff.mp hts with ⟨h, -⟩ | ⟨-, h⟩
      · exact absurd h hx.ne_nil
      · cases h
  | unary _ h =>
      obtain ⟨-, rfl⟩ := List.cons_eq_cons.mp hts
      exact absurd rfl h.ne_nil
  | call hc =>
      rcases List.append_eq_singleton_iff.mp hts with ⟨h, -⟩ | ⟨-, h⟩
      · exact absurd h hc.ne_nil
      · cases h
  | literal h =>
      cases hts
      rw [Expr.literal.injEq]
      generalize t.kind = k at h hl
      cases h <;> cases hl <;> rfl
  | read _ hn =>
      cases hts
      rw [hn] at hl
      cases hl
  | grouping => simp at hts

/-! ### Rows of declarations taken apart -/

theorem ProgramDerives.noElse (h : ProgramDerives n ts body) : NoElse ts := by
  obtain ⟨parts, hp, rfl, rfl⟩ := h
  cases parts with
  | nil => exact nofun
  | cons p parts => exact (hp p List.mem_cons_self).noElse _

theorem NoElse.kinds (h : NoElse ts) : NoElseKind (kinds ts) := by
  cases ts with
  | nil => exact nofun
  | cons t ts =>
      rintro k ⟨⟩
      exact h t rfl

/-- The kinds of tokens in front of declarations that end neither at a semicolon nor as statements
do. -/
def outerKinds : List Kind := [.keyword .kwClass, .keyword .kwFun]

theorem outerKinds_subset : outerKinds ⊆ foreignKinds := by
  simp [outerKinds, foreignKinds]

theorem DeclarationDerives.reaches {ks : List Kind} (h : DeclarationDerives n ts s)
    (hts : StartsWithout outerKinds ts) (hks : NoElseKind ks) : Reaches ts ks := by
  cases h with
  | klass hk | function hk => exact absurd (hk ▸ by decide) (hts _ rfl)
  | var h => exact h.reaches ks
  | statement h => exact h.reaches fun _ => hks

/-- Tokens that start a row and can be told from those behind them are its first declaration. -/
theorem ProgramDerives.split (h : ProgramDerives n (us ++ xs) body) (hne : us ≠ [])
    (hus : StartsWithout outerKinds us) (hr : Reaches us (kinds xs)) :
    ∃ s rest, body = s :: rest ∧ DeclarationDerives n us s ∧ ProgramDerives n xs rest := by
  obtain ⟨parts, hp, hts, rfl⟩ := h
  obtain ⟨t, vs, rfl⟩ := List.exists_cons_of_ne_nil hne
  cases parts with
  | nil => cases hts
  | cons p parts =>
      have hd := hp p List.mem_cons_self
      have hrest : ProgramDerives n (parts.map Prod.fst).flatten (parts.map Prod.snd) :=
        ⟨parts, fun q hq => hp q (List.mem_cons_of_mem _ hq), rfl, rfl⟩
      rw [List.map_cons, List.flatten_cons] at hts
      have hfirst : StartsWithout outerKinds p.1 := by
        obtain ⟨u, ws, hp1⟩ := List.exists_cons_of_ne_nil hd.ne_nil
        rw [hp1] at hts ⊢
        obtain ⟨rfl, -⟩ := List.cons_eq_cons.mp hts
        exact hus
      obtain ⟨hp1, hxs⟩ := (hd.reaches hfirst hrest.noElse.kinds).unique hr hts.symm
      exact ⟨p.2, _, rfl, hp1 ▸ hd, hxs ▸ hrest⟩

theorem ProgramDerives.eq_nil (h : ProgramDerives n [] body) : body = [] := by
  obtain ⟨parts, hp, hts, rfl⟩ := h
  cases parts with
  | nil => rfl
  | cons p parts =>
      have hp1 := List.append_eq_nil_iff.mp hts.symm
      exact absurd hp1.1 (hp p List.mem_cons_self).ne_nil

/-- Tokens that make up a row and reach up to its end are its only declaration. -/
theorem ProgramDerives.single (h : ProgramDerives n us body) (hne : us ≠ [])
    (hus : StartsWithout outerKinds us) (hr : Reaches us []) :
    ∃ s, body = [s] ∧ DeclarationDerives n us s := by
  rw [← List.append_nil us] at h
  obtain ⟨s, rest, rfl, hd, hrest⟩ := h.split hne hus hr
  exact ⟨s, by rw [hrest.eq_nil], hd⟩

/-- The same of tokens that no other declaration starts with. -/
theorem ProgramDerives.statement (h : ProgramDerives n us body) (hne : us ≠ [])
    (hus : StartsWithout foreignKinds us) (hr : Reaches us []) :
    ∃ o s, body = [s] ∧ StatementDerives n o us s := by
  obtain ⟨s, rfl, hd⟩ := h.single hne (hus.mono outerKinds_subset) hr
  obtain ⟨o, hs⟩ := hd.toStatement hus
  exact ⟨o, s, rfl, hs⟩

theorem Reaches.braces {lbrace rbrace : Token} (hl : lbrace.kind = .symbol .leftBrace)
    (hr : rbrace.kind = .symbol .rightBrace) (h : Bracket.brace.Balanced (kinds ts))
    (ks : List Kind) : Reaches (lbrace :: (ts ++ [rbrace])) ks := by
  refine ⟨1, fun bound hb => ?_⟩
  obtain ⟨bound, rfl⟩ := Nat.exists_eq_add_of_le' hb
  rw [kinds_cons, kinds_append, kinds_cons, hl, hr, List.cons_append, List.append_assoc]
  exact h.closed

/-- A loop of either sort reaches as far as its body. -/
theorem Reaches.loop {kw lparen rparen : Token} {ks : List Kind}
    (hk : kw.kind = .keyword .kwWhile ∨ kw.kind = .keyword .kwFor)
    (hr : rparen.kind = .symbol .rightParen) (h : Bracket.paren.Balanced (kinds ts))
    (hu : Reaches us ks) : Reaches (kw :: lparen :: (ts ++ rparen :: us)) ks := by
  obtain ⟨least, hleast⟩ := hu
  refine ⟨least + 1, fun bound hb => ?_⟩
  obtain ⟨bound, rfl⟩ := Nat.exists_eq_add_of_le' (Nat.le_trans (Nat.le_add_left 1 least) hb)
  have hbody := hleast bound (Nat.le_of_succ_le_succ hb)
  rcases hk with hk | hk <;>
    rwa [kinds_cons, hk, List.cons_append, pastStatement, past_head hr h]

/-! ### The two forms of a loop -/

/-- The tokens of a loop's clauses, of which the first one ends with its semicolon, and of its
body. -/
structure Clauses where
  initial : List Token
  condition : List Token
  increment : List Token
  body : List Token

namespace Clauses

/-- A declaration of a variable, an expression statement or a sole semicolon; expressions, if any;
and a statement. -/
structure WellFormed (q : Clauses) : Prop where
  initial : ∃ n i, ClauseDerives n q.initial i
  condition : ∃ n c, Optionally n q.condition c
  increment : ∃ n e, Optionally n q.increment e
  body : ∃ n o s, StatementDerives n o q.body s

/-- `for (I C; N) B` -/
inductive Abridged (q : Clauses) : List Token → Prop
  | intro {kw lparen semicolon rparen : Token} (hk : kw.kind = .keyword .kwFor)
      (hl : lparen.kind = .symbol .leftParen) (hs : semicolon.kind = .symbol .semicolon)
      (hr : rparen.kind = .symbol .rightParen) :
      Abridged q (kw :: lparen :: (q.initial ++
        (q.condition ++ semicolon :: (q.increment ++ rparen :: q.body))))

/-- `C`, or `true` if there is no condition -/
inductive WrittenTest (q : Clauses) : List Token → Prop
  | given (h : q.condition ≠ []) : WrittenTest q q.condition
  | always {t : Token} (h : q.condition = []) (ht : t.kind = .keyword .kwTrue) : WrittenTest q [t]

/-- `{ B N; }`, or `B` if there is no increment -/
inductive WrittenRound (q : Clauses) : List Token → Prop
  | alone (h : q.increment = []) : WrittenRound q q.body
  | block {lbrace semicolon rbrace : Token} (h : q.increment ≠ [])
      (hl : lbrace.kind = .symbol .leftBrace) (hs : semicolon.kind = .symbol .semicolon)
      (hr : rbrace.kind = .symbol .rightBrace) :
      WrittenRound q (lbrace :: (q.body ++ (q.increment ++ [semicolon]) ++ [rbrace]))

/-- `while (C) { B N; }` -/
inductive WrittenLoop (q : Clauses) : List Token → Prop
  | intro {ts us : List Token} {kw lparen rparen : Token} (hk : kw.kind = .keyword .kwWhile)
      (hl : lparen.kind = .symbol .leftParen) (ht : q.WrittenTest ts)
      (hr : rparen.kind = .symbol .rightParen) (hu : q.WrittenRound us) :
      WrittenLoop q (kw :: lparen :: (ts ++ rparen :: us))

/-- `{ I while (C) { B N; } }`, or the inner loop alone if the first clause is a sole semicolon -/
inductive Written (q : Clauses) : List Token → Prop
  | alone {ts : List Token} (h : kinds q.initial = [.symbol .semicolon]) (ht : q.WrittenLoop ts) :
      Written q ts
  | block {ts : List Token} {lbrace rbrace : Token} (h : kinds q.initial ≠ [.symbol .semicolon])
      (hl : lbrace.kind = .symbol .leftBrace) (ht : q.WrittenLoop ts)
      (hr : rbrace.kind = .symbol .rightBrace) :
      Written q (lbrace :: (q.initial ++ ts ++ [rbrace]))

/-- What the condition, the increment and the body derive. -/
structure Makes (q : Clauses) (n : Nat) (c e : Option Expr) (b : Stmt) : Prop where
  condition : Optionally n q.condition c
  increment : Optionally n q.increment e
  body : ∃ o, StatementDerives n o q.body b

variable {q : Clauses}

theorem Makes.mono {m : Nat} {c e : Option Expr} {b : Stmt} (h : q.Makes m c e b) (hm : m ≤ n) :
    q.Makes n c e b := by
  refine of_le (P := fun n => q.Makes n c e b) (fun k hk => ?_) hm h
  obtain ⟨o, hb⟩ := hk.body
  exact ⟨hk.condition.succ, hk.increment.succ, o, hb.succ⟩

/-! ### How far the pieces reach -/

theorem WellFormed.body_ne_nil (hq : q.WellFormed) : q.body ≠ [] := by
  obtain ⟨n, o, s, h⟩ := hq.body
  exact (DeclarationDerives.statement h).ne_nil

theorem WellFormed.body_startsWithout (hq : q.WellFormed) : StartsWithout foreignKinds q.body := by
  obtain ⟨n, o, s, h⟩ := hq.body
  exact h.startsWithout

theorem WellFormed.body_reaches (hq : q.WellFormed) {ks : List Kind} (hks : NoElseKind ks) :
    Reaches q.body ks := by
  obtain ⟨n, o, s, h⟩ := hq.body
  exact h.reaches fun _ => hks

theorem WellFormed.increment_ends (hq : q.WellFormed) (h : q.increment ≠ []) {semicolon : Token}
    (hs : semicolon.kind = .symbol .semicolon) :
    ∃ n s, ExpressionDerives n (q.increment ++ [semicolon]) s := by
  obtain ⟨n, e, he⟩ := hq.increment
  generalize q.increment = ts at h he
  cases he with
  | none => exact absurd rfl h
  | some he => exact ⟨n, _, .intro he hs⟩

theorem WellFormed.test_balanced (hq : q.WellFormed) (h : q.WrittenTest ts) (b : Bracket) :
    b.Balanced (kinds ts) := by
  cases h with
  | given =>
      obtain ⟨n, c, h⟩ := hq.condition
      exact h.balanced b
  | always _ ht =>
      rw [kinds_cons, ht]
      cases b <;> exact .one ⟨nofun, nofun⟩

theorem WellFormed.round_balanced (hq : q.WellFormed) (h : q.WrittenRound ts) :
    Bracket.brace.Balanced (kinds ts) := by
  obtain ⟨n, o, s, hb⟩ := hq.body
  cases h with
  | alone => exact hb.balanced
  | block hi hl hs hr =>
      obtain ⟨m, s', he⟩ := hq.increment_ends hi hs
      rw [kinds_cons, kinds_append, hl, kinds_cons, hr, kinds_append]
      exact (hb.balanced.append (he.ends.balanced .brace)).wrap

theorem WellFormed.round_reaches (hq : q.WellFormed) (h : q.WrittenRound ts) : Reaches ts [] := by
  cases h with
  | alone => exact hq.body_reaches nofun
  | block hi hl hs hr =>
      obtain ⟨n, o, s, hb⟩ := hq.body
      obtain ⟨m, s', he⟩ := hq.increment_ends hi hs
      refine .braces hl hr ?_ []
      rw [kinds_append]
      exact hb.balanced.append (he.ends.balanced .brace)

theorem WellFormed.loop_balanced (hq : q.WellFormed) (h : q.WrittenLoop ts) :
    Bracket.brace.Balanced (kinds ts) := by
  cases h with
  | intro hk hl ht hr hu =>
      exact balanced_head hk hl hr (hq.test_balanced ht .brace) (hq.round_balanced hu)

theorem WellFormed.loop_reaches (hq : q.WellFormed) (h : q.WrittenLoop ts) : Reaches ts [] := by
  cases h with
  | intro hk hl ht hr hu =>
      exact .loop (.inl hk) hr (hq.test_balanced ht .paren) (hq.round_reaches hu)

/-- A first clause that is more than a semicolon is told from what stands behind it. -/
theorem WellFormed.initial_reaches (hq : q.WellFormed)
    (h : kinds q.initial ≠ [.symbol .semicolon]) (ks : List Kind) :
    q.initial ≠ [] ∧ StartsWithout outerKinds q.initial ∧ Reaches q.initial ks := by
  obtain ⟨n, i, hi⟩ := hq.initial
  generalize q.initial = ts at h hi
  cases hi with
  | none hs => exact absurd (by rw [kinds_cons, hs]; rfl) h
  | var hv =>
      refine ⟨(DeclarationDerives.var hv).ne_nil, ?_, hv.reaches ks⟩
      cases hv with
      | intro hk => exact startsWithout_cons (hk ▸ by decide)
  | expression he =>
      refine ⟨(DeclarationDerives.statement (.expression he)).ne_nil, ?_,
        (StatementDerives.expression he).reaches nofun⟩
      exact he.startsWithout.mono (List.Subset.trans outerKinds_subset foreignKinds_subset)

/-! ### What the short form derives -/

theorem WellFormed.abridged_reaches (hq : q.WellFormed) (h : q.Abridged ts) : Reaches ts [] := by
  obtain ⟨ni, i, hi⟩ := hq.initial
  obtain ⟨nc, c, hc⟩ := hq.condition
  obtain ⟨ne, e, he⟩ := hq.increment
  cases h with
  | @intro kw lparen semicolon rparen hk hl hs hr =>
      have hbody : Reaches q.body [] := hq.body_reaches nofun
      have hclauses := balanced_clauses hi hc hs he .paren
      simpa using @Reaches.loop _ _ kw lparen rparen [] (.inr hk) hr hclauses hbody

theorem Abridged.startsWithout (h : q.Abridged ts) : StartsWithout foreignKinds ts := by
  cases h with
  | intro hk => exact startsWithout_cons (hk ▸ by decide)

theorem Abridged.makes (hq : q.WellFormed) (h : q.Abridged ts) (hd : ProgramDerives n ts body) :
    ∃ m i c e b, ClauseDerives m q.initial i ∧ q.Makes m c e b ∧
      body = [withInitial (.whileLoop (c.getD (.literal (.boolean true)))
        (withIncrement b e)) i] := by
  obtain ⟨ni, i', hi'⟩ := hq.initial
  obtain ⟨nc, c', hc'⟩ := hq.condition
  obtain ⟨ne, e', he'⟩ := hq.increment
  obtain ⟨o, s, rfl, hstatement⟩ := hd.statement (by cases h; simp) h.startsWithout
    (hq.abridged_reaches h)
  cases h with
  | intro hk hl hs hr =>
      obtain ⟨m, i, c, e, b, lparen', semicolon', rparen', us, vs, ws, xs, heq, hs', hr', hi, hc,
        he, hb, rfl⟩ := hstatement.toFor hk
      -- the clauses are cut at the two semicolons and at the closing parenthesis
      obtain ⟨-, hclauses⟩ := List.cons_eq_cons.mp heq
      obtain ⟨rfl, hbehind⟩ := hi'.ends.unique hi.ends hclauses
      rw [List.append_cons, List.append_cons vs] at hbehind
      obtain ⟨hcondition, hrest⟩ := (Ends.of_unended hc'.balanced hc'.unended hs).unique
        (.of_unended hc.balanced hc.unended hs') hbehind
      obtain ⟨rfl, -⟩ := List.append_inj' hcondition rfl
      obtain ⟨rfl, -, rfl⟩ := (he'.balanced .paren).unique (he.balanced .paren) hr hr' hrest
      exact ⟨m, i, c, e, b, hi, ⟨hc, he, o, hb⟩, rfl⟩

/-! ### What the written form derives -/

theorem WrittenTest.derives {c : Expr} (h : q.WrittenTest ts)
    (hc : Derives n .expression ts c) :
    ∃ c', Optionally n q.condition c' ∧ c = c'.getD (.literal (.boolean true)) := by
  cases h with
  | given => exact ⟨some c, .some hc, rfl⟩
  | always h ht =>
      rw [h]
      exact ⟨none, .none, hc.literal_eq rfl (ht ▸ .yes)⟩

theorem WrittenRound.derives (hq : q.WellFormed) (h : q.WrittenRound ts)
    (hs : StatementDerives n o ts s) : ∃ b e, s = withIncrement b e ∧
      Optionally n q.increment e ∧ ∃ o, StatementDerives n o q.body b := by
  cases h with
  | alone h =>
      rw [h]
      exact ⟨s, none, rfl, .none, o, hs⟩
  | @block _ semicolon _ hi hl hsemi hr =>
      obtain ⟨m, body, rfl, rfl, hblock⟩ := hs.toBlock hl
      obtain ⟨m, us, rbrace', rfl, hts, -, hrow⟩ := hblock.row
      obtain ⟨rfl, -⟩ := List.append_inj' hts rfl
      obtain ⟨k, s', he⟩ := hq.increment_ends hi hsemi
      have hstart := he.startsWithout
      -- the body is the first statement of the block, up to the increment
      have hnoelse : NoElseKind (kinds (q.increment ++ [semicolon])) :=
        NoElse.kinds fun t ht hk => hstart t ht (hk ▸ by decide)
      obtain ⟨b, rest, rfl, hb, hrest⟩ := hrow.split hq.body_ne_nil
        (hq.body_startsWithout.mono outerKinds_subset) (hq.body_reaches hnoelse)
      obtain ⟨o, hb⟩ := hb.toStatement hq.body_startsWithout
      -- and the increment is the second and last one
      obtain ⟨o', s, rfl, hsecond⟩ := hrest.statement (by simp) (hstart.mono foreignKinds_subset)
        ((StatementDerives.expression he).reaches nofun)
      obtain ⟨j, rfl, hexpression⟩ := hsecond.toExpression hstart
      generalize hts : q.increment ++ [semicolon] = vs at hexpression
      cases hexpression with
      | intro hd =>
          obtain ⟨rfl, -⟩ := List.append_inj' hts rfl
          exact ⟨b, some _, rfl, .some hd.succ.succ.succ, o, hb.succ.succ⟩

theorem WrittenLoop.derives (hq : q.WellFormed) (h : q.WrittenLoop ts)
    (hs : StatementDerives n o ts s) : ∃ m c e b, n = m + 1 ∧ q.Makes m c e b ∧
      s = .whileLoop (c.getD (.literal (.boolean true))) (withIncrement b e) := by
  cases h with
  | intro hk hl ht hr hu =>
      obtain ⟨m, c, b, lparen', rparen', us, vs, rfl, rfl, heq, hr', hc, hb⟩ := hs.toWhile hk
      obtain ⟨-, heq⟩ := List.cons_eq_cons.mp heq
      obtain ⟨rfl, -, rfl⟩ := (hq.test_balanced ht .paren).unique (hc.balanced .paren) hr hr' heq
      obtain ⟨c', hc', rfl⟩ := ht.derives hc
      obtain ⟨b', e, rfl, he, hb'⟩ := hu.derives hq hb
      exact ⟨m, c', e, b', rfl, ⟨hc', he, hb'⟩, rfl⟩

/-- The first clause derives as a declaration what it derives as a clause. -/
theorem WellFormed.initial_derives (hq : q.WellFormed)
    (h : kinds q.initial ≠ [.symbol .semicolon]) (hd : DeclarationDerives n q.initial s) :
    ClauseDerives n q.initial (some s) := by
  obtain ⟨m, i, hi⟩ := hq.initial
  generalize q.initial = ts at h hi hd
  cases hi with
  | none hs => exact absurd (by rw [kinds_cons, hs]; rfl) h
  | var hv =>
      cases hv with
      | intro hk => exact .var (hd.toVar hk)
  | expression he =>
      obtain ⟨o, hs⟩ := hd.toStatement (he.startsWithout.mono foreignKinds_subset)
      obtain ⟨k, rfl, hexpression⟩ := hs.toExpression he.startsWithout
      exact .expression hexpression.succ

theorem WrittenLoop.startsWithout (h : q.WrittenLoop ts) : StartsWithout foreignKinds ts := by
  cases h with
  | intro hk => exact startsWithout_cons (hk ▸ by decide)

theorem WrittenLoop.makes (hq : q.WellFormed) (h : q.WrittenLoop ts)
    (hd : ProgramDerives n ts body) : ∃ m c e b, n = m + 1 ∧ q.Makes m c e b ∧
      body = [.whileLoop (c.getD (.literal (.boolean true))) (withIncrement b e)] := by
  obtain ⟨o, s, rfl, hs⟩ := hd.statement (by cases h; simp) h.startsWithout (hq.loop_reaches h)
  obtain ⟨m, c, e, b, rfl, hm, rfl⟩ := h.derives hq hs
  exact ⟨m, c, e, b, rfl, hm, rfl⟩

theorem Written.derives (hq : q.WellFormed) (h : q.Written ts) (hd : ProgramDerives n ts body) :
    ∃ m i c e b, m + 1 ≤ n ∧ ClauseDerives m q.initial i ∧ q.Makes m c e b ∧
      body = [withInitial (.whileLoop (c.getD (.literal (.boolean true)))
        (withIncrement b e)) i] := by
  cases h with
  | alone h hu =>
      obtain ⟨m, c, e, b, rfl, hm, rfl⟩ := hu.makes hq hd
      refine ⟨m, none, c, e, b, Nat.le_refl _, ?_, hm, rfl⟩
      generalize q.initial = ts at h
      obtain ⟨t, rfl, ht⟩ := List.map_eq_singleton_iff.mp h
      exact .none ht
  | @block us lbrace rbrace h hl hu hr =>
      have hstart : StartsWithout foreignKinds (lbrace :: (q.initial ++ us ++ [rbrace])) :=
        startsWithout_cons (hl ▸ by decide)
      obtain ⟨hne, hfirst, hreach⟩ := hq.initial_reaches h (kinds us)
      have hbalanced : Bracket.brace.Balanced (kinds (q.initial ++ us)) := by
        obtain ⟨m, i, hi⟩ := hq.initial
        rw [kinds_append]
        exact (hi.ends.balanced .brace).append (hq.loop_balanced hu)
      obtain ⟨o, s, rfl, hs⟩ := hd.statement (by simp) hstart (.braces hl hr hbalanced [])
      obtain ⟨m, body, rfl, rfl, hblock⟩ := hs.toBlock hl
      obtain ⟨m, vs, rbrace', rfl, heq, -, hrow⟩ := hblock.row
      obtain ⟨rfl, -⟩ := List.append_inj' heq rfl
      obtain ⟨i, rest, rfl, hi, hrest⟩ := hrow.split hne hfirst hreach
      obtain ⟨k, c, e, b, rfl, hm, rfl⟩ := hu.makes hq hrest
      exact ⟨k + 1, some i, c, e, b, by omega, hq.initial_derives h hi,
        hm.mono (Nat.le_succ k), rfl⟩

theorem Abridged.derives {m : Nat} {i : Option Stmt} {c e : Option Expr} {b : Stmt}
    (h : q.Abridged ts) (hi : ClauseDerives m q.initial i) (hm : q.Makes m c e b)
    (hn : m + 1 ≤ n) : ProgramDerives n ts
      [withInitial (.whileLoop (c.getD (.literal (.boolean true))) (withIncrement b e)) i] := by
  obtain ⟨o, hb⟩ := hm.body
  cases h with
  | intro hk hl hs hr =>
      have hloop := StatementDerives.forLoop hk hl hi hm.condition hs hm.increment hr hb
      exact ⟨[(_, _)], by simpa using .statement (hloop.mono hn), by simp, rfl⟩

end Clauses

end Lox.Grammar
