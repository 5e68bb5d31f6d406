import Lox.Proofs.Grammar.Follow
import Lox.Proofs.Grammar.Reads
import Lox.Proofs.Grammar.Soundness
import Lox.Proofs.Tree.Identity

/-!
Whatever derives from the relaxed grammar is read as the repaired tree of the derivation, and the
faults of that tree are noted. Whatever derives from the strict grammar is therefore read without a
fault.
-/

namespace Lox.Grammar

variable {α : Type} {inner : Rules} {n : Nat}

structure RulesComplete (inner : Rules) (n : Nat) : Prop where
  expression : ∀ {ts rest e}, Raw.Derives n .expression ts e → Stops .expression rest →
    Reads n ts rest e.faults (·.unnumbered = e.repaired) inner.expression
  operand : ∀ {k ts rest e}, n = k + 1 → Raw.Derives k .unary ts e → Stops .unary rest →
    Reads n ts rest e.faults (·.unnumbered = e.repaired) inner.operand
  statement : ∀ {o ts rest s}, Raw.StatementDerives n o ts s → (o = true → NoElse rest) →
    Reads n ts rest s.faults (·.unnumbered = s.repaired) inner.statement
  block : ∀ {ts rest body}, Raw.BlockDerives n ts body →
    Reads n ts rest (Raw.Stmt.listFaults body)
      (Stmt.listUnnumbered · = Raw.Stmt.listRepaired body) inner.block

theorem stops_of_kind {f : Form} {t : Token} {rest : List Token} {k : Kind} (ht : t.kind = k)
    (hk : k ∉ f.continues) : Stops f (t :: rest) := by
  rintro u ⟨⟩
  rwa [ht]

/-! ### Lists -/

/-- What stands behind an entry of a list. -/
def EndsEntry (rest : List Token) : Prop :=
  ∀ t ∈ rest.head?, t.kind = .symbol .comma ∨ t.kind = .symbol .rightParen

/-- An entry that is one too many is noted and kept like any other. -/
theorem entry_reads {P : α → Prop} {what : Listed} {item : Rule α} {ts rest : List Token}
    {fs : List (Fault SyntaxCause)} {first : Token} (read : Array α)
    (hf : (ts ++ rest).head? = some first) (h : Reads n ts rest fs P item) :
    Reads n ts rest (overflow what read.size first ++ fs) (fun all => ∃ a, all = read.push a ∧ P a)
      (entry what item read) := by
  have hread : Reads n ts rest fs (fun all => ∃ a, all = read.push a ∧ P a)
      (do return read.push (← item)) := h.map fun a ha => ⟨a, rfl, ha⟩
  rw [entry, overflow]
  split
  · exact Reads.noteHere hf hread
  · exact hread

/-- What is noted at the entries of a list behind `k` others. -/
def entriesFaults (what : Listed) (first : α → Token) (faults : α → List (Fault SyntaxCause)) :
    Nat → List α → List (Fault SyntaxCause)
  | _, [] => []
  | k, a :: as =>
      (overflow what k (first a) ++ faults a) ++ entriesFaults what first faults (k + 1) as

theorem entriesFaults_arguments (k : Nat) (es : List Raw.Expr) :
    entriesFaults .arguments Raw.Expr.first Raw.Expr.faults k es = Raw.Expr.listFaults k es := by
  induction es generalizing k with
  | nil => rfl
  | cons e es ih => rw [entriesFaults, Raw.Expr.listFaults, ih]

theorem entriesFaults_parameters (k : Nat) (ps : List Token) :
    entriesFaults .parameters id (fun _ => []) k ps = overflows .parameters k ps := by
  induction ps generalizing k with
  | nil => rfl
  | cons p ps ih => rw [entriesFaults, overflows, ih, List.append_nil, id]

section

variable {β γ : Type} {v : α → γ} {w : β → γ} {first : β → Token}
  {faults : β → List (Fault SyntaxCause)} {what : Listed} {item : Rule α} {rparen : Token}
  {rest : List Token}

/-- An entry of a list starts with the token that it is noted at, and what is read of it in front of
others is what it stands for. -/
structure ReadsEntry (n : Nat) (v : α → γ) (w : β → γ) (first : β → Token)
    (faults : β → List (Fault SyntaxCause)) (item : Rule α) (ts : List Token) (b : β) : Prop where
  head : ∃ us, ts = first b :: us
  other : (first b).kind ≠ .symbol .rightParen
  reads : ∀ us, EndsEntry us → Reads n ts us (faults b) (v · = w b) item

theorem ReadsEntry.entry {ts us : List Token} {b : β} (h : ReadsEntry n v w first faults item ts b)
    (hu : EndsEntry us) (read : Array α) :
    Reads n ts us (overflow what read.size (first b) ++ faults b)
      (fun all => ∃ a, all = read.push a ∧ v a = w b) (entry what item read) := by
  refine entry_reads read ?_ (h.reads us hu)
  obtain ⟨vs, rfl⟩ := h.head
  rfl

/-- The entries behind the first one of a list, with their commas. -/
theorem entries_loop (what : Listed) (rest : List Token)
    (hr : rparen.kind = .symbol .rightParen) {parts : List (List Token × β)}
    (hitem : ∀ p ∈ parts, ReadsEntry n v w first faults item p.1 p.2)
    {front ts : List Token} (hs : Separated (front :: parts.map Prod.fst) ts) :
    ∃ us, ts = front ++ us ∧ EndsEntry (us ++ rparen :: rest) ∧ ∀ read : Array α,
      Loops n us (rparen :: rest) (entriesFaults what first faults read.size (parts.map Prod.snd))
        (fun all => all.toList.map v = read.toList.map v ++ (parts.map Prod.snd).map w)
        (fun read => do
          match ← accept (.symbol .comma) with
          | some _ => return some (← entry what item read)
          | none => return none) read := by
  induction parts generalizing front ts with
  | nil =>
      cases hs
      refine ⟨[], by simp, ?_, fun read => Loops.done (by simp) ?_⟩
      · rintro t ⟨⟩
        exact .inr hr
      · refine Reads.accept_none ?_ (Reads.pure rfl)
        rintro t ⟨⟩
        simp [hr]
  | cons q parts ih =>
      obtain ⟨qs, b⟩ := q
      cases hs with
      | @more _ _ vs _ comma hc hs =>
      obtain ⟨us, rfl, hends, hloop⟩ := ih (fun p hp => hitem p (List.mem_cons_of_mem _ hp)) hs
      refine ⟨comma :: (qs ++ us), rfl, ?_, fun read => ?_⟩
      · rintro t ⟨⟩
        exact .inl hc
      refine Loops.more (p := comma :: qs) (R := fun all => ∃ a, all = read.push a ∧ v a = w b)
        (List.cons_ne_nil _ _) ?_ ?_
      · have hq := hitem (qs, b) List.mem_cons_self
        exact Reads.accept hc (Reads.map (hq.entry hends read) fun all ha => ⟨all, rfl, ha⟩)
      · rintro _ ⟨a, rfl, ha⟩
        intro bound hb
        have htail := hloop (read.push a) bound hb
        rw [Array.size_push] at htail
        refine htail.mono fun all hall => ?_
        rw [hall]
        simp [ha]

theorem listUpToParen_reads {place : Place} (hr : rparen.kind = .symbol .rightParen)
    {parts : List (List Token × β)}
    (hitem : ∀ p ∈ parts, ReadsEntry n v w first faults item p.1 p.2)
    {ts : List Token} (hs : Separated (parts.map Prod.fst) ts) :
    Reads n (ts ++ [rparen]) rest (entriesFaults what first faults 0 (parts.map Prod.snd))
      (fun out => out.2 = rparen ∧ out.1.map v = (parts.map Prod.snd).map w)
      (listUpToParen what item place) := by
  cases parts with
  | nil =>
      cases hs
      exact Reads.ahead rfl hr (Reads.expect hr (Reads.pure ⟨rfl, rfl⟩))
  | cons p parts =>
      obtain ⟨ps, b⟩ := p
      have hb := hitem (ps, b) List.mem_cons_self
      obtain ⟨us, rfl, hends, hloop⟩ := entries_loop what rest hr
        (fun p hp => hitem p (List.mem_cons_of_mem _ hp)) hs
      have hlist : Reads n (ps ++ us) ([rparen] ++ rest)
          (entriesFaults what first faults 0 (b :: parts.map Prod.snd))
          (fun entries => entries.map v = (b :: parts.map Prod.snd).map w) (listOf what item) := by
        refine Reads.bind (hb.entry (by simpa using hends) #[]) ?_
        rintro _ ⟨a, rfl, ha⟩
        exact Reads.map (hloop _).reads fun all hall => by simpa [ha] using hall
      refine Reads.ahead_none ?_ ?_
      · obtain ⟨xs, hps⟩ := hb.head
        simp only at hps
        rw [hps]
        rintro u ⟨⟩
        exact hb.other
      · rw [← List.append_nil (entriesFaults _ _ _ _ _)]
        refine Reads.bind hlist fun entries he => ?_
        exact Reads.expect hr (Reads.pure ⟨rfl, by simpa using he⟩)

end

/-! ### Expressions -/

section

variable (h : RulesComplete inner n) {ts rest : List Token} {e : Raw.Expr}

include h

theorem primary_reads (hd : Raw.Derives n .primary ts e) :
    Reads n ts rest e.faults (·.unnumbered = e.repaired) (primary inner) := by
  cases hd with
  | literal ht =>
      exact Reads.acceptMap (literalOf?_eq_some_iff.mpr ht)
        (Reads.pure (by rw [Expr.unnumbered, Raw.Expr.repaired]))
  | @read _ name hn =>
      refine Reads.acceptMap_none ?_ (Reads.accept hn (Reads.freshId fun i => Reads.pure ?_))
      · rintro t ⟨⟩
        rw [hn]
        rfl
      · rw [Expr.unnumbered, Raw.Expr.repaired]
  | @grouping _ ts e lparen rparen hl he hr =>
      refine Reads.acceptMap_none ?_ (Reads.accept_none ?_ (Reads.accept hl ?_))
      · rintro t ⟨⟩
        rw [hl]
        rfl
      · rintro t ⟨⟩
        simp [hl]
      · rw [Raw.Expr.faults, ← List.append_nil e.faults]
        refine Reads.bind (h.expression he (stops_of_kind hr (by decide))) fun e' he' => ?_
        exact Reads.expect hr (Reads.pure (by rw [Expr.unnumbered, Raw.Expr.repaired, he']))
  | alone hf => cases hf

theorem argument_reads (hd : Raw.Derives n .expression ts e) :
    ReadsEntry n Expr.unnumbered Raw.Expr.repaired Raw.Expr.first Raw.Expr.faults inner.expression
      ts e := by
  obtain ⟨us, hts, ho⟩ := hd.opens
  refine ⟨⟨us, hts⟩, ho.ne (by decide), fun us hu => h.expression hd fun t ht => ?_⟩
  rcases hu t ht with hk | hk <;> rw [hk] <;> decide

/-- Reading a call leads to the loop that looks for further arguments. -/
theorem call_leads {f : Form} (hd : Raw.Derives n f ts e) (hf : f = .call) {us : List Token}
    {fs : List (Fault SyntaxCause)} {P : Expr → Prop}
    (hl : ∀ e' : Expr, e'.unnumbered = e.repaired → Loops n us rest fs P (fun callee => do
      match ← accept (.symbol .leftParen) with
      | some _ =>
        let (args, paren) ← listUpToParen .arguments inner.expression .afterArguments
        return some (.call callee paren args)
      | none => return none) e') :
    Reads n (ts ++ us) rest (e.faults ++ fs) P (call inner) := by
  induction hd generalizing us fs with
  | alone hg hp =>
      subst hf
      cases hg
      exact Reads.bind (primary_reads h hp) fun e' he' => (hl e' he').reads
  | @call n ts vs callee args lparen rparen hc hlp hs ha hr ihc _ =>
      rw [List.append_assoc, Raw.Expr.faults, List.append_assoc]
      refine ihc h rfl fun c' hc' => ?_
      refine Loops.more (p := lparen :: (vs ++ [rparen])) (List.cons_ne_nil _ _)
        (R := fun e' => e'.unnumbered = (Raw.Expr.call callee rparen (args.map Prod.snd)).repaired)
        (Reads.accept hlp ?_) hl
      rw [← entriesFaults_arguments]
      refine Reads.map (listUpToParen_reads (v := Expr.unnumbered) hr
        (fun p hp => argument_reads h (ha p hp)) hs) ?_
      rintro ⟨args', paren⟩ ⟨rfl, hargs⟩
      refine ⟨_, rfl, ?_⟩
      simp only [Expr.unnumbered, Raw.Expr.repaired, Expr.listUnnumbered_eq_map,
        Raw.Expr.listRepaired_eq_map, hc', hargs]
  | _ => cases hf

theorem call_reads (hd : Raw.Derives n .call ts e) (hs : Stops .call rest) :
    Reads n ts rest e.faults (·.unnumbered = e.repaired) (call inner) := by
  rw [← List.append_nil ts, ← List.append_nil e.faults]
  refine call_leads h hd rfl fun e' he' => Loops.done he' (Reads.accept_none ?_ (Reads.pure rfl))
  exact fun t ht hk => hs t ht (by simp [hk, Form.continues])

theorem unary_reads (hd : Raw.Derives n .unary ts e) (hs : Stops .unary rest) :
    Reads n ts rest e.faults (·.unnumbered = e.repaired) (unary inner) := by
  cases hd with
  | @unary k ts e op ho hd =>
      apply Reads.acceptIf (by simpa [isUnary] using ho)
      rw [Raw.Expr.faults]
      refine Reads.map (h.operand rfl hd hs) fun e' he' => ?_
      rw [Expr.unnumbered, Raw.Expr.repaired, he']
  | alone hf hd =>
      cases hf
      obtain ⟨us, rfl, ho⟩ := hd.opens
      refine Reads.acceptIf_none ?_ (call_reads h hd (hs.tighter rfl))
      rintro u ⟨⟩
      generalize e.first.kind = k at ho
      cases ho with
      | literal hl => cases hl <;> rfl
      | bang hc => exact absurd rfl hc
      | minus hc => exact absurd rfl hc
      | _ => rfl

end

section

variable {b : Binary} {p : Kind → Bool} {operand : Rule Expr} {ts rest : List Token} {e : Raw.Expr}

/-- Reading operands with operators between them leads to the loop that looks for more. -/
theorem chain_leads (hp : ∀ k, p k = true ↔ k ∈ b.operators)
    (ho : ∀ {us rest e}, Raw.Derives n b.operand us e → Stops b.operand rest →
      Reads n us rest e.faults (·.unnumbered = e.repaired) operand)
    {f : Form} (hd : Raw.Derives n f ts e) (hf : f = .binary b) {us : List Token}
    {fs : List (Fault SyntaxCause)} {P : Expr → Prop} (hs : Stops b.operand (us ++ rest))
    (hl : ∀ e' : Expr, e'.unnumbered = e.repaired → Loops n us rest fs P (fun left => do
      match ← acceptIf p with
      | some op => return some (b.join left op (← operand))
      | none => return none) e') :
    Reads n (ts ++ us) rest (e.faults ++ fs) P (chain p b.join operand) := by
  induction hd generalizing us fs with
  | alone hg hd =>
      subst hf
      cases hg
      exact Reads.bind (ho hd hs) fun e' he' => (hl e' he').reads
  | @join n ts vs l r b' op hd hop hr ih _ =>
      cases hf
      rw [List.append_assoc, Raw.faults_join, List.append_assoc]
      refine ih ho rfl (Stops.operand hop) fun l' hl' => ?_
      refine Loops.more (p := op :: vs) (List.cons_ne_nil _ _)
        (R := fun e' => e'.unnumbered = (Raw.join b l op r).repaired)
        (Reads.acceptIf ((hp _).mpr hop) ?_) hl
      refine Reads.map (ho hr hs) fun r' hr' => ⟨_, rfl, ?_⟩
      rw [unnumbered_join, Raw.repaired_join, hl', hr']
  | _ => cases hf

theorem chain_reads (b : Binary) {join : Expr → Token → Expr → Expr} (hj : join = b.join)
    (hp : ∀ k, p k = true ↔ k ∈ b.operators)
    (ho : ∀ {us rest e}, Raw.Derives n b.operand us e → Stops b.operand rest →
      Reads n us rest e.faults (·.unnumbered = e.repaired) operand)
    (hd : Raw.Derives n (.binary b) ts e) (hs : Stops (.binary b) rest) :
    Reads n ts rest e.faults (·.unnumbered = e.repaired) (chain p join operand) := by
  rw [← List.append_nil ts, ← List.append_nil e.faults, hj]
  refine chain_leads hp ho hd rfl (hs.tighter rfl) fun e' he' => Loops.done he' ?_
  refine Reads.acceptIf_none (fun t ht => ?_) (Reads.pure rfl)
  rw [← Bool.not_eq_true, hp]
  exact hs.operators t ht

end

section

variable (h : RulesComplete inner n) {ts rest : List Token} {e : Raw.Expr}

include h

theorem disjunction_reads (hd : Raw.Derives n (.binary .disjunction) ts e)
    (hs : Stops (.binary .disjunction) rest) :
    Reads n ts rest e.faults (·.unnumbered = e.repaired) (disjunction inner) := by
  have hfactor {us rest e} (hd : Raw.Derives n (.binary .factor) us e)
      (hs : Stops (.binary .factor) rest) :
      Reads n us rest e.faults (·.unnumbered = e.repaired) (factor inner) :=
    chain_reads .factor rfl (by simp [isFactor, Binary.operators]) (unary_reads h) hd hs
  have hterm {us rest e} (hd : Raw.Derives n (.binary .term) us e)
      (hs : Stops (.binary .term) rest) :
      Reads n us rest e.faults (·.unnumbered = e.repaired) (term inner) :=
    chain_reads .term rfl (by simp [isTerm, Binary.operators]) hfactor hd hs
  have hcomparison {us rest e} (hd : Raw.Derives n (.binary .comparison) us e)
      (hs : Stops (.binary .comparison) rest) :
      Reads n us rest e.faults (·.unnumbered = e.repaired) (comparison inner) :=
    chain_reads .comparison rfl (by simp [isComparison, Binary.operators, or_assoc]) hterm hd hs
  have hequality {us rest e} (hd : Raw.Derives n (.binary .equality) us e)
      (hs : Stops (.binary .equality) rest) :
      Reads n us rest e.faults (·.unnumbered = e.repaired) (equality inner) :=
    chain_reads .equality rfl (by simp [isEquality, Binary.operators]) hcomparison hd hs
  have hconjunction {us rest e} (hd : Raw.Derives n (.binary .conjunction) us e)
      (hs : Stops (.binary .conjunction) rest) :
      Reads n us rest e.faults (·.unnumbered = e.repaired) (conjunction inner) :=
    chain_reads .conjunction rfl (by simp [Binary.operators]) hequality hd hs
  exact chain_reads .disjunction rfl (by simp [Binary.operators]) hconjunction hd hs

theorem assignment_reads (hd : Raw.Derives n .assignment ts e) (hs : Stops .assignment rest) :
    Reads n ts rest e.faults (·.unnumbered = e.repaired) (assignment inner) := by
  cases hd with
  | @assign k ts us r e equal hr he hd =>
      rw [Raw.Expr.faults]
      refine Reads.bind (disjunction_reads h hr (stops_of_kind he (by decide))) fun target ht => ?_
      apply Reads.accept he
      rw [← List.append_nil us]
      refine Reads.bind (h.expression (.expression hd) hs) fun value hv => ?_
      cases hn : r.isName with
      | true =>
          obtain ⟨name, rfl⟩ := Raw.Expr.eq_read hn
          obtain ⟨id, rfl⟩ := Expr.of_unnumbered ht
          refine Reads.freshId fun i => Reads.pure ?_
          rw [Expr.unnumbered, Raw.Expr.repaired, hv]
      | false =>
          have hnone : Reads (k + 1) [] rest [⟨equal.line, .invalidTarget⟩]
              (·.unnumbered = (Raw.Expr.assign r equal e).repaired)
              (do noteAt equal.line .invalidTarget; return target) :=
            Reads.noteAt (Reads.pure (ht.trans (Raw.repaired_assign hn equal e).symm))
          cases target with
          | read id name => exact absurd ht.symm (r.repaired_ne_read hn 0 name)
          | _ => exact hnone
  | alone hf hd =>
      cases hf
      rw [← List.append_nil ts, ← List.append_nil e.faults]
      refine Reads.bind (disjunction_reads h hd (hs.tighter rfl)) fun e' he' => ?_
      refine Reads.accept_none ?_ (Reads.pure he')
      exact fun t ht hk => hs t ht (by simp [hk, Form.continues])

/-! ### Statements -/

theorem expression_reads {t : Token} {k : Kind} (hd : Raw.Derives n .expression ts e)
    (ht : t.kind = k) (hk : k ∉ Form.expression.continues) :
    Reads n ts (t :: rest) e.faults (·.unnumbered = e.repaired) inner.expression :=
  h.expression hd (stops_of_kind ht hk)

/-- An expression with a token of a known kind behind it that nothing is made of. -/
theorem closed_reads {t : Token} {k : Kind} {wanted : Wanted} {f : Expr → α} {P : α → Prop}
    (hd : Raw.Derives n .expression ts e) (ht : t.kind = k) (hk : k ∉ Form.expression.continues)
    (hf : ∀ e' : Expr, e'.unnumbered = e.repaired → P (f e')) :
    Reads n (ts ++ [t]) rest e.faults P
      (do let e ← inner.expression; let _ ← expect k wanted; return f e) := by
  rw [← List.append_nil e.faults]
  refine Reads.bind (expression_reads h hd ht hk) fun e' he' => ?_
  exact Reads.expect ht (Reads.pure (hf e' he'))

theorem optional_reads {o : Option Raw.Expr} {t : Token} {k : Kind} (hd : Raw.Optionally n ts o)
    (ht : t.kind = k) (hk : k ∈ otherKinds) (hc : k ∉ Form.expression.continues) :
    Reads n ts (t :: rest) (Raw.optionFaults o)
      (·.map Expr.unnumbered = o.map Raw.Expr.repaired)
      (optional (ahead k) inner.expression) := by
  cases hd with
  | none => exact Reads.ahead rfl ht (Reads.pure rfl)
  | some hd =>
      apply Reads.ahead_none (hd.head_ne hk)
      exact Reads.map (expression_reads h hd ht hc) fun e' he' => congrArg some he'

theorem varRest_reads {s : Raw.Stmt} {kw : Token} (hd : Raw.VarDerives n (kw :: ts) s) :
    Reads n ts rest s.faults (·.unnumbered = s.repaired) (varRest inner) := by
  cases hd with
  | @intro us initial _ name semicolon hk hn hi hs =>
  apply Reads.expect hn
  cases hi with
  | none =>
      apply Reads.accept_none (head_ne hs (by decide))
      exact Reads.expect hs (Reads.pure rfl)
  | @some us e equal he hi =>
      refine Reads.accept he (closed_reads h hi hs (by decide) fun e' he' => ?_)
      rw [Stmt.unnumbered, Raw.Stmt.repaired, he']
      rfl

theorem expressionStatement_reads {s : Raw.Stmt} (hd : Raw.ExpressionDerives n ts s) :
    Reads n ts rest s.faults (·.unnumbered = s.repaired) (expressionStatement inner) := by
  cases hd with
  | intro hd hs =>
  refine closed_reads h hd hs (by decide) fun e' he' => ?_
  rw [Stmt.unnumbered, Raw.Stmt.repaired, he']

theorem printRest_reads {semicolon : Token} (hd : Raw.Derives n .expression ts e)
    (hs : semicolon.kind = .symbol .semicolon) :
    Reads n (ts ++ [semicolon]) rest e.faults (·.unnumbered = (Raw.Stmt.print e).repaired)
      (printRest inner) := by
  refine closed_reads h hd hs (by decide) fun e' he' => ?_
  rw [Stmt.unnumbered, Raw.Stmt.repaired, he']

theorem returnRest_reads {kw semicolon : Token} {value : Option Raw.Expr}
    (hd : Raw.Optionally n ts value) (hs : semicolon.kind = .symbol .semicolon) :
    Reads n (ts ++ [semicolon]) rest (Raw.optionFaults value)
      (·.unnumbered = (Raw.Stmt.returning kw value).repaired) (returnRest inner kw) := by
  rw [← List.append_nil (Raw.optionFaults value)]
  refine Reads.bind (optional_reads h hd hs (by decide) (by decide)) fun value' hv => ?_
  refine Reads.expect hs (Reads.pure ?_)
  rw [Raw.Stmt.repaired, ← hv]
  cases value' <;> rfl

theorem ifRest_reads {us : List Token} {o : Bool} {yes : Raw.Stmt} {lparen rparen : Token}
    (hl : lparen.kind = .symbol .leftParen) (hc : Raw.Derives n .expression ts e)
    (hr : rparen.kind = .symbol .rightParen) (hy : Raw.StatementDerives n o us yes)
    (hrest : NoElse rest) :
    Reads n (lparen :: (ts ++ rparen :: us)) rest (e.faults ++ yes.faults)
      (·.unnumbered = (Raw.Stmt.conditional e yes none).repaired) (ifRest inner) := by
  refine Reads.expect hl (Reads.bind (expression_reads h hc hr (by decide)) fun c' hc' => ?_)
  apply Reads.expect hr
  rw [← List.append_nil us, ← List.append_nil yes.faults]
  refine Reads.bind (h.statement hy fun _ => hrest) fun yes' hy' => ?_
  refine Reads.accept_none hrest (Reads.pure ?_)
  rw [Stmt.unnumbered, Raw.Stmt.repaired, hc', hy']

theorem ifElseRest_reads {us vs : List Token} {o : Bool} {yes no : Raw.Stmt}
    {lparen rparen other : Token} (hl : lparen.kind = .symbol .leftParen)
    (hc : Raw.Derives n .expression ts e) (hr : rparen.kind = .symbol .rightParen)
    (hy : Raw.StatementDerives n false us yes) (ho : other.kind = .keyword .kwElse)
    (hn : Raw.StatementDerives n o vs no) (hrest : o = true → NoElse rest) :
    Reads n (lparen :: (ts ++ rparen :: (us ++ other :: vs))) rest
      (e.faults ++ (yes.faults ++ no.faults))
      (·.unnumbered = (Raw.Stmt.conditional e yes (some no)).repaired) (ifRest inner) := by
  refine Reads.expect hl (Reads.bind (expression_reads h hc hr (by decide)) fun c' hc' => ?_)
  refine Reads.expect hr (Reads.bind (h.statement hy fun ho => by cases ho) fun yes' hy' => ?_)
  refine Reads.accept ho (Reads.map (h.statement hn hrest) fun no' hn' => ?_)
  rw [Stmt.unnumbered, Raw.Stmt.repaired, hc', hy', hn']

theorem whileRest_reads {us : List Token} {o : Bool} {body : Raw.Stmt} {lparen rparen : Token}
    (hl : lparen.kind = .symbol .leftParen) (hc : Raw.Derives n .expression ts e)
    (hr : rparen.kind = .symbol .rightParen) (hb : Raw.StatementDerives n o us body)
    (hrest : o = true → NoElse rest) :
    Reads n (lparen :: (ts ++ rparen :: us)) rest (e.faults ++ body.faults)
      (·.unnumbered = (Raw.Stmt.whileLoop e body).repaired) (whileRest inner) := by
  refine Reads.expect hl (Reads.bind (expression_reads h hc hr (by decide)) fun c' hc' => ?_)
  refine Reads.expect hr (Reads.map (h.statement hb hrest) fun body' hb' => ?_)
  rw [Stmt.unnumbered, Raw.Stmt.repaired, hc', hb']

theorem forInitial_reads {initial : Option Raw.Stmt} (hd : Raw.ClauseDerives n ts initial) :
    Reads n ts rest (initial.elim [] Raw.Stmt.faults)
      (·.map Stmt.unnumbered = initial.map Raw.Stmt.repaired) (forInitial inner) := by
  cases hd with
  | none hs => exact Reads.accept hs (Reads.pure rfl)
  | @var _ s hd =>
      obtain ⟨kw, us, rfl, hk⟩ := hd.keyword
      refine Reads.accept_none (head_ne hk (by decide)) (Reads.accept hk ?_)
      exact Reads.map (varRest_reads h hd) fun s' hs' => congrArg some hs'
  | @expression _ s hd =>
      apply Reads.accept_none (hd.head_ne (by decide))
      apply Reads.accept_none (hd.head_ne (by decide))
      exact Reads.map (expressionStatement_reads h hd) fun s' hs' => congrArg some hs'

theorem forRest_reads {us vs ws : List Token} {o : Bool} {initial : Option Raw.Stmt}
    {condition increment : Option Raw.Expr} {body : Raw.Stmt} {lparen semicolon rparen : Token}
    (hl : lparen.kind = .symbol .leftParen) (hi : Raw.ClauseDerives n ts initial)
    (hc : Raw.Optionally n us condition) (hs : semicolon.kind = .symbol .semicolon)
    (hn : Raw.Optionally n vs increment) (hr : rparen.kind = .symbol .rightParen)
    (hb : Raw.StatementDerives n o ws body) (hrest : o = true → NoElse rest) :
    Reads n (lparen :: (ts ++ (us ++ semicolon :: (vs ++ rparen :: ws)))) rest
      (Raw.Stmt.forLoop initial condition increment body).faults
      (·.unnumbered = (Raw.Stmt.forLoop initial condition increment body).repaired)
      (forRest inner) := by
  rw [Raw.faults_forLoop]
  refine Reads.expect hl (Reads.bind (forInitial_reads h hi) fun initial' hi' => ?_)
  refine Reads.bind (optional_reads h hc hs (by decide) (by decide)) fun condition' hc' => ?_
  refine Reads.expect hs (Reads.bind (optional_reads h hn hr (by decide) (by decide)) ?_)
  intro increment' hn'
  refine Reads.expect hr (Reads.map (h.statement hb hrest) fun body' hb' => ?_)
  rw [unnumbered_forLoop, Raw.repaired_forLoop, hi', hc', hn', hb']

theorem statementRule_reads {o : Bool} {s : Raw.Stmt} (hd : Raw.StatementDerives (n + 1) o ts s)
    (hrest : o = true → NoElse rest) :
    Reads n ts rest s.faults (·.unnumbered = s.repaired) (statementRule inner) := by
  cases hd with
  | forLoop hk hl hi hc hs hn hr hb =>
      exact Reads.accept hk (forRest_reads h hl hi hc hs hn hr hb hrest)
  | conditional hk hl hc hr hy =>
      refine Reads.accept_none (head_ne hk (by decide)) (Reads.accept hk ?_)
      exact ifRest_reads h hl hc hr hy (hrest rfl)
  | alternative hk hl hc hr hy ho hn =>
      refine Reads.accept_none (head_ne hk (by decide)) (Reads.accept hk ?_)
      exact ifElseRest_reads h hl hc hr hy ho hn hrest
  | whileLoop hk hl hc hr hb =>
      apply Reads.accept_none (head_ne hk (by decide))
      refine Reads.accept_none (head_ne hk (by decide)) (Reads.accept hk ?_)
      exact whileRest_reads h hl hc hr hb hrest
  | returning hk hv hs =>
      apply Reads.accept_none (head_ne hk (by decide))
      apply Reads.accept_none (head_ne hk (by decide))
      refine Reads.accept_none (head_ne hk (by decide)) (Reads.accept hk ?_)
      exact returnRest_reads h hv hs
  | block hl hb =>
      apply Reads.accept_none (head_ne hl (by decide))
      apply Reads.accept_none (head_ne hl (by decide))
      apply Reads.accept_none (head_ne hl (by decide))
      refine Reads.accept_none (head_ne hl (by decide)) (Reads.accept hl ?_)
      refine Reads.map (h.block hb) fun body' hb' => ?_
      rw [Stmt.unnumbered, Raw.Stmt.repaired, hb']
  | print hk he hs =>
      apply Reads.accept_none (head_ne hk (by decide))
      apply Reads.accept_none (head_ne hk (by decide))
      apply Reads.accept_none (head_ne hk (by decide))
      apply Reads.accept_none (head_ne hk (by decide))
      refine Reads.accept_none (head_ne hk (by decide)) (Reads.accept hk ?_)
      exact printRest_reads h he hs
  | expression hd =>
      apply Reads.accept_none (hd.head_ne (by decide))
      apply Reads.accept_none (hd.head_ne (by decide))
      apply Reads.accept_none (hd.head_ne (by decide))
      apply Reads.accept_none (hd.head_ne (by decide))
      apply Reads.accept_none (hd.head_ne (by decide))
      apply Reads.accept_none (hd.head_ne (by decide))
      exact expressionStatement_reads h hd

/-! ### Declarations -/

theorem function_reads {c : Callee} {f : Raw.Function} (hd : Raw.FunctionDerives n ts f) :
    Reads n ts rest (Raw.Stmt.functionFaults f)
      (Stmt.functionUnnumbered · = Raw.Stmt.functionRepaired f) (function inner c) := by
  cases hd with
  | @intro _ ts us params body name lparen rparen lbrace hn hl hs hp hr hb h' =>
  have hparam (p) (hp' : p ∈ params.map fun p => ([p], p)) :
      ReadsEntry n id id id (fun _ => []) (expectName .parameter) p.1 p.2 := by
    obtain ⟨q, hq, rfl⟩ := List.mem_map.mp hp'
    refine ⟨⟨[], rfl⟩, ?_, fun us _ => (Reads.token (hp q hq)).mono fun _ ha => ha⟩
    rw [id, hp q hq]
    decide
  have hlist : Reads n (ts ++ [rparen]) (lbrace :: us ++ rest) (overflows .parameters 0 params)
      (fun out => out.2 = rparen ∧ out.1 = params)
      (listUpToParen .parameters (expectName .parameter) .afterParameters) := by
    rw [← entriesFaults_parameters]
    have hsnd : (params.map fun p => ([p], p)).map Prod.snd = params := by simp [Function.comp_def]
    refine (hsnd ▸ listUpToParen_reads hr hparam (by rwa [List.map_map])).mono fun out ho => ?_
    simpa using ho
  have htokens : ts ++ rparen :: lbrace :: us = (ts ++ [rparen]) ++ lbrace :: us := by simp
  refine Reads.expect hn (Reads.expect hl ?_)
  rw [htokens]
  apply Reads.bind hlist
  rintro ⟨_, paren⟩ ⟨rfl, rfl⟩
  refine Reads.expect hb (Reads.map (h.block h') fun body' hbody => ?_)
  rw [Stmt.functionUnnumbered, Raw.Stmt.functionRepaired, hbody]

omit h in
theorem open_reads {fs : List (Fault SyntaxCause)} {g : Bool → Rule α} {P : α → Prop}
    (hb : ∀ t ∈ (ts ++ rest).head?, t.kind ≠ .symbol .rightBrace) (hne : ts ≠ [])
    (hg : Reads n ts rest fs P (g false)) : Reads n ts rest fs P (atClose >>= g) := by
  refine Reads.quiet (p := []) (P := (· = false)) (Reads.ahead_none hb ?_) ?_
  · refine Reads.atEnd.mono fun b he => he.trans ?_
    simp [hne]
  · rintro _ rfl
    exact hg

omit h in
theorem close_reads {fs : List (Fault SyntaxCause)} {g : Bool → Rule α} {P : α → Prop} {t : Token}
    (ht : t.kind = .symbol .rightBrace) (hg : Reads n [] (t :: rest) fs P (g true)) :
    Reads n [] (t :: rest) fs P (atClose >>= g) := by
  refine Reads.quiet (p := []) (P := (· = true))
    (Reads.ahead rfl ht (Reads.pure rfl)) ?_
  rintro _ rfl
  exact hg

omit h in
/-- A loop that reads one thing after another, each in front of tokens with the property `G`. -/
theorem row_loop {α β γ : Type} {v : α → γ} {w : β → γ} {faults : β → List (Fault SyntaxCause)}
    {G : List Token → Prop} {step : Array α → Rule (Option (Array α))}
    {parts : List (List Token × β)} (hG : G rest)
    (hparts : ∀ p ∈ parts, p.1 ≠ [] ∧ ∀ us, G (p.1 ++ us))
    (hstep : ∀ p ∈ parts, ∀ us, G us → ∀ read, Reads n p.1 us (faults p.2)
      (fun o => ∃ all, o = some all ∧ ∃ a, all = Array.push read a ∧ v a = w p.2) (step read))
    (hdone : ∀ read, Reads n [] rest [] (· = none) (step read)) (read : Array α) :
    Loops n (parts.map Prod.fst).flatten rest ((parts.map Prod.snd).flatMap faults)
      (fun all => all.toList.map v = read.toList.map v ++ (parts.map Prod.snd).map w) step
      read := by
  induction parts generalizing read with
  | nil => exact Loops.done (by simp) (hdone read)
  | cons p parts ih =>
      have htail : ∀ q ∈ parts, q ∈ p :: parts := fun q => List.mem_cons_of_mem p
      have hbehind : G ((parts.map Prod.fst).flatten ++ rest) := by
        cases parts with
        | nil => exact hG
        | cons q parts =>
            rw [List.map_cons, List.flatten_cons, List.append_assoc]
            exact (hparts q (htail q List.mem_cons_self)).2 _
      rw [List.map_cons, List.map_cons, List.flatten_cons, List.flatMap_cons]
      refine Loops.more (hparts p List.mem_cons_self).1
        (hstep p List.mem_cons_self _ hbehind read) ?_
      rintro _ ⟨a, rfl, ha⟩
      intro bound hb
      refine (ih (fun q hq => hparts q (htail q hq)) (fun q hq => hstep q (htail q hq))
        (read.push a) bound hb).mono fun all hall => ?_
      rw [hall]
      simp [ha]

theorem classRest_reads {methods : List (List Token × Raw.Function)} {name lbrace rbrace : Token}
    (hn : name.kind = .identifier) (hl : lbrace.kind = .symbol .leftBrace)
    (hm : ∀ m ∈ methods, Raw.FunctionDerives n m.1 m.2) (hr : rbrace.kind = .symbol .rightBrace) :
    Reads n (name :: lbrace :: ((methods.map Prod.fst).flatten ++ [rbrace])) rest
      (Raw.Stmt.methodsFaults (methods.map Prod.snd))
      (·.unnumbered = (Raw.Stmt.classDecl name (methods.map Prod.snd)).repaired)
      (classRest inner) := by
  rw [Raw.Stmt.methodsFaults_eq_flatMap, ← List.append_nil (List.flatMap _ _)]
  refine Reads.expect hn (Reads.expect hl ?_)
  refine Reads.bind (Loops.reads (row_loop (v := Stmt.functionUnnumbered)
    (w := Raw.Stmt.functionRepaired) (G := fun _ => True) trivial
    (fun m hm' => ⟨(hm m hm').ne_nil, fun _ => trivial⟩) (fun m hm' us _ read => ?_)
    (fun read => close_reads hr (Reads.pure (P := (· = none)) rfl)) #[])) fun all hall => ?_
  · apply open_reads ((hm m hm').head_ne (by decide)) (hm m hm').ne_nil
    exact Reads.map (function_reads h (hm m hm')) fun f hf => ⟨_, rfl, f, rfl, hf⟩
  · refine Reads.expect hr (Reads.pure ?_)
    rw [Stmt.unnumbered, Raw.Stmt.repaired, Stmt.methodsUnnumbered_eq_map,
      Raw.Stmt.methodsRepaired_eq_map, hall]
    rfl

theorem declarationRule_reads {s : Raw.Stmt} (hd : Raw.DeclarationDerives n ts s)
    (hrest : NoElse rest) :
    Reads n ts rest s.faults (·.unnumbered = s.repaired) (declarationRule inner) := by
  cases hd with
  | klass hk hn hl hm hr => exact Reads.accept hk (classRest_reads h hn hl hm hr)
  | function hk hf =>
      refine Reads.accept_none (head_ne hk (by decide)) (Reads.accept hk ?_)
      refine Reads.map (function_reads h hf) fun f' hf' => ?_
      rw [Stmt.unnumbered, Raw.Stmt.repaired, hf']
  | var hd =>
      obtain ⟨kw, us, rfl, hk⟩ := hd.keyword
      apply Reads.accept_none (head_ne hk (by decide))
      refine Reads.accept_none (head_ne hk (by decide)) (Reads.accept hk ?_)
      exact varRest_reads h hd
  | statement hd =>
      apply Reads.accept_none (hd.head_ne (by decide))
      apply Reads.accept_none (hd.head_ne (by decide))
      apply Reads.accept_none (hd.head_ne (by decide))
      exact h.statement hd fun _ => hrest

theorem nextDeclaration_reads {s : Raw.Stmt} (hd : Raw.DeclarationDerives n ts s)
    (hrest : NoElse rest) (read : Array Stmt) :
    Reads n ts rest s.faults (fun all => ∃ a, all = read.push a ∧ a.unnumbered = s.repaired)
      (nextDeclaration inner read) := by
  intro t ht hn
  obtain ⟨_, id, ho, s', rfl, hs'⟩ := Reads.recovering (declarationRule_reads h hd hrest) t ht hn
  refine ⟨read.push s', id, ?_, s', rfl, hs'⟩
  have hlen := List.length_pos_iff.mpr hd.ne_nil
  have hpos : (t.past ts rest s.faults id).position ≠ t.position := by
    simp only [State.past]
    omega
  have hget (u : State) : (get : Rule State) u = .ok u u := rfl
  rw [nextDeclaration, declaration]
  simp only [bind_apply, hget, ho, if_neg hpos]
  rfl

theorem someDeclaration_reads {s : Raw.Stmt} (hd : Raw.DeclarationDerives n ts s)
    (hrest : NoElse rest) (read : Array Stmt) :
    Reads n ts rest s.faults
      (fun o => ∃ all, o = some all ∧ ∃ a, all = read.push a ∧ a.unnumbered = s.repaired)
      (do return some (← nextDeclaration inner read)) :=
  Reads.map (nextDeclaration_reads h hd hrest read) fun all ha => ⟨all, rfl, ha⟩

omit h in
theorem Raw.DeclarationDerives.follows {s : Raw.Stmt} (hd : Raw.DeclarationDerives n ts s) :
    ts ≠ [] ∧ ∀ us, NoElse (ts ++ us) :=
  ⟨hd.ne_nil, fun _ => hd.head_ne (by decide)⟩

omit h in
theorem DeclarationDerives.noElse {s : Stmt} (hd : DeclarationDerives n ts s) (us : List Token) :
    NoElse (ts ++ us) := by
  obtain ⟨r, hr, -⟩ := hd.raw
  exact hr.follows.2 us

theorem blockRule_reads {body : List Raw.Stmt} (hd : Raw.BlockDerives (n + 1) ts body) :
    Reads n ts rest (Raw.Stmt.listFaults body)
      (Stmt.listUnnumbered · = Raw.Stmt.listRepaired body) (blockRule inner) := by
  cases hd with
  | @intro _ parts rbrace hp hr =>
  rw [Raw.Stmt.listFaults_eq_flatMap, ← List.append_nil (List.flatMap _ _)]
  refine Reads.bind (Loops.reads (row_loop (v := Stmt.unnumbered) (w := Raw.Stmt.repaired)
    (G := NoElse) (head_ne hr (by decide)) (fun p hp' => (hp p hp').follows)
    (fun p hp' us hu read => ?_)
    (fun read => close_reads hr (Reads.pure (P := (· = none)) rfl)) #[])) fun all hall => ?_
  · exact open_reads ((hp p hp').head_ne (by decide)) (hp p hp').ne_nil
      (someDeclaration_reads h (hp p hp') hu read)
  · refine Reads.expect hr (Reads.pure ?_)
    rw [Stmt.listUnnumbered_eq_map, Raw.Stmt.listRepaired_eq_map, hall]
    rfl

theorem program_reads {body : List Raw.Stmt} (hd : Raw.ProgramDerives n ts body) :
    Reads n ts [] (Raw.Stmt.listFaults body)
      (Stmt.listUnnumbered · = Raw.Stmt.listRepaired body) (program inner) := by
  obtain ⟨parts, hp, rfl, rfl⟩ := hd
  rw [Raw.Stmt.listFaults_eq_flatMap]
  refine Reads.map (Loops.reads (row_loop (v := Stmt.unnumbered) (w := Raw.Stmt.repaired)
    (G := NoElse) (by simp [NoElse]) (fun p hp' => (hp p hp').follows) (fun p hp' us hu read => ?_)
    (fun read => ?_) #[])) fun all hall => ?_
  · refine Reads.quiet (p := []) Reads.atEnd fun b hb => ?_
    have hne : b = false := hb.trans (by simp [(hp p hp').ne_nil])
    subst hne
    exact someDeclaration_reads h (hp p hp') hu read
  · apply Reads.quiet (p := []) Reads.atEnd
    rintro _ rfl
    exact Reads.pure (P := (· = none)) rfl
  · rw [Stmt.listUnnumbered_eq_map, Raw.Stmt.listRepaired_eq_map, hall]
    rfl

end

theorem rules_complete (n : Nat) : RulesComplete (rules n) n := by
  induction n with
  | zero =>
      refine ⟨fun hd _ => ?_, fun hn _ _ => (by cases hn), fun hd _ => (by cases hd),
        fun hd => by cases hd⟩
      cases hd with
      | alone hf => cases hf
  | succ n ih =>
      refine ⟨fun hd hs => ?_, fun hn hd hs => ?_, fun hd hrest => ?_, fun hd => ?_⟩
      · cases hd with
        | expression hd => exact Reads.nested (assignment_reads ih hd hs)
        | alone hf => cases hf
      · cases hn
        exact Reads.nested (unary_reads ih hd hs)
      · exact Reads.nested (statementRule_reads ih hd hrest)
      · exact Reads.nested (blockRule_reads ih hd)

/-- Whatever derives from the relaxed grammar is read as its repaired tree, with its faults. -/
theorem ofTokens?_of_raw {tokens : List Token} {body : List Raw.Stmt} (firstId : Nat)
    (hd : Raw.ProgramDerives maxDepth (upToEnd tokens) body) :
    ∃ p, Program.ofTokens? tokens firstId = some p ∧ p.faults = Raw.Stmt.listFaults body ∧
      Stmt.listUnnumbered p.statements = Raw.Stmt.listRepaired body := by
  obtain ⟨body', id, hr, hb⟩ := program_reads (rules_complete maxDepth) hd
    (.start tokens firstId) (List.append_nil _).symm (Nat.le_of_eq (Nat.zero_add _))
  refine ⟨⟨body', Raw.Stmt.listFaults body, id⟩, ?_, rfl, hb⟩
  rw [Program.ofTokens?, hr]
  simp [State.past, State.start]

theorem ofTokens?_of_derives {tokens : List Token} {body : List Stmt} (firstId : Nat)
    (hd : ProgramDerives maxDepth (upToEnd tokens) body) :
    ∃ p, Program.ofTokens? tokens firstId = some p ∧ p.faults = [] ∧
      Stmt.listUnnumbered p.statements = Stmt.listUnnumbered body := by
  obtain ⟨r, hr, hre, hf⟩ := hd.raw
  rw [← hre, ← hf]
  exact ofTokens?_of_raw firstId hr

/-- Programs are read without a fault exactly when they derive from the grammar, as the tree of the
derivation, and no tokens derive two trees that differ in more than identities. -/
theorem read_without_fault_iff_derives (tokens : List Token) (firstId : Nat) :
    (∀ p, Program.ofTokens? tokens firstId = some p → p.faults = [] →
      ProgramDerives maxDepth (upToEnd tokens) p.statements) ∧
    (∀ body, ProgramDerives maxDepth (upToEnd tokens) body →
      ∃ p, Program.ofTokens? tokens firstId = some p ∧ p.faults = [] ∧
        Stmt.listUnnumbered p.statements = Stmt.listUnnumbered body) ∧
    ∀ body body', ProgramDerives maxDepth (upToEnd tokens) body →
      ProgramDerives maxDepth (upToEnd tokens) body' →
      Stmt.listUnnumbered body = Stmt.listUnnumbered body' := by
  refine ⟨fun p hp hf => derives_of_ofTokens? hp hf, fun body => ofTokens?_of_derives firstId, ?_⟩
  intro body body' hd hd'
  obtain ⟨p, hp, -, hb⟩ := ofTokens?_of_derives firstId hd
  obtain ⟨p', hp', -, hb'⟩ := ofTokens?_of_derives firstId hd'
  cases hp.symm.trans hp'
  exact hb.symm.trans hb'

end Lox.Grammar
