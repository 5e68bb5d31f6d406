import Lox.Proofs.Grammar.Derivation
import Lox.Proofs.Grammar.Sound
import Lox.Program

/-!
Whatever is read as a program without a fault derives from the grammar.
-/

namespace Lox.Grammar

variable {α : Type} {inner : Rules} {n : Nat}

theorem literalOf?_eq_some_iff {k : Kind} {l : Literal} : literalOf? k = some l ↔ Denotes k l := by
  constructor
  · intro h
    unfold literalOf? at h
    split at h <;> cases h <;> constructor
  · intro h
    cases h <;> rfl

/-- The tokens behind a statement whose `else` might still come do not start with one. -/
def NoElse (rest : List Token) : Prop := ∀ t ∈ rest.head?, t.kind ≠ .keyword .kwElse

structure RulesSound (inner : Rules) (n : Nat) : Prop where
  expression : Sound (fun ts _ e => Derives n .expression ts e) inner.expression
  operand : Sound (fun ts _ e => ∃ k, n = k + 1 ∧ Derives k .unary ts e) inner.operand
  statement : Sound (fun ts rest s => ∃ o, StatementDerives n o ts s ∧ (o = true → NoElse rest))
    inner.statement
  block : Sound (fun ts _ b => BlockDerives n ts b) inner.block

/-! ### Lists -/

theorem Separated.append {parts : List (List Token)} {ts us : List Token} {comma : Token}
    (h : Separated parts ts) (hp : parts ≠ []) (hc : comma.kind = .symbol .comma) :
    Separated (parts ++ [us]) (ts ++ comma :: us) := by
  induction h with
  | none => exact absurd rfl hp
  | one ts => exact .more hc (.one us)
  | @more ts vs ws parts d hd h ih =>
      rw [List.append_assoc]
      exact .more hd (ih (List.cons_ne_nil _ _))

/-- What is known of the entries that a list has read. -/
structure Entries (D : List Token → α → Prop) (ts : List Token)
    (parts : List (List Token × α)) : Prop where
  separated : Separated (parts.map Prod.fst) ts
  derives : ∀ p ∈ parts, D p.1 p.2
  short : parts.length ≤ maxArity

theorem entry_sound {D : List Token → α → Prop} {what : Listed} {item : Rule α}
    (h : Sound (fun ts _ a => D ts a) item) (read : Array α) :
    Sound (fun ts _ all => ∃ a, D ts a ∧ all = read.push a ∧ read.size ≠ maxArity)
      (entry what item read) := by
  rw [entry]
  split
  · exact Sound.note (Sound.bind h fun a us => Sound.pure fun _ _ => trivial)
  · next hr => exact Sound.bind h fun a us => Sound.pure fun _ ha => ⟨a, by simpa using ha, rfl, hr⟩

theorem Entries.one {D : List Token → α → Prop} {ts : List Token} {a : α} (h : D ts a) :
    Entries D ts [(ts, a)] :=
  ⟨.one ts, by simpa using h, by simp [maxArity]⟩

theorem Entries.append {D : List Token → α → Prop} {ts us : List Token}
    {parts : List (List Token × α)} {comma : Token} {a : α} (h : Entries D ts parts)
    (hp : parts ≠ []) (hm : parts.length ≠ maxArity) (hc : comma.kind = .symbol .comma)
    (ha : D us a) : Entries D (ts ++ comma :: us) (parts ++ [(us, a)]) := by
  refine ⟨?_, ?_, ?_⟩
  · rw [List.map_append]
    exact h.separated.append (by simpa using hp) hc
  · intro p hp
    rcases List.mem_append.mp hp with hp | hp
    · exact h.derives p hp
    · rw [List.mem_singleton.mp hp]
      exact ha
  · have := h.short
    rw [List.length_append, List.length_singleton]
    omega

theorem listOf_sound {D : List Token → α → Prop} {what : Listed} {item : Rule α}
    (h : Sound (fun ts _ a => D ts a) item) :
    Sound (fun ts _ all => ∃ parts, Entries D ts parts ∧ all = parts.map Prod.snd)
      (listOf what item) := by
  refine Sound.bind (entry_sound h #[]) fun first us => ?_
  let Read (ts : List Token) (read : Array α) : Prop :=
    ∃ parts, Entries D ts parts ∧ parts ≠ [] ∧ read.toList = parts.map Prod.snd
  refine Sound.bind (Sound.repeatedly (I := fun ts read => Read us first → Read (us ++ ts) read)
    (G := fun _ => True) (by simp) trivial ?_) fun all vs => Sound.pure fun _ hall hfirst => ?_
  · intro read vs
    refine Sound.accept (fun comma => ?_) (Sound.pure fun rest _ _ =>
      ⟨fun b hb => (by cases hb), fun _ => ⟨rfl, trivial⟩⟩)
    refine Sound.bind (entry_sound h read) fun next ws => Sound.pure fun rest hn hc hr => ?_
    refine ⟨fun b hb => ⟨List.cons_ne_nil _ _, fun hf => ?_⟩, fun hb => by cases hb⟩
    cases hb
    obtain ⟨a, ha, rfl, hm⟩ := hn
    obtain ⟨parts, hp, hne, he⟩ := hr hf
    have hl : parts.length = read.size := by
      rw [← List.length_map Prod.snd, ← he, Array.length_toList]
    refine ⟨parts ++ [(ws, a)], ?_, by simp, by simp [he]⟩
    have := hp.append hne (by rwa [hl]) hc ha
    simpa using this
  · obtain ⟨a, ha, rfl, _⟩ := hfirst
    obtain ⟨parts, hp, _, he⟩ := hall.1 ⟨[(us, a)], .one ha, List.cons_ne_nil _ _, by simp⟩
    exact ⟨parts, by simpa using hp, he⟩

theorem listUpToParen_sound {D : List Token → α → Prop} {what : Listed} {item : Rule α}
    {place : Place} (h : Sound (fun ts _ a => D ts a) item) :
    Sound (fun ts _ out => ∃ us parts, Entries D us parts ∧ ts = us ++ [out.2] ∧
      out.2.kind = .symbol .rightParen ∧ out.1 = parts.map Prod.snd)
      (listUpToParen what item place) := by
  refine Sound.bind (Sound.ahead (D := fun ts _ _ => ts = []) fun _ => rfl) fun b us => ?_
  have hend (entries : List α) (vs : List Token) :
      Sound (fun ws _ out => (∃ parts, Entries D vs parts ∧ entries = parts.map Prod.snd) →
        ∃ us parts, Entries D us parts ∧ vs ++ ws = us ++ [out.2] ∧
          out.2.kind = .symbol .rightParen ∧ out.1 = parts.map Prod.snd)
        (do let paren ← expectSymbol .rightParen place; return (entries, paren)) :=
    Sound.expect fun t => Sound.pure fun rest ht he => by
      obtain ⟨parts, hp, rfl⟩ := he
      exact ⟨vs, parts, hp, rfl, ht, rfl⟩
  split
  · exact (hend [] []).mono fun ws rest out ho hu => by
      subst hu
      exact ho ⟨[], ⟨.none, by simp, by simp⟩, rfl⟩
  · refine Sound.bind (listOf_sound h) fun entries vs => ?_
    exact (hend entries vs).mono fun ws rest out ho he hu => by
      subst hu
      exact ho he

/-- Parts one behind the other, the way they are collected. -/
def Row (D : List Token → α → Prop) (ts : List Token) (read : Array α) : Prop :=
  ∃ parts : List (List Token × α), (∀ p ∈ parts, D p.1 p.2) ∧
    ts = (parts.map Prod.fst).flatten ∧ read.toList = parts.map Prod.snd

theorem Row.empty {D : List Token → α → Prop} : Row D [] #[] := ⟨[], by simp⟩

theorem Row.push {D : List Token → α → Prop} {ts us : List Token} {read : Array α} {a : α}
    (h : Row D ts read) (ha : D us a) : Row D (ts ++ us) (read.push a) := by
  obtain ⟨parts, hp, rfl, he⟩ := h
  refine ⟨parts ++ [(us, a)], fun p hmem => ?_, by simp, by simp [he]⟩
  rcases List.mem_append.mp hmem with hmem | hmem
  · exact hp p hmem
  · rw [List.mem_singleton.mp hmem]
    exact ha

theorem FunctionDerives.ne_nil {ts : List Token} {f : Function} (h : FunctionDerives n ts f) :
    ts ≠ [] := by
  cases h
  exact List.cons_ne_nil _ _

theorem DeclarationDerives.ne_nil {ts : List Token} {s : Stmt} (h : DeclarationDerives n ts s) :
    ts ≠ [] := by
  cases h with
  | klass => exact List.cons_ne_nil _ _
  | function => exact List.cons_ne_nil _ _
  | var h => cases h; exact List.cons_ne_nil _ _
  | statement h =>
      cases h with
      | expression h => cases h; simp
      | _ => exact List.cons_ne_nil _ _

theorem atClose_sound : Sound (fun ts rest b => ts = [] ∧ (b = false → rest ≠ [])) atClose := by
  refine Sound.bind (Sound.ahead (D := fun ts _ _ => ts = []) fun _ => rfl) fun b us => ?_
  split
  · exact Sound.pure fun _ hu => ⟨by rw [hu]; rfl, fun hb => by cases hb⟩
  · exact Sound.atEnd fun rest hu => ⟨by rw [hu]; rfl, fun hb hr => by simp [hr] at hb⟩

/-! ### Expressions -/

section

variable (h : RulesSound inner n)

include h

theorem primary_sound : Sound (fun ts _ e => Derives n .primary ts e) (primary inner) := by
  refine Sound.bind (Sound.acceptMap
    (D := fun ts _ o => (∀ l, o = some l → ∃ t, ts = [t] ∧ Denotes t.kind l) ∧ (o = none → ts = []))
    (fun t _ l hl => ⟨fun l' hl' => ?_, fun ho => by cases ho⟩)
    fun _ _ => ⟨fun l hl => (by cases hl), fun _ => rfl⟩) fun o us => ?_
  · cases hl'
    exact ⟨t, rfl, literalOf?_eq_some_iff.mp hl⟩
  cases o with
  | some l =>
      refine Sound.pure fun _ hl => ?_
      obtain ⟨t, rfl, ht⟩ := hl.1 l rfl
      exact .literal ht
  | none =>
      refine Sound.accept (fun name => ?_) (Sound.accept (fun lparen => ?_) (Sound.refuse _))
      · refine Sound.bind (Sound.freshId (D := fun ts _ _ => ts = []) fun _ _ => rfl) fun id vs => ?_
        refine Sound.pure fun _ hv hn hu => ?_
        subst hv
        obtain rfl := hu.2 rfl
        exact .read id hn
      · refine Sound.bind h.expression fun e vs => Sound.expect fun rparen => ?_
        refine Sound.pure fun _ hr he hl _ hu => ?_
        obtain rfl := hu.2 rfl
        exact .grouping hl he hr

theorem call_sound : Sound (fun ts _ e => Derives n .call ts e) (call inner) := by
  refine Sound.bind (primary_sound h) fun e us => ?_
  refine (Sound.repeatedly (I := fun ts e' => Derives n .primary us e → Derives n .call (us ++ ts) e')
    (G := fun _ => True) (fun he => by simpa using .alone rfl he) trivial fun callee vs => ?_).mono
      fun vs _ e' hd he => hd.1 he
  refine Sound.accept (fun lparen => ?_) (Sound.pure fun rest _ _ =>
      ⟨fun b hb => (by cases hb), fun _ => ⟨rfl, trivial⟩⟩)
  refine Sound.bind (listUpToParen_sound h.expression) fun out ws => Sound.pure fun rest ho hl hc => ?_
  refine ⟨fun b hb => ⟨List.cons_ne_nil _ _, fun he => ?_⟩, fun hb => by cases hb⟩
  cases hb
  obtain ⟨xs, args, ha, rfl, hr, hargs⟩ := ho
  rw [hargs, List.append_nil, ← List.append_assoc]
  exact .call (hc he) hl ha.separated ha.derives ha.short hr

theorem unary_sound : Sound (fun ts _ e => Derives n .unary ts e) (unary inner) := by
  refine Sound.acceptIf (fun op => ?_) ((call_sound h).mono fun ts _ e he _ => .alone rfl he)
  refine Sound.bind h.operand fun e us => Sound.pure fun _ he ho => ?_
  obtain ⟨k, rfl, hk⟩ := he
  rw [List.append_nil]
  exact .unary (by simpa [isUnary] using ho) hk

end

theorem chain_sound {b : Binary} {p : Kind → Bool} {join : Expr → Token → Expr → Expr}
    {operand : Rule Expr} (ho : Sound (fun ts _ e => Derives n b.operand ts e) operand)
    (hp : ∀ k, p k = true → k ∈ b.operators) (hj : join = b.join) :
    Sound (fun ts _ e => Derives n (.binary b) ts e) (chain p join operand) := by
  refine Sound.bind ho fun e us => ?_
  refine (Sound.repeatedly
    (I := fun ts e' => Derives n b.operand us e → Derives n (.binary b) (us ++ ts) e')
    (G := fun _ => True) (fun he => by simpa using .alone rfl he) trivial fun left vs => ?_).mono
      fun vs _ e' hd he => hd.1 he
  refine Sound.acceptIf (fun op => ?_) (Sound.pure fun rest _ _ =>
      ⟨fun b hb => (by cases hb), fun _ => ⟨rfl, trivial⟩⟩)
  refine Sound.bind ho fun right ws => Sound.pure fun rest hr hop hl => ?_
  refine ⟨fun b hb => ⟨List.cons_ne_nil _ _, fun he => ?_⟩, fun hb => by cases hb⟩
  cases hb
  rw [List.append_nil, ← List.append_assoc, hj]
  exact .join (hl he) (hp _ hop) hr

theorem Derives.of_read {f : Form} {ts : List Token} {id : Nat} {name : Token}
    (h : Derives n f ts (.read id name)) : ts = [name] ∧ name.kind = .identifier := by
  generalize he : Expr.read id name = e at h
  induction h with
  | expression _ ih | alone _ _ ih => exact ih he
  | @join _ _ _ _ _ b => cases b <;> cases he
  | read id hn => cases he; exact ⟨rfl, hn⟩
  | _ => cases he

section

variable (h : RulesSound inner n)

include h

theorem disjunction_sound :
    Sound (fun ts _ e => Derives n (.binary .disjunction) ts e) (disjunction inner) := by
  have hfactor : Sound (fun ts _ e => Derives n (.binary .factor) ts e) (factor inner) :=
    chain_sound (unary_sound h) (by simp [isFactor, Binary.operators]) rfl
  have hterm : Sound (fun ts _ e => Derives n (.binary .term) ts e) (term inner) :=
    chain_sound hfactor (by simp [isTerm, Binary.operators]) rfl
  have hcomparison : Sound (fun ts _ e => Derives n (.binary .comparison) ts e) (comparison inner) :=
    chain_sound hterm (by simp [isComparison, Binary.operators, or_assoc]) rfl
  have hequality : Sound (fun ts _ e => Derives n (.binary .equality) ts e) (equality inner) :=
    chain_sound hcomparison (by simp [isEquality, Binary.operators]) rfl
  have hconjunction :
      Sound (fun ts _ e => Derives n (.binary .conjunction) ts e) (conjunction inner) :=
    chain_sound hequality (by simp [Binary.operators]) rfl
  exact chain_sound hconjunction (by simp [Binary.operators]) rfl

theorem assignment_sound : Sound (fun ts _ e => Derives n .assignment ts e) (assignment inner) := by
  refine Sound.bind (disjunction_sound h) fun target us => ?_
  refine Sound.accept (fun equals => ?_) (Sound.pure fun _ _ ht => ?_)
  · refine Sound.bind h.expression fun value vs => ?_
    cases target with
    | read id name =>
        refine Sound.bind (Sound.freshId (D := fun ts _ _ => ts = []) fun _ _ => rfl) fun id' ws => ?_
        refine Sound.pure fun _ hw hv he ht => ?_
        subst hw
        obtain ⟨rfl, hn⟩ := ht.of_read
        cases hv with
        | expression hv => simpa using Derives.assign id' hn he hv
        | alone hf => cases hf
    | _ => exact Sound.note (f := fun _ => equals.line) (Sound.pure fun _ => trivial)
  · rw [List.append_nil]
    exact .alone rfl ht

/-! ### Statements -/

theorem varRest_sound : Sound (fun ts _ s => ∀ kw : Token, kw.kind = .keyword .kwVar →
    VarDerives n (kw :: ts) s) (varRest inner) := by
  refine Sound.expect fun name => Sound.accept (fun equal => ?_) ?_
  · refine Sound.bind h.expression fun e us => Sound.expect fun semicolon => ?_
    exact Sound.pure fun _ hs he hq hn kw hk => .intro hk hn (.some hq he) hs
  · refine Sound.expect fun semicolon => ?_
    exact Sound.pure fun _ hs _ hn kw hk => .intro hk hn .none hs

theorem expressionStatement_sound :
    Sound (fun ts _ s => ExpressionDerives n ts s) (expressionStatement inner) := by
  refine Sound.bind h.expression fun e us => Sound.expect fun semicolon => ?_
  exact Sound.pure fun _ hs he => .intro he hs

theorem optional_sound (k : Kind) :
    Sound (fun ts _ o => Optionally n ts o) (optional (ahead k) inner.expression) := by
  refine Sound.bind (Sound.ahead (D := fun ts _ _ => ts = []) fun _ => rfl) fun b us => ?_
  split
  · exact Sound.pure fun _ hu => by subst hu; exact .none
  · refine Sound.bind h.expression fun e vs => Sound.pure fun _ he hu => ?_
    subst hu
    rw [List.nil_append, List.append_nil]
    exact .some he

theorem printRest_sound : Sound (fun ts _ s => ∀ kw : Token, kw.kind = .keyword .kwPrint →
    StatementDerives (n + 1) false (kw :: ts) s) (printRest inner) := by
  refine Sound.bind h.expression fun e us => Sound.expect fun semicolon => ?_
  exact Sound.pure fun _ hs he kw hk => .print hk he hs

theorem returnRest_sound (kw : Token) : Sound (fun ts _ s => kw.kind = .keyword .kwReturn →
    StatementDerives (n + 1) false (kw :: ts) s) (returnRest inner kw) := by
  refine Sound.bind (optional_sound h _) fun e us => Sound.expect fun semicolon => ?_
  exact Sound.pure fun _ hs he hk => .returning hk he hs

theorem ifRest_sound : Sound (fun ts rest s => ∀ kw : Token, kw.kind = .keyword .kwIf →
    ∃ o, StatementDerives (n + 1) o (kw :: ts) s ∧ (o = true → NoElse rest)) (ifRest inner) := by
  refine Sound.expect fun lparen => Sound.bind h.expression fun c us => ?_
  refine Sound.expect fun rparen => Sound.bind h.statement fun yes vs => ?_
  refine Sound.accept (fun other => ?_) ?_
  · refine Sound.bind h.statement fun no ws => Sound.pure fun rest hn ho hy hr hc hl kw hk => ?_
    obtain ⟨o, hy, hopen⟩ := hy
    obtain ⟨p, hn, hrest⟩ := hn
    cases o with
    | true => exact absurd ho (hopen rfl other rfl)
    | false => exact ⟨p, by simpa using .alternative hk hl hc hr hy ho hn, hrest⟩
  · refine Sound.pure fun rest hrest hy hr hc hl kw hk => ?_
    obtain ⟨o, hy, _⟩ := hy
    exact ⟨true, by simpa using .conditional hk hl hc hr hy, fun _ => hrest⟩

theorem whileRest_sound : Sound (fun ts rest s => ∀ kw : Token, kw.kind = .keyword .kwWhile →
    ∃ o, StatementDerives (n + 1) o (kw :: ts) s ∧ (o = true → NoElse rest)) (whileRest inner) := by
  refine Sound.expect fun lparen => Sound.bind h.expression fun c us => ?_
  refine Sound.expect fun rparen => Sound.bind h.statement fun body vs => ?_
  refine Sound.pure fun rest hb hr hc hl kw hk => ?_
  obtain ⟨o, hb, hrest⟩ := hb
  exact ⟨o, by simpa using .whileLoop hk hl hc hr hb, hrest⟩

theorem forInitial_sound : Sound (fun ts _ o => ClauseDerives n ts o) (forInitial inner) := by
  refine Sound.accept (fun semicolon => Sound.pure fun _ hs => .none hs) ?_
  refine Sound.accept (fun kw => ?_) ?_
  · refine Sound.bind (varRest_sound h) fun s us => Sound.pure fun _ hs hk _ => ?_
    exact .var (by simpa using hs kw hk)
  · refine Sound.bind (expressionStatement_sound h) fun s us => Sound.pure fun _ hs _ _ => ?_
    exact .expression (by simpa using hs)

omit h in
theorem forLoop_eq (initial : Option Stmt) (condition increment : Option Expr) (body : Stmt) :
    forLoop initial condition increment body =
      withInitial (.whileLoop (condition.getD (.literal (.boolean true)))
        (withIncrement body increment)) initial := by
  cases initial <;> cases increment <;> rfl

theorem forRest_sound : Sound (fun ts rest s => ∀ kw : Token, kw.kind = .keyword .kwFor →
    ∃ o, StatementDerives (n + 1) o (kw :: ts) s ∧ (o = true → NoElse rest)) (forRest inner) := by
  refine Sound.expect fun lparen => Sound.bind (forInitial_sound h) fun initial us => ?_
  refine Sound.bind (optional_sound h _) fun condition vs => Sound.expect fun semicolon => ?_
  refine Sound.bind (optional_sound h _) fun increment ws => Sound.expect fun rparen => ?_
  refine Sound.bind h.statement fun body xs => ?_
  refine Sound.pure fun rest hb hr hn hs hc hi hl kw hk => ?_
  obtain ⟨o, hb, hrest⟩ := hb
  rw [forLoop_eq]
  exact ⟨o, by simpa using .forLoop hk hl hi hc hs hn hr hb, hrest⟩

theorem statementRule_sound : Sound (fun ts rest s =>
    ∃ o, StatementDerives (n + 1) o ts s ∧ (o = true → NoElse rest)) (statementRule inner) := by
  apply Sound.accept (fun kw => (forRest_sound h).mono fun _ _ _ hs hk => hs kw hk)
  apply Sound.accept (fun kw => (ifRest_sound h).mono fun _ _ _ hs hk _ => hs kw hk)
  apply Sound.accept (fun kw => (whileRest_sound h).mono fun _ _ _ hs hk _ _ => hs kw hk)
  refine Sound.accept (fun kw => (returnRest_sound h kw).mono fun _ _ _ hs hk _ _ _ =>
    ⟨false, hs hk, fun ho => by cases ho⟩) ?_
  refine Sound.accept (fun lbrace => ?_) ?_
  · refine Sound.bind h.block fun body us => Sound.pure fun _ hb hl _ _ _ _ => ?_
    exact ⟨false, by simpa using .block hl hb, fun ho => by cases ho⟩
  refine Sound.accept (fun kw => (printRest_sound h).mono fun _ _ _ hs hk _ _ _ _ _ =>
    ⟨false, hs kw hk, fun ho => by cases ho⟩) ?_
  exact (expressionStatement_sound h).mono fun _ _ _ hs _ _ _ _ _ _ =>
    ⟨false, .expression hs, fun ho => by cases ho⟩

/-! ### Declarations -/

theorem function_sound (c : Callee) :
    Sound (fun ts _ f => FunctionDerives n ts f) (function inner c) := by
  refine Sound.expect fun name => Sound.expect fun lparen => ?_
  refine Sound.bind (listUpToParen_sound (D := fun ts t => ts = [t] ∧ t.kind = .identifier)
    (Sound.token _ _)) fun out us => Sound.expect fun lbrace => Sound.bind h.block fun body vs => ?_
  refine Sound.pure fun _ hb hl ho hp hn => ?_
  obtain ⟨xs, parts, he, rfl, hr, hparams⟩ := ho
  have hfst : parts.map Prod.fst = (parts.map Prod.snd).map ([·]) := by
    rw [List.map_map]
    exact List.map_congr_left fun p hp => (he.derives p hp).1
  have hkind : ∀ p ∈ parts.map Prod.snd, p.kind = .identifier := by
    intro p hp
    obtain ⟨q, hq, rfl⟩ := List.mem_map.mp hp
    exact (he.derives q hq).2
  have hs : Separated ((parts.map Prod.snd).map ([·])) xs := hfst ▸ he.separated
  have := FunctionDerives.intro hn hp hs hkind (by simpa using he.short) hr hl hb
  simpa [hparams] using this

theorem classRest_sound : Sound (fun ts _ s => ∀ kw : Token, kw.kind = .keyword .kwClass →
    DeclarationDerives n (kw :: ts) s) (classRest inner) := by
  refine Sound.expect fun name => Sound.expect fun lbrace => ?_
  refine Sound.bind (Sound.repeatedly (I := Row (FunctionDerives n)) (G := fun _ => True)
    .empty trivial fun read us => ?_) fun read us => Sound.expect fun rbrace => ?_
  · refine Sound.bind atClose_sound fun b vs => ?_
    split
    · exact Sound.pure fun _ hv _ => ⟨fun b hb => (by cases hb), fun _ => ⟨by rw [hv.1]; rfl, trivial⟩⟩
    · refine Sound.bind (function_sound h _) fun f ws => Sound.pure fun _ hf hv hr => ?_
      refine ⟨fun b hb => ?_, fun hb => by cases hb⟩
      cases hb
      rw [hv.1, List.nil_append, List.append_nil]
      exact ⟨hf.ne_nil, hr.push hf⟩
  · refine Sound.pure fun _ hr hm hl hn kw hk => ?_
    obtain ⟨⟨methods, hm, rfl, he⟩, _⟩ := hm
    rw [he]
    exact .klass hk hn hl hm hr

theorem declarationRule_sound :
    Sound (fun ts _ s => DeclarationDerives n ts s) (declarationRule inner) := by
  apply Sound.accept (fun kw => (classRest_sound h).mono fun _ _ _ hs hk => hs kw hk)
  refine Sound.accept (fun kw => ?_) ?_
  · refine Sound.bind (function_sound h _) fun f us => Sound.pure fun _ hf hk _ => ?_
    exact .function hk (by simpa using hf)
  apply Sound.accept (fun kw => (varRest_sound h).mono fun _ _ _ hs hk _ _ => .var (hs kw hk))
  refine h.statement.mono fun _ _ _ hs _ _ _ => ?_
  obtain ⟨o, hs, _⟩ := hs
  exact .statement hs

/-- A declaration that could not be read has noted a fault. -/
theorem nextDeclaration_sound (read : Array Stmt) :
    Sound (fun ts _ all => ∃ s, DeclarationDerives n ts s ∧ all = read.push s)
      (nextDeclaration inner read) := by
  refine Sound.get fun s => ?_
  refine Sound.bind (Sound.recovering (D := fun ts _ o => ∃ s, o = some s ∧ DeclarationDerives n ts s)
    ((declarationRule_sound h).mono fun _ _ s hs => ⟨s, rfl, hs⟩)) fun o us => ?_
  refine Sound.get fun t => ?_
  have hend : Sound (fun ts _ all => (∃ s, o = some s ∧ DeclarationDerives n us s) →
      ∃ s, DeclarationDerives n (us ++ ts) s ∧ all = read.push s)
      (pure (o.elim read read.push)) := by
    cases o with
    | none => exact Sound.pure fun _ ho => by obtain ⟨s, hs, _⟩ := ho; cases hs
    | some s =>
        refine Sound.pure fun _ ho => ?_
        obtain ⟨s', hs, hd⟩ := ho
        cases hs
        exact ⟨s, by simpa using hd, rfl⟩
  by_cases ht : t.position = s.position
  · simp only [if_pos ht]
    exact Sound.bind (Sound.throw (D := fun _ _ _ => False) _) fun u vs =>
      hend.mono fun _ _ _ _ (hu : False) => hu.elim
  · simp only [if_neg ht]
    exact hend.mono fun _ _ _ ha _ ho _ => ha ho

theorem someDeclaration_sound {G : List Token → Prop} (read : Array Stmt) (us : List Token) :
    Sound (fun ts rest o => Row (DeclarationDerives n) us read →
      (∀ b, o = some b → ts ≠ [] ∧ Row (DeclarationDerives n) (us ++ ts) b) ∧
        (o = none → ts = [] ∧ G rest))
      (do return some (← nextDeclaration inner read)) := by
  refine Sound.bind (nextDeclaration_sound h read) fun all vs => Sound.pure fun _ ha hr => ?_
  refine ⟨fun b hb => ?_, fun hb => by cases hb⟩
  cases hb
  obtain ⟨s, hs, rfl⟩ := ha
  rw [List.append_nil]
  exact ⟨hs.ne_nil, hr.push hs⟩

theorem blockRule_sound : Sound (fun ts _ b => BlockDerives (n + 1) ts b) (blockRule inner) := by
  refine Sound.bind (Sound.repeatedly (I := Row (DeclarationDerives n)) (G := fun _ => True)
    .empty trivial fun read us => ?_) fun read us => Sound.expect fun rbrace => ?_
  · refine Sound.bind atClose_sound fun b vs => ?_
    split
    · exact Sound.pure fun _ hv _ => ⟨fun b hb => (by cases hb), fun _ => ⟨by rw [hv.1]; rfl, trivial⟩⟩
    · exact (someDeclaration_sound h read us).mono fun ws rest o ho hv hr => by
        rw [hv.1]
        exact ho hr
  · refine Sound.pure fun _ hr hm => ?_
    obtain ⟨⟨parts, hp, rfl, he⟩, _⟩ := hm
    rw [he]
    exact .intro hp hr

theorem program_sound : Sound (fun ts rest b => ProgramDerives n ts b ∧ rest = []) (program inner) := by
  refine Sound.bind (Sound.repeatedly (I := Row (DeclarationDerives n)) (G := (· = []))
    .empty rfl fun read us => ?_) fun read us => ?_
  · refine Sound.bind (Sound.atEnd (D := fun ts rest b => ts = [] ∧ (b = true → rest = []))
      fun rest => ⟨rfl, List.isEmpty_iff.mp⟩) fun b vs => ?_
    split
    · refine Sound.pure fun _ hv _ => ⟨fun b hb => (by cases hb), fun _ => ?_⟩
      exact ⟨by rw [hv.1]; rfl, by simpa using hv.2 ‹_›⟩
    · exact (someDeclaration_sound h read us).mono fun ws rest o ho hv hr => by
        rw [hv.1]
        exact ho hr
  · refine Sound.pure fun _ hm => ?_
    obtain ⟨⟨parts, hp, rfl, he⟩, hrest⟩ := hm
    exact ⟨⟨parts, hp, by simp, he⟩, hrest⟩

end

theorem rules_sound (n : Nat) : RulesSound (rules n) n := by
  induction n with
  | zero => exact ⟨Sound.refuse _, Sound.refuse _, Sound.refuse _, Sound.refuse _⟩
  | succ n ih =>
      refine ⟨Sound.nested ?_, Sound.nested ?_, Sound.nested ?_, Sound.nested ?_⟩
      · exact (assignment_sound ih).mono fun _ _ _ he => .expression he
      · exact (unary_sound ih).mono fun _ _ _ he => ⟨n, rfl, he⟩
      · exact statementRule_sound ih
      · exact blockRule_sound ih

/-- The tokens in front of the first end mark. -/
def upToEnd (tokens : List Token) : List Token := tokens.takeWhile fun t => t.kind ≠ .eof

theorem upToEnd_append {ts : List Token} (h : ∀ t ∈ ts, t.kind ≠ .eof) (us : List Token) :
    upToEnd (ts ++ us) = ts ++ upToEnd us :=
  List.takeWhile_append_of_pos fun t ht => decide_eq_true (h t ht)

theorem upToEnd_eq_self {ts : List Token} (h : ∀ t ∈ ts, t.kind ≠ .eof) : upToEnd ts = ts := by
  simpa [upToEnd] using upToEnd_append h []

theorem NoElse.upToEnd {ts : List Token} (h : NoElse ts) : NoElse (upToEnd ts) := by
  intro t ht
  rw [Grammar.upToEnd, List.head?_takeWhile, Option.mem_filter_iff] at ht
  exact h t ht.1

theorem derives_of_ofTokens? {tokens : List Token} {firstId : Nat} {p : Program}
    (hp : Program.ofTokens? tokens firstId = some p) (hf : p.faults = []) :
    ProgramDerives maxDepth (upToEnd tokens) p.statements := by
  rw [Program.ofTokens?] at hp
  split at hp
  · next body s hr =>
    cases hp
    obtain ⟨ts, hts, hd, hrest⟩ := (program_sound (rules_sound maxDepth)).reads hr
      (Array.toList_eq_nil_iff.mp hf)
    rw [hrest, List.append_nil] at hts
    subst hts
    exact hd
  · cases hp

end Lox.Grammar
