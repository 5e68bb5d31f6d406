import Lox.Proofs.Decimal.Defined
import Lox.Proofs.Tree.Names
import Lox.Proofs.Tree.Unambiguous

/-!
Trees that derive from tokens with the text of their kinds are legible. Nothing else gets into a
tree, save the condition of a loop that has none. So the texts of its statements determine a program
that was read without faults.
-/

namespace Lox

namespace Grammar

/-- A token spelled as its kind is, whose literal can be told from its text. -/
structure Clear (t : Token) : Prop where
  spelled : t.Spelled
  literal : ∀ l, Denotes t.kind l → l.Legible

theorem Clear.of {t : Token} {kinds : List Kind} (h : Clear t) (hk : t.kind ∈ kinds) : t.Of kinds :=
  ⟨hk, h.spelled⟩

theorem Clear.single {t : Token} {k : Kind} (h : Clear t) (hk : t.kind = k) : t.Of [k] :=
  h.of (List.mem_singleton.mpr hk)

variable {n : Nat} {ts : List Token}

theorem legible_join {b : Binary} {l r : Expr} {op : Token} (hop : Clear op)
    (ho : op.kind ∈ b.operators) (hl : l.Legible) (hr : r.Legible) : (b.join l op r).Legible := by
  have hoperators : (∀ b ∈ [Binary.disjunction, .conjunction], b.operators ⊆ logicalOperators) ∧
      ∀ b ∈ [Binary.equality, .comparison, .term, .factor], b.operators ⊆ binaryOperators := by
    decide
  cases b with
  | disjunction | conjunction => exact ⟨hop.of (hoperators.1 _ (by decide) ho), hl, hr⟩
  | _ => exact ⟨hop.of (hoperators.2 _ (by decide) ho), hl, hr⟩

theorem legible_parts {α : Type} {P : α → Prop} {parts : List (List Token × α)}
    (h : ∀ p ∈ parts, (∀ t ∈ p.1, Clear t) → P p.2) (hs : ∀ p ∈ parts, p.1 ⊆ ts)
    (hc : ∀ t ∈ ts, Clear t) : ∀ a ∈ parts.map Prod.snd, P a := by
  intro a ha
  obtain ⟨p, hp, rfl⟩ := List.mem_map.mp ha
  exact h p hp fun t ht => hc t (hs p hp ht)

theorem Derives.legible {f : Form} {e : Expr} (hd : Derives n f ts e) (h : ∀ t ∈ ts, Clear t) :
    e.Legible := by
  induction hd with
  | expression _ ih | alone _ _ ih => exact ih h
  | assign id hn he _ ih => exact ⟨(h _ (by simp)).single hn, ih fun t ht => h t (by simp [ht])⟩
  | join _ ho _ ihl ihr =>
      exact legible_join (h _ (by simp)) ho (ihl fun t ht => h t (by simp [ht]))
        (ihr fun t ht => h t (by simp [ht]))
  | unary ho _ ih =>
      refine ⟨(h _ (by simp)).of ?_, ih fun t ht => h t (by simp [ht])⟩
      rcases ho with ho | ho <;> rw [ho] <;> decide
  | call _ _ hs _ _ hr ihc iha =>
      refine ⟨(h _ (by simp)).single hr, ihc fun t ht => h t (by simp [ht]),
        Expr.listLegible_iff.mpr ?_⟩
      exact legible_parts iha (fun p hp => hs.subset p.1 (List.mem_map_of_mem hp))
        fun t ht => h t (by simp [ht])
  | literal hl => exact (h _ (by simp)).literal _ hl
  | read id hn => exact (h _ (by simp)).single hn
  | grouping _ _ _ ih => exact ih fun t ht => h t (by simp [ht])

theorem Optionally.legible {value : Option Expr} (hd : Optionally n ts value) (h : ∀ t ∈ ts, Clear t) :
    ∀ e ∈ value, e.Legible := by
  cases hd with
  | none => exact fun _ h => by cases h
  | some hd => rintro _ ⟨⟩; exact hd.legible h

theorem VarDerives.legible {s : Stmt} (hd : VarDerives n ts s) (h : ∀ t ∈ ts, Clear t) : s.Legible := by
  cases hd with
  | intro _ hn hi _ =>
      cases hi with
      | none => exact (h _ (by simp)).single hn
      | some _ hd => exact ⟨(h _ (by simp)).single hn, hd.legible fun t ht => h t (by simp [ht])⟩

theorem ExpressionDerives.legible {s : Stmt} (hd : ExpressionDerives n ts s) (h : ∀ t ∈ ts, Clear t) :
    s.Legible := by
  cases hd with
  | intro hd _ => exact hd.legible fun t ht => h t (by simp [ht])

theorem ClauseDerives.legible {initial : Option Stmt} (hd : ClauseDerives n ts initial)
    (h : ∀ t ∈ ts, Clear t) : ∀ s ∈ initial, s.Legible := by
  cases hd with
  | none => exact fun _ h => by cases h
  | var hd => rintro _ ⟨⟩; exact hd.legible h
  | expression hd => rintro _ ⟨⟩; exact hd.legible h

theorem legible_withInitial {loop : Stmt} {initial : Option Stmt} (hl : loop.Legible)
    (hi : ∀ s ∈ initial, s.Legible) : (withInitial loop initial).Legible := by
  cases initial with
  | none => exact hl
  | some s => exact ⟨hi s rfl, hl, trivial⟩

theorem legible_withIncrement {body : Stmt} {increment : Option Expr} (hb : body.Legible)
    (hi : ∀ e ∈ increment, e.Legible) : (withIncrement body increment).Legible := by
  cases increment with
  | none => exact hb
  | some e => exact ⟨hb, hi e rfl, trivial⟩

theorem legible_getD {condition : Option Expr} (hc : ∀ e ∈ condition, e.Legible) :
    (condition.getD (.literal (.boolean true))).Legible := by
  cases condition with
  | none => exact trivial
  | some e => exact hc e rfl

theorem legible_returning {keyword : Token} {value : Option Expr} (hk : keyword.Of [.keyword .kwReturn])
    (hv : ∀ e ∈ value, e.Legible) : (Stmt.returning keyword value).Legible := by
  cases value with
  | none => exact hk
  | some e => exact ⟨hk, hv e rfl⟩

mutual

theorem StatementDerives.legible {n : Nat} {o : Bool} {ts : List Token} {s : Stmt} :
    StatementDerives n o ts s → (∀ t ∈ ts, Clear t) → s.Legible
  | .expression hd, h => hd.legible h
  | .print _ hd _, h => hd.legible fun t ht => h t (by simp [ht])
  | .returning hk hd _, h =>
      legible_returning ((h _ (by simp)).single hk) (hd.legible fun t ht => h t (by simp [ht]))
  | .block _ hd, h => Stmt.listLegible_iff.mpr (hd.legible fun t ht => h t (by simp [ht]))
  | .conditional _ _ hc _ hy, h =>
      ⟨hc.legible fun t ht => h t (by simp [ht]), hy.legible fun t ht => h t (by simp [ht])⟩
  | .alternative _ _ hc _ hy _ hn, h =>
      ⟨hc.legible fun t ht => h t (by simp [ht]), hy.legible fun t ht => h t (by simp [ht]),
        hn.legible fun t ht => h t (by simp [ht])⟩
  | .whileLoop _ _ hc _ hb, h =>
      ⟨hc.legible fun t ht => h t (by simp [ht]), hb.legible fun t ht => h t (by simp [ht])⟩
  | .forLoop _ _ hi hc _ hn _ hb, h =>
      legible_withInitial
        ⟨legible_getD (hc.legible fun t ht => h t (by simp [ht])),
          legible_withIncrement (hb.legible fun t ht => h t (by simp [ht]))
            (hn.legible fun t ht => h t (by simp [ht]))⟩
        (hi.legible fun t ht => h t (by simp [ht]))

theorem BlockDerives.legible {n : Nat} {ts : List Token} {body : List Stmt} :
    BlockDerives n ts body → (∀ t ∈ ts, Clear t) → ∀ s ∈ body, s.Legible
  | .intro hp _, h =>
      legible_parts (fun p hp' => (hp p hp').legible) subset_flatten
        fun t ht => h t (List.mem_append_left _ ht)

theorem FunctionDerives.legible {n : Nat} {ts : List Token} {f : Function} :
    FunctionDerives n ts f → (∀ t ∈ ts, Clear t) → Stmt.FunctionLegible f
  | .intro hn _ hs hp _ _ _ hb, h => by
      refine Stmt.functionLegible_iff.mpr ⟨(h _ (by simp)).single hn,
        fun p hp' => (h p ?_).single (hp p hp'), hb.legible fun t ht => h t (by simp [ht])⟩
      have := hs.subset [p] (List.mem_map_of_mem hp') List.mem_cons_self
      simp [this]

theorem DeclarationDerives.legible {n : Nat} {ts : List Token} {s : Stmt} :
    DeclarationDerives n ts s → (∀ t ∈ ts, Clear t) → s.Legible
  | .klass _ hn _ hm _, h =>
      ⟨(h _ (by simp)).single hn, Stmt.methodsLegible_iff.mpr
        (legible_parts (fun m hm' => (hm m hm').legible) subset_flatten fun t ht => h t (by simp [ht]))⟩
  | .function _ hf, h => hf.legible fun t ht => h t (by simp [ht])
  | .var hd, h => hd.legible h
  | .statement hd, h => hd.legible h

end

theorem ProgramDerives.legible {n : Nat} {ts : List Token} {body : List Stmt}
    (hd : ProgramDerives n ts body) (h : ∀ t ∈ ts, Clear t) : Stmt.ListLegible body := by
  obtain ⟨parts, hp, rfl, rfl⟩ := hd
  exact Stmt.listLegible_iff.mpr (legible_parts (fun p hp' => (hp p hp').legible) subset_flatten h)

end Grammar

/-- Neither a string, whose text may be anything, nor a number too large for a double, which is shown
as a name could be. -/
def Kind.Told : Kind → Prop
  | .string _ => False
  | .number x => Decimal.magnitude x ≠ .infinite
  | _ => True

instance (k : Kind) : Decidable k.Told := by
  cases k <;> unfold Kind.Told <;> infer_instance

theorem Source.clear_of_mem_tokens {source : String} {t : Token} (ht : t ∈ Source.tokens source)
    (htold : t.kind.Told) : Grammar.Clear t := by
  have hspelled := Source.spelled_of_mem_tokens ht
  refine ⟨hspelled, fun l hl => ?_⟩
  cases hk : t.kind with
  | number x =>
    rw [hk] at hl htold
    cases hl
    obtain ⟨digits, places, rfl⟩ := hspelled.number x hk
    cases hm : Decimal.magnitude (Decimal.ofDigits digits places) with
    | finite b => exact ⟨b, hm⟩
    | infinite => exact absurd hm htold
    | undefined => exact absurd hm (Decimal.magnitude_ofDigits digits places)
  | string s => rw [hk] at htold; exact htold.elim
  | _ => rw [hk] at hl; cases hl <;> exact trivial

theorem Source.legible_program {source : String} {firstId : Nat} {p : Program}
    (hp : Program.ofTokens? (Source.tokens source) firstId = some p) (hf : p.faults = [])
    (htold : ∀ t ∈ Source.tokens source, t.kind.Told) : Stmt.ListLegible p.statements := by
  refine (Grammar.derives_of_ofTokens? hp hf).legible fun t ht => ?_
  have hmem : t ∈ Source.tokens source := (List.takeWhile_sublist _).subset ht
  exact clear_of_mem_tokens hmem (htold t hmem)

/-- **The printed tree determines the program.** Two programs that are read without faults, from
texts without strings and without numbers beyond all doubles, are the same apart from lines and
identities if their statements have the same texts. -/
theorem text_determines_program {a b : String} {i j : Nat} {p q : Program}
    (hp : Program.ofTokens? (Source.tokens a) i = some p) (hpf : p.faults = [])
    (ha : ∀ t ∈ Source.tokens a, t.kind.Told)
    (hq : Program.ofTokens? (Source.tokens b) j = some q) (hqf : q.faults = [])
    (hb : ∀ t ∈ Source.tokens b, t.kind.Told)
    (htexts : p.statements.map Stmt.text = q.statements.map Stmt.text) :
    Stmt.listLineless p.statements = Stmt.listLineless q.statements :=
  Stmt.listLineless_of_texts (Source.legible_program hp hpf ha) (Source.legible_program hq hqf hb) htexts

/-- Names that are spelled like heads, and a minus that is both binary and unary. -/
def likeHeads : String := "if (call) group(call) - -1.5; else \x7b var block = !print_(); \x7d"

/-- The same over several lines. -/
def likeHeadsOnLines : String :=
  "if (call)\n  group(call) - -1.50; // both\nelse \x7b\n  var block = !print_();\n\x7d"

def likeHeadsTexts : List String :=
  ["(if call (; (- (call group call) (- 1.5))) (block (var block (! (call print_)))))"]

theorem likeHeads_determined : ∃ p q,
    Program.ofTokens? (Source.tokens likeHeads) 0 = some p ∧ p.faults = [] ∧
    (∀ t ∈ Source.tokens likeHeads, t.kind.Told) ∧
    Program.ofTokens? (Source.tokens likeHeadsOnLines) 7 = some q ∧ q.faults = [] ∧
    (∀ t ∈ Source.tokens likeHeadsOnLines, t.kind.Told) ∧
    p.statements.map Stmt.text = q.statements.map Stmt.text ∧
    Stmt.listLineless p.statements = Stmt.listLineless q.statements := by
  have hp : (Program.ofTokens? (Source.tokens likeHeads) 0).map
      (fun p => (p.faults, p.statements.map Stmt.text)) = some ([], likeHeadsTexts) := by
    decide +kernel
  have hq : (Program.ofTokens? (Source.tokens likeHeadsOnLines) 7).map
      (fun p => (p.faults, p.statements.map Stmt.text)) = some ([], likeHeadsTexts) := by
    decide +kernel
  have ha : ∀ t ∈ Source.tokens likeHeads, t.kind.Told := by decide +kernel
  have hb : ∀ t ∈ Source.tokens likeHeadsOnLines, t.kind.Told := by decide +kernel
  obtain ⟨p, hp, hpl⟩ := Option.map_eq_some_iff.mp hp
  obtain ⟨q, hq, hql⟩ := Option.map_eq_some_iff.mp hq
  obtain ⟨hpf, hpt⟩ := Prod.mk.inj hpl
  obtain ⟨hqf, hqt⟩ := Prod.mk.inj hql
  have htexts := hpt.trans hqt.symm
  exact ⟨p, q, hp, hpf, ha, hq, hqf, hb, htexts, text_determines_program hp hpf ha hq hqf hb htexts⟩

end Lox
