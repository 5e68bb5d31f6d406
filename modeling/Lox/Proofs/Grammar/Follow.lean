import Lox.Proofs.Grammar.Relaxed

/-!
Which tokens an expression may start with, and which ones would carry it on. A reader that looks at
one token at a time needs these to be apart.
-/

namespace Lox.Grammar

variable {n : Nat} {f g : Form} {k : Kind} {ts rest : List Token}
  {e : Raw.Expr}

/-- The operators that bind as tightly as the given ones or tighter. -/
def Binary.within : Binary → List Binary
  | .disjunction => [.disjunction, .conjunction, .equality, .comparison, .term, .factor]
  | .conjunction => [.conjunction, .equality, .comparison, .term, .factor]
  | .equality => [.equality, .comparison, .term, .factor]
  | .comparison => [.comparison, .term, .factor]
  | .term => [.term, .factor]
  | .factor => [.factor]

def Binary.continues (b : Binary) : List Kind :=
  b.within.flatMap Binary.operators ++ [.symbol .leftParen]

/-- The kinds of tokens that carry an expression of a form on. -/
def Form.continues : Form → List Kind
  | .primary => []
  | .call | .unary => [.symbol .leftParen]
  | .binary b => b.continues
  | .assignment | .expression => .symbol .equal :: Binary.disjunction.continues

/-- The tokens behind an expression do not carry it on. -/
def Stops (f : Form) (rest : List Token) : Prop := ∀ t ∈ rest.head?, t.kind ∉ f.continues

theorem Binary.continues_eq (b : Binary) : b.continues = b.operators ++ b.operand.continues := by
  cases b <;> rfl

theorem Form.continues_subset (h : f.tighter? = some g) : g.continues ⊆ f.continues := by
  cases f with
  | binary b =>
      cases h
      rw [Form.continues, b.continues_eq]
      exact List.subset_append_right _ _
  | assignment => cases h; exact List.subset_cons_self _ _
  | unary => cases h; exact List.Subset.refl _
  | call => cases h; exact List.nil_subset _
  | _ => cases h

theorem Stops.tighter (h : Stops f rest) (hf : f.tighter? = some g) : Stops g rest :=
  fun t ht hk => h t ht (Form.continues_subset hf hk)

/-- No operator carries its own left operand on. -/
theorem Binary.not_mem_continues {b : Binary} (h : k ∈ b.operators) : k ∉ b.operand.continues := by
  cases b <;>
    simp only [Binary.operators, List.mem_cons, List.not_mem_nil, or_false] at h <;>
    rcases h with rfl | rfl | rfl | rfl <;>
    simp [Binary.operand, Form.continues, Binary.continues, Binary.within, Binary.operators]

theorem Stops.operand {b : Binary} {op : Token} (h : op.kind ∈ b.operators) :
    Stops b.operand (op :: rest) := by
  rintro t ⟨⟩
  exact b.not_mem_continues h

theorem Stops.operators {b : Binary} (h : Stops (.binary b) rest) :
    ∀ t ∈ rest.head?, t.kind ∉ b.operators := by
  intro t ht hk
  apply h t ht
  rw [Form.continues, b.continues_eq]
  exact List.mem_append_left _ hk

/-- The kinds of tokens that an expression of a form may start with. -/
inductive Opens : Form → Kind → Prop
  | literal {f : Form} {k : Kind} {l : Literal} (h : Denotes k l) : Opens f k
  | identifier {f : Form} : Opens f .identifier
  | leftParen {f : Form} : Opens f (.symbol .leftParen)
  | bang {f : Form} (hc : f ≠ .call) (hp : f ≠ .primary) : Opens f (.symbol .bang)
  | minus {f : Form} (hc : f ≠ .call) (hp : f ≠ .primary) : Opens f (.symbol .minus)

theorem Opens.mono (h : Opens g k) (hc : f = .call → g = .primary) (hp : f ≠ .primary) :
    Opens f k := by
  cases h with
  | literal h => exact .literal h
  | identifier => exact .identifier
  | leftParen => exact .leftParen
  | bang _ hg => exact .bang (fun hf => hg (hc hf)) hp
  | minus _ hg => exact .minus (fun hf => hg (hc hf)) hp

theorem Raw.Derives.opens (h : Raw.Derives n f ts e) :
    ∃ us, ts = e.first :: us ∧ Opens f e.first.kind := by
  induction h with
  | expression _ ih =>
      obtain ⟨us, rfl, ht⟩ := ih
      exact ⟨us, rfl, ht.mono (fun hf => by cases hf) (fun hf => by cases hf)⟩
  | assign _ _ _ ih =>
      obtain ⟨us, rfl, ht⟩ := ih
      exact ⟨_, rfl, ht.mono (fun hf => by cases hf) (fun hf => by cases hf)⟩
  | @join _ _ _ _ _ b _ _ _ _ ih =>
      obtain ⟨us, rfl, ht⟩ := ih
      cases b <;> exact ⟨_, rfl, ht⟩
  | call _ _ _ _ _ ih =>
      obtain ⟨us, rfl, ht⟩ := ih
      exact ⟨_, rfl, ht⟩
  | unary ho =>
      refine ⟨_, rfl, ?_⟩
      rw [Raw.Expr.first]
      rcases ho with ho | ho <;> rw [ho]
      · exact .bang (fun hf => by cases hf) (fun hf => by cases hf)
      · exact .minus (fun hf => by cases hf) (fun hf => by cases hf)
  | alone hf _ ih =>
      obtain ⟨us, rfl, ht⟩ := ih
      refine ⟨us, rfl, ht.mono ?_ ?_⟩
      · rintro rfl
        cases hf
        rfl
      · rintro rfl
        cases hf
  | literal h => exact ⟨_, rfl, .literal h⟩
  | read hn =>
      refine ⟨_, rfl, ?_⟩
      rw [Raw.Expr.first, hn]
      exact .identifier
  | grouping hl =>
      refine ⟨_, rfl, ?_⟩
      rw [Raw.Expr.first, hl]
      exact .leftParen

/-- Kinds of tokens that start or end something else. -/
def otherKinds : List Kind :=
  [.symbol .semicolon, .symbol .rightParen, .symbol .leftBrace, .symbol .rightBrace,
    .keyword .kwClass, .keyword .kwFun, .keyword .kwVar, .keyword .kwFor, .keyword .kwIf,
    .keyword .kwWhile, .keyword .kwReturn, .keyword .kwPrint, .keyword .kwElse]

theorem Opens.ne {k' : Kind} (h : Opens f k) (hk : k' ∈ otherKinds) : k ≠ k' := by
  rintro rfl
  simp only [otherKinds, List.mem_cons, List.not_mem_nil, or_false] at hk
  rcases hk with rfl | rfl | rfl | rfl | rfl | rfl | rfl | rfl | rfl | rfl | rfl | rfl |
    rfl <;>
    cases h <;> rename_i h <;> cases h

theorem Raw.Derives.head_ne {k : Kind} {vs : List Token} (h : Raw.Derives n f ts e)
    (hk : k ∈ otherKinds) : ∀ t ∈ (ts ++ vs).head?, t.kind ≠ k := by
  obtain ⟨us, rfl, ht⟩ := h.opens
  rintro u ⟨⟩
  exact ht.ne hk

theorem head_ne {t : Token} {us : List Token} {k k' : Kind} (ht : t.kind = k) (hk : k ≠ k') :
    ∀ u ∈ (t :: us).head?, u.kind ≠ k' := by
  rintro u ⟨⟩
  rwa [ht]

theorem head_ne_of_mem {t : Token} {us : List Token} {k k' : Kind} {ks : List Kind}
    (ht : t.kind = k) (hk : k' ∈ ks) (hn : k ∉ ks) : ∀ u ∈ (t :: us).head?, u.kind ≠ k' :=
  head_ne ht fun he => hn (he ▸ hk)

theorem Raw.VarDerives.keyword {s : Raw.Stmt} (h : Raw.VarDerives n ts s) :
    ∃ kw us, ts = kw :: us ∧ kw.kind = .keyword .kwVar := by
  cases h with
  | intro hk => exact ⟨_, _, rfl, hk⟩

theorem Raw.ExpressionDerives.head_ne {s : Raw.Stmt} (h : Raw.ExpressionDerives n ts s)
    (hk : k ∈ otherKinds) : ∀ t ∈ (ts ++ rest).head?, t.kind ≠ k := by
  cases h with
  | intro h =>
      rw [List.append_assoc]
      exact h.head_ne hk

/-- Kinds of tokens that no statement starts with. -/
def foreignKinds : List Kind :=
  [.keyword .kwClass, .keyword .kwFun, .keyword .kwVar, .keyword .kwElse, .symbol .rightBrace]

theorem foreignKinds_subset : foreignKinds ⊆ otherKinds := by
  simp [foreignKinds, otherKinds]

theorem Raw.StatementDerives.head_ne {o : Bool} {s : Raw.Stmt} (h : Raw.StatementDerives n o ts s)
    (hk : k ∈ foreignKinds) : ∀ t ∈ (ts ++ rest).head?, t.kind ≠ k := by
  cases h with
  | expression h => exact h.head_ne (foreignKinds_subset hk)
  | print ht | returning ht | block ht | conditional ht | alternative ht | whileLoop ht
  | forLoop ht => exact head_ne_of_mem ht hk (by decide)

/-- Kinds of tokens that may stand behind a declaration but start none. -/
def closingKinds : List Kind := [.keyword .kwElse, .symbol .rightBrace]

theorem closingKinds_subset : closingKinds ⊆ foreignKinds := by
  simp [closingKinds, foreignKinds]

theorem Raw.FunctionDerives.head_ne {f : Raw.Function} (h : Raw.FunctionDerives n ts f)
    (hk : k ∈ closingKinds) : ∀ t ∈ (ts ++ rest).head?, t.kind ≠ k := by
  cases h with
  | intro hn => exact head_ne_of_mem hn hk (by decide)

theorem Raw.DeclarationDerives.head_ne {s : Raw.Stmt} (h : Raw.DeclarationDerives n ts s)
    (hk : k ∈ closingKinds) : ∀ t ∈ (ts ++ rest).head?, t.kind ≠ k := by
  cases h with
  | klass ht | function ht => exact head_ne_of_mem ht hk (by decide)
  | var h =>
      obtain ⟨kw, us, rfl, ht⟩ := h.keyword
      exact head_ne_of_mem ht hk (by decide)
  | statement h => exact h.head_ne (closingKinds_subset hk)

theorem Raw.FunctionDerives.ne_nil {f : Raw.Function} (h : Raw.FunctionDerives n ts f) :
    ts ≠ [] := by
  cases h
  exact List.cons_ne_nil _ _

theorem Raw.DeclarationDerives.ne_nil {s : Raw.Stmt} (h : Raw.DeclarationDerives n ts s) :
    ts ≠ [] := by
  cases h with
  | klass | function => exact List.cons_ne_nil _ _
  | var h => cases h; exact List.cons_ne_nil _ _
  | statement h =>
      cases h with
      | expression h => cases h; simp
      | _ => exact List.cons_ne_nil _ _

end Lox.Grammar
