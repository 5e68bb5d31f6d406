import Lox.Proofs.Grammar.Follow
import Lox.Proofs.Grammar.Levels

/-!
How far a statement reaches can be told from the kinds of tokens alone, without a look inside its
expressions: up to a semicolon, or to the bracket that closes the one it starts with.
-/

namespace Lox.Grammar

def kinds (ts : List Token) : List Kind := ts.map Token.kind

@[simp] theorem kinds_nil : kinds [] = [] := rfl

@[simp] theorem kinds_cons (t : Token) (ts : List Token) : kinds (t :: ts) = t.kind :: kinds ts :=
  rfl

@[simp] theorem kinds_append (ts us : List Token) : kinds (ts ++ us) = kinds ts ++ kinds us :=
  List.map_append

/-! ### Brackets -/

/-- A bracket that opens, and the one that closes it. -/
inductive Bracket
  | paren
  | brace

namespace Bracket

def opening : Bracket → Kind
  | .paren => .symbol .leftParen
  | .brace => .symbol .leftBrace

def closing : Bracket → Kind
  | .paren => .symbol .rightParen
  | .brace => .symbol .rightBrace

/-- What stands behind the bracket that closes one that was opened, with that many open inside. -/
def behind (b : Bracket) : Nat → List Kind → List Kind
  | _, [] => []
  | depth, k :: ks =>
    if k = b.opening then b.behind (depth + 1) ks
    else if k = b.closing then
      match depth with
      | 0 => ks
      | depth + 1 => b.behind depth ks
    else b.behind depth ks

/-- Kinds of tokens that are passed over on the way to a closing bracket. -/
def Balanced (b : Bracket) (ks : List Kind) : Prop :=
  ∀ depth us, b.behind depth (ks ++ us) = b.behind depth us

/-- A kind that is no bracket of the sort. -/
def Blind (b : Bracket) (k : Kind) : Prop := k ≠ b.opening ∧ k ≠ b.closing

instance (b : Bracket) (k : Kind) : Decidable (b.Blind k) := inferInstanceAs (Decidable (_ ∧ _))

variable {b : Bracket} {k : Kind} {ks us : List Kind}

theorem closing_ne_opening (b : Bracket) : b.closing ≠ b.opening := by
  cases b <;> exact nofun

theorem behind_opening (b : Bracket) (depth : Nat) (ks : List Kind) :
    b.behind depth (b.opening :: ks) = b.behind (depth + 1) ks := by
  cases depth <;> rw [behind, if_pos rfl]

theorem behind_closing (b : Bracket) (ks : List Kind) : b.behind 0 (b.closing :: ks) = ks := by
  rw [behind, if_neg b.closing_ne_opening, if_pos rfl]

theorem behind_closing_succ (b : Bracket) (depth : Nat) (ks : List Kind) :
    b.behind (depth + 1) (b.closing :: ks) = b.behind depth ks := by
  rw [behind, if_neg b.closing_ne_opening, if_pos rfl]

theorem behind_blind (hk : b.Blind k) (depth : Nat) (ks : List Kind) :
    b.behind depth (k :: ks) = b.behind depth ks := by
  cases depth <;> rw [behind, if_neg hk.1, if_neg hk.2]

theorem Balanced.nil : b.Balanced [] := fun _ _ => rfl

theorem Balanced.append (hk : b.Balanced ks) (hu : b.Balanced us) : b.Balanced (ks ++ us) := by
  intro depth vs
  rw [List.append_assoc, hk, hu]

theorem Balanced.cons (hk : b.Blind k) (hu : b.Balanced us) : b.Balanced (k :: us) := by
  intro depth vs
  rw [List.cons_append, behind_blind hk, hu]

theorem Balanced.one (hk : b.Blind k) : b.Balanced [k] := .cons hk .nil

theorem Balanced.wrap (h : b.Balanced ks) : b.Balanced (b.opening :: (ks ++ [b.closing])) := by
  intro depth vs
  rw [List.cons_append, List.append_assoc, behind_opening, h, List.singleton_append,
    behind_closing_succ]

theorem Balanced.flatten {kss : List (List Kind)} (h : ∀ ks ∈ kss, b.Balanced ks) :
    b.Balanced kss.flatten := by
  induction kss with
  | nil => exact .nil
  | cons ks kss ih =>
      exact (h ks List.mem_cons_self).append (ih fun us hu => h us (List.mem_cons_of_mem ks hu))

/-- The closing bracket is the one behind what is passed over. -/
theorem Balanced.closed (h : b.Balanced ks) : b.behind 0 (ks ++ b.closing :: us) = us := by
  rw [h, behind_closing]

end Bracket

open Bracket (Balanced Blind)

variable {n : Nat} {ts : List Token}

theorem blind_of_ne {b : Bracket} {t : Token} {k : Kind} (ht : t.kind = k) (hk : b.Blind k) :
    b.Blind t.kind := by
  rwa [ht]

theorem blind_keyword (b : Bracket) (k : Keyword) : b.Blind (.keyword k) := by
  cases b <;> exact ⟨nofun, nofun⟩

theorem Denotes.blind {k : Kind} {l : Literal} (h : Denotes k l) (b : Bracket) : b.Blind k := by
  cases h <;> cases b <;> exact ⟨nofun, nofun⟩

theorem Binary.blind {c : Binary} {k : Kind} (h : k ∈ c.operators) (b : Bracket) : b.Blind k := by
  cases c <;>
    simp only [Binary.operators, List.mem_cons, List.not_mem_nil, or_false] at h <;>
    rcases h with rfl | rfl | rfl | rfl <;> cases b <;> decide

theorem Separated.balanced {b : Bracket} {parts : List (List Token)} (hs : Separated parts ts)
    (hp : ∀ p ∈ parts, b.Balanced (kinds p)) : b.Balanced (kinds ts) := by
  induction hs with
  | none => exact .nil
  | one ts => exact hp ts List.mem_cons_self
  | more hc _ ih =>
      rw [kinds_append, kinds_cons, hc]
      have hrest := ih fun p h => hp p (List.mem_cons_of_mem _ h)
      refine (hp _ List.mem_cons_self).append (.cons ?_ hrest)
      cases b <;> decide

/-- Parentheses around something that is balanced are balanced for every sort of bracket. -/
theorem balanced_parens {b : Bracket} {lparen rparen : Token}
    (hl : lparen.kind = .symbol .leftParen) (hr : rparen.kind = .symbol .rightParen)
    (h : b.Balanced (kinds ts)) :
    b.Balanced (kinds (lparen :: (ts ++ [rparen]))) := by
  rw [kinds_cons, kinds_append, kinds_cons, kinds_nil, hl, hr]
  cases b with
  | paren => exact h.wrap
  | brace => exact .cons (by decide) (h.append (.one (by decide)))

theorem Derives.balanced {f : Form} {e : Expr} (h : Derives n f ts e) (b : Bracket) :
    b.Balanced (kinds ts) := by
  induction h with
  | expression _ ih | alone _ _ ih => exact ih
  | assign id hn he _ ih =>
      rw [kinds_cons, kinds_cons, hn, he]
      cases b <;> exact .cons (by decide) (.cons (by decide) ih)
  | join _ ho _ ihl ihr =>
      rw [kinds_append, kinds_cons]
      exact ihl.append (.cons (Binary.blind ho b) ihr)
  | unary ho _ ih =>
      rw [kinds_cons]
      rcases ho with ho | ho <;> rw [ho] <;> cases b <;> exact .cons (by decide) ih
  | call _ hl hs _ _ hr ihc iha =>
      rw [kinds_append]
      refine ihc.append (balanced_parens hl hr (hs.balanced fun p hp => ?_))
      obtain ⟨a, ha, rfl⟩ := List.mem_map.mp hp
      exact iha a ha
  | literal h => exact .one (h.blind b)
  | read id hn =>
      rw [kinds_cons, hn]
      cases b <;> exact .one (by decide)
  | grouping hl _ hr ih => exact balanced_parens hl hr ih

/-! ### Semicolons -/

/-- Tokens among which there is no semicolon. -/
def Unended (ts : List Token) : Prop := ∀ t ∈ ts, t.kind ≠ .symbol .semicolon

theorem Unended.cons {t : Token} (ht : t.kind ≠ .symbol .semicolon) (h : Unended ts) :
    Unended (t :: ts) := by
  intro u hu
  rcases List.mem_cons.mp hu with rfl | hu
  · exact ht
  · exact h u hu

theorem Unended.append {us : List Token} (h : Unended ts) (hu : Unended us) :
    Unended (ts ++ us) := fun t ht => (List.mem_append.mp ht).elim (h t) (hu t)

theorem Unended.nil : Unended [] := nofun

theorem Separated.unended {parts : List (List Token)} (hs : Separated parts ts)
    (hp : ∀ p ∈ parts, Unended p) : Unended ts := by
  induction hs with
  | none => exact .nil
  | one ts => exact hp ts List.mem_cons_self
  | more hc _ ih =>
      exact (hp _ List.mem_cons_self).append
        (.cons (hc ▸ by decide) (ih fun p h => hp p (List.mem_cons_of_mem _ h)))

theorem Derives.unended {f : Form} {e : Expr} (h : Derives n f ts e) : Unended ts := by
  induction h with
  | expression _ ih | alone _ _ ih => exact ih
  | assign id hn he _ ih => exact .cons (hn ▸ by decide) (.cons (he ▸ by decide) ih)
  | @join _ _ _ _ _ b op _ ho _ ihl ihr =>
      refine ihl.append (.cons (fun hk => ?_) ihr)
      rw [hk] at ho
      cases b <;> simp [Binary.operators] at ho
  | unary ho _ ih => exact .cons (by rcases ho with ho | ho <;> rw [ho] <;> decide) ih
  | call _ hl hs _ _ hr ihc iha =>
      refine ihc.append (.cons (hl ▸ by decide) (.append (hs.unended fun p hp => ?_)
        (.cons (hr ▸ by decide) .nil)))
      obtain ⟨a, ha, rfl⟩ := List.mem_map.mp hp
      exact iha a ha
  | literal h => exact .cons (fun hk => by rw [hk] at h; cases h) .nil
  | read id hn => exact .cons (hn ▸ by decide) .nil
  | grouping hl _ hr ih =>
      exact .cons (hl ▸ by decide) (ih.append (.cons (hr ▸ by decide) .nil))

/-- What stands behind the first semicolon. -/
def pastSemicolon (ks : List Kind) : List Kind := (ks.dropWhile (· ≠ .symbol .semicolon)).drop 1

theorem pastSemicolon_eq {semicolon : Token} {us : List Kind} (h : Unended ts)
    (hs : semicolon.kind = .symbol .semicolon) :
    pastSemicolon (kinds (ts ++ [semicolon]) ++ us) = us := by
  have hk : ∀ k ∈ kinds ts, decide (k ≠ .symbol .semicolon) = true := by
    intro k hk
    obtain ⟨t, ht, rfl⟩ := List.mem_map.mp hk
    exact decide_eq_true (h t ht)
  rw [pastSemicolon, kinds_append, List.append_assoc, List.dropWhile_append_of_pos hk, kinds_cons,
    hs]
  rfl

/-! ### Statements -/

theorem Optionally.balanced {e : Option Expr} (b : Bracket) :
    Optionally n ts e → b.Balanced (kinds ts)
  | .none => .nil
  | .some h => h.balanced b

theorem Optionally.unended {e : Option Expr} : Optionally n ts e → Unended ts
  | .none => .nil
  | .some h => h.unended

/-- A statement without statements inside ends at its only semicolon. -/
structure Ends (ts : List Token) : Prop where
  balanced : ∀ b : Bracket, b.Balanced (kinds ts)
  past : ∀ us, pastSemicolon (kinds ts ++ us) = us

theorem Ends.of_unended {semicolon : Token} (hb : ∀ b : Bracket, b.Balanced (kinds ts))
    (h : Unended ts) (hs : semicolon.kind = .symbol .semicolon) : Ends (ts ++ [semicolon]) where
  balanced b := by
    rw [kinds_append, kinds_cons, hs]
    refine (hb b).append (.one ?_)
    cases b <;> decide
  past us := pastSemicolon_eq h hs

theorem ExpressionDerives.ends {s : Stmt} : ExpressionDerives n ts s → Ends ts
  | .intro h hs => .of_unended h.balanced h.unended hs

/-- The same with a keyword in front. -/
theorem Ends.keyword {kw semicolon : Token} {k : Keyword} (hk : kw.kind = .keyword k)
    (hb : ∀ b : Bracket, b.Balanced (kinds ts)) (h : Unended ts)
    (hs : semicolon.kind = .symbol .semicolon) : Ends (kw :: (ts ++ [semicolon])) := by
  refine @Ends.of_unended (kw :: ts) semicolon (fun b => ?_) (.cons (hk ▸ nofun) h) hs
  rw [kinds_cons, hk]
  exact .cons (blind_keyword b k) (hb b)

theorem VarDerives.ends {s : Stmt} (h : VarDerives n ts s) : Ends ts := by
  cases h with
  | @intro ts initial kw name semicolon hk hn hi hs =>
  have hinitial : Unended ts ∧ ∀ b : Bracket, b.Balanced (kinds ts) := by
    cases hi with
    | none => exact ⟨.nil, fun _ => .nil⟩
    | some he h =>
        refine ⟨.cons (he ▸ by decide) h.unended, fun b => ?_⟩
        rw [kinds_cons, he]
        cases b <;> exact .cons (by decide) (h.balanced _)
  refine @Ends.keyword (name :: ts) _ _ _ hk (fun b => ?_) (.cons (hn ▸ by decide) hinitial.1) hs
  rw [kinds_cons, hn]
  cases b <;> exact .cons (by decide) (hinitial.2 _)

theorem ClauseDerives.ends {s : Option Stmt} : ClauseDerives n ts s → Ends ts
  | .none hs => @Ends.of_unended [] _ (fun _ => .nil) .nil hs
  | .var h => h.ends
  | .expression h => h.ends

theorem balanced_clauses {k m : Nat} {us vs : List Token} {initial : Option Stmt}
    {condition increment : Option Expr} {semicolon : Token} (hi : ClauseDerives n ts initial)
    (hc : Optionally k us condition) (hs : semicolon.kind = .symbol .semicolon)
    (hn : Optionally m vs increment) (b : Bracket) :
    b.Balanced (kinds (ts ++ (us ++ semicolon :: vs))) := by
  rw [kinds_append, kinds_append, kinds_cons, hs]
  refine (hi.ends.balanced b).append ((hc.balanced b).append (.cons ?_ (hn.balanced b)))
  cases b <;> decide

/-- What stands between a keyword and the statement that belongs to it. -/
theorem balanced_head {b : Bracket} {kw lparen rparen : Token} {k : Keyword}
    (hk : kw.kind = .keyword k) (hl : lparen.kind = .symbol .leftParen)
    (hr : rparen.kind = .symbol .rightParen) (h : b.Balanced (kinds ts)) {us : List Token}
    (hu : b.Balanced (kinds us)) : b.Balanced (kinds (kw :: lparen :: (ts ++ rparen :: us))) := by
  have hsplit : kw :: lparen :: (ts ++ rparen :: us) =
      kw :: (lparen :: (ts ++ [rparen]) ++ us) := by simp
  rw [hsplit, kinds_cons, kinds_append, hk]
  exact .cons (blind_keyword b k) ((balanced_parens hl hr h).append hu)

mutual

theorem StatementDerives.balanced : {n : Nat} → {o : Bool} → {ts : List Token} → {s : Stmt} →
    StatementDerives n o ts s → Bracket.brace.Balanced (kinds ts)
  | _, _, _, _, .expression h => h.ends.balanced .brace
  | _, _, _, _, .print hk h hs => (Ends.keyword hk h.balanced h.unended hs).balanced .brace
  | _, _, _, _, .returning hk h hs =>
      (Ends.keyword hk (fun b => h.balanced b) h.unended hs).balanced .brace
  | _, _, _, _, .block hl h => by
      obtain ⟨ks, hks, hb⟩ := h.balanced
      rw [kinds_cons, hl, hks]
      exact hb.wrap
  | _, _, _, _, .conditional hk hl hc hr hy =>
      balanced_head hk hl hr (hc.balanced .brace) hy.balanced
  | _, _, _, _, .alternative hk hl hc hr hy ho hn => by
      refine balanced_head hk hl hr (hc.balanced .brace) ?_
      rw [kinds_append, kinds_cons, ho]
      exact hy.balanced.append (.cons (by decide) hn.balanced)
  | _, _, _, _, .whileLoop hk hl hc hr hb =>
      balanced_head hk hl hr (hc.balanced .brace) hb.balanced
  | _, _, _, _, .forLoop hk hl hi hc hs hn hr hb => by
      simpa using balanced_head hk hl hr (balanced_clauses hi hc hs hn .brace) hb.balanced

/-- A block is what is balanced, with the closing brace behind it. -/
theorem BlockDerives.balanced : {n : Nat} → {ts : List Token} → {body : List Stmt} →
    BlockDerives n ts body →
    ∃ ks, kinds ts = ks ++ [.symbol .rightBrace] ∧ Bracket.brace.Balanced ks
  | _, _, _, @BlockDerives.intro n parts _ hp hr => by
      refine ⟨kinds (parts.map Prod.fst).flatten, by rw [kinds_append, kinds_cons, hr]; rfl, ?_⟩
      rw [kinds, List.map_flatten]
      refine .flatten fun ks hks => ?_
      simp only [List.map_map, List.mem_map, Function.comp_apply] at hks
      obtain ⟨p, hp', rfl⟩ := hks
      exact (hp p hp').balanced

theorem FunctionDerives.balanced : {n : Nat} → {ts : List Token} → {f : Function} →
    FunctionDerives n ts f → Bracket.brace.Balanced (kinds ts)
  | _, _, _, @FunctionDerives.intro _ ts us params _ name lparen rparen lbrace hn hl hs hp hm hr hb
      h => by
      obtain ⟨ks, hks, hbody⟩ := h.balanced
      have hparams : Bracket.brace.Balanced (kinds ts) := hs.balanced fun p hp' => by
        obtain ⟨q, hq, rfl⟩ := List.mem_map.mp hp'
        exact .one (blind_of_ne (hp q hq) (by decide))
      have hsplit : name :: lparen :: (ts ++ rparen :: lbrace :: us) =
          name :: (lparen :: (ts ++ [rparen]) ++ lbrace :: us) := by simp
      rw [hsplit, kinds_cons, kinds_append, kinds_cons lbrace, hb, hks]
      exact .cons (blind_of_ne hn (by decide))
        ((balanced_parens hl hr hparams).append hbody.wrap)

theorem DeclarationDerives.balanced : {n : Nat} → {ts : List Token} → {s : Stmt} →
    DeclarationDerives n ts s → Bracket.brace.Balanced (kinds ts)
  | _, _, _, @DeclarationDerives.klass n methods kw name lbrace rbrace hk hn hl hm hr => by
      have hmethods : Bracket.brace.Balanced (kinds (methods.map Prod.fst).flatten) := by
        rw [kinds, List.map_flatten]
        refine .flatten fun ks hks => ?_
        simp only [List.map_map, List.mem_map, Function.comp_apply] at hks
        obtain ⟨m, hm', rfl⟩ := hks
        exact (hm m hm').balanced
      rw [kinds_cons, kinds_cons, kinds_cons, kinds_append, kinds_cons, hl, hr]
      exact .cons (blind_of_ne hk (by decide))
        (.cons (blind_of_ne hn (by decide)) hmethods.wrap)
  | _, _, _, .function hk h => .cons (blind_of_ne hk (by decide)) h.balanced
  | _, _, _, .var h => h.ends.balanced .brace
  | _, _, _, .statement h => h.balanced

end

/-! ### How far a statement reaches -/

/-- What stands behind a statement, with an `else` taken to belong to the nearest `if`. The bound is
on the statements inside one another. -/
def pastStatement : (bound : Nat) → List Kind → List Kind
  | 0, ks => ks
  | _ + 1, [] => []
  | bound + 1, k :: ks =>
    match k with
    | .symbol .leftBrace => Bracket.brace.behind 0 ks
    | .keyword .kwWhile | .keyword .kwFor => pastStatement bound (Bracket.paren.behind 0 ks.tail)
    | .keyword .kwIf =>
      match pastStatement bound (Bracket.paren.behind 0 ks.tail) with
      | .keyword .kwElse :: us => pastStatement bound us
      | us => us
    | _ => pastSemicolon (k :: ks)

/-- The kinds behind a statement that an `else` could belong to. -/
def NoElseKind (ks : List Kind) : Prop := ∀ k ∈ ks.head?, k ≠ .keyword .kwElse

/-- The parentheses behind a keyword are passed over. -/
theorem past_head {lparen rparen : Token}
    (hr : rparen.kind = .symbol .rightParen) (h : Bracket.paren.Balanced (kinds ts))
    (us : List Token) (ks : List Kind) :
    Bracket.paren.behind 0 (kinds (lparen :: (ts ++ rparen :: us)) ++ ks).tail =
      kinds us ++ ks := by
  simp only [kinds_cons, kinds_append, List.cons_append, List.tail_cons, List.append_assoc, hr]
  exact h.closed

/-- The kinds of tokens that statements with something inside start with. -/
def headKinds : List Kind :=
  [.symbol .leftBrace, .keyword .kwWhile, .keyword .kwFor, .keyword .kwIf]

theorem headKinds_subset : headKinds ⊆ otherKinds := by
  simp [headKinds, otherKinds]

theorem pastStatement_eq {k : Kind} (hk : k ∉ headKinds) (bound : Nat) (ks : List Kind) :
    pastStatement (bound + 1) (k :: ks) = pastSemicolon (k :: ks) := by
  simp only [headKinds, List.mem_cons, List.not_mem_nil, or_false, not_or] at hk
  rw [pastStatement]
  · exact hk.1
  · exact hk.2.1
  · exact hk.2.2.1
  · exact hk.2.2.2

theorem ExpressionDerives.past {s : Stmt} (h : ExpressionDerives n ts s) (bound : Nat)
    (ks : List Kind) : pastStatement (bound + 1) (kinds ts ++ ks) = ks := by
  have hpast := h.ends.past ks
  obtain ⟨r, hr, -⟩ := h.raw
  have hne : ts ≠ [] := by
    cases h
    simp
  obtain ⟨t, us, rfl⟩ := List.exists_cons_of_ne_nil hne
  have hhead (hk : t.kind ∈ headKinds) : ∀ u ∈ (t :: us ++ []).head?, u.kind ≠ t.kind :=
    hr.head_ne (headKinds_subset hk)
  rw [kinds_cons, List.cons_append] at hpast ⊢
  rwa [pastStatement_eq fun hk => hhead hk t rfl rfl]

/-- A statement reaches up to what stands behind it. -/
theorem StatementDerives.past : {n : Nat} → {o : Bool} → {ts : List Token} → {s : Stmt} →
    {ks : List Kind} → StatementDerives n o ts s → (o = true → NoElseKind ks) →
    pastStatement n (kinds ts ++ ks) = ks
  | _, _, _, _, ks, .expression h, _ => h.past _ ks
  | _, _, _, _, ks, .print hk h hs, _ => by
      rw [kinds_cons, List.cons_append, pastStatement_eq (hk ▸ by decide)]
      exact (Ends.keyword hk h.balanced h.unended hs).past ks
  | _, _, _, _, ks, .returning hk h hs, _ => by
      rw [kinds_cons, List.cons_append, pastStatement_eq (hk ▸ by decide)]
      exact (Ends.keyword hk (fun b => h.balanced b) h.unended hs).past ks
  | _, _, _, _, ks, .block hl h, _ => by
      obtain ⟨body, hbody, hb⟩ := h.balanced
      rw [kinds_cons, hl, hbody, List.cons_append, List.append_assoc]
      exact hb.closed
  | _, _, _, _, ks, .conditional hk hl hc hr hy, hks => by
      rw [kinds_cons, hk, List.cons_append, pastStatement, past_head hr (hc.balanced .paren),
        hy.past fun _ => hks rfl]
      split
      · exact absurd rfl (hks rfl _ rfl)
      · rfl
  | _, _, _, _, ks, .alternative hk hl hc hr hy ho hn, hks => by
      rw [kinds_cons, hk, List.cons_append, pastStatement, past_head hr (hc.balanced .paren),
        kinds_append, kinds_cons, ho, List.append_assoc, hy.past (fun h => nomatch h)]
      exact hn.past hks
  | _, _, _, _, ks, .whileLoop hk hl hc hr hb, hks => by
      rw [kinds_cons, hk, List.cons_append, pastStatement, past_head hr (hc.balanced .paren)]
      exact hb.past hks
  | _, _, _, _, ks, @StatementDerives.forLoop n o ts us vs ws _ _ _ _ kw lparen semicolon rparen hk
      hl hi hc hs hn hr hb, hks => by
      have hsplit : ts ++ (us ++ semicolon :: (vs ++ rparen :: ws)) =
          (ts ++ (us ++ semicolon :: vs)) ++ rparen :: ws := by simp
      rw [hsplit, kinds_cons, hk, List.cons_append, pastStatement,
        past_head hr (balanced_clauses hi hc hs hn .paren)]
      exact hb.past hks

/-- A statement or a declaration of a variable reaches up to what stands behind it. -/
def Reaches (ts : List Token) (ks : List Kind) : Prop :=
  ∃ least, ∀ bound, least ≤ bound → pastStatement bound (kinds ts ++ ks) = ks

theorem StatementDerives.reaches {o : Bool} {s : Stmt} {ks : List Kind}
    (h : StatementDerives n o ts s) (ho : o = true → NoElseKind ks) : Reaches ts ks :=
  ⟨n, fun _ hn => (h.mono hn).past ho⟩

theorem VarDerives.reaches {s : Stmt} (h : VarDerives n ts s) (ks : List Kind) : Reaches ts ks := by
  refine ⟨1, fun bound hb => ?_⟩
  obtain ⟨bound, rfl⟩ := Nat.exists_eq_add_of_le hb
  have hpast := h.ends.past ks
  cases h with
  | intro hk =>
      rw [kinds_cons, List.cons_append] at hpast ⊢
      rwa [Nat.add_comm, pastStatement_eq (hk ▸ by decide)]

/-! ### Where tokens are cut -/

theorem append_inj_of_kinds {us xs ys : List Token} (heq : ts ++ xs = us ++ ys)
    (h : kinds xs = kinds ys) : ts = us ∧ xs = ys := by
  refine List.append_inj' heq ?_
  simpa only [kinds, List.length_map] using congrArg List.length h

/-- There is one way only to cut tokens behind a statement. -/
theorem Reaches.unique {us xs ys : List Token} (h : Reaches ts (kinds xs))
    (h' : Reaches us (kinds ys)) (heq : ts ++ xs = us ++ ys) : ts = us ∧ xs = ys := by
  obtain ⟨n, hn⟩ := h
  obtain ⟨m, hm⟩ := h'
  refine append_inj_of_kinds heq ?_
  rw [← hn (n + m) (Nat.le_add_right n m), ← kinds_append, heq, kinds_append,
    hm (n + m) (Nat.le_add_left m n)]

/-- Nor is there more than one to cut them behind a semicolon, -/
theorem Ends.unique {us xs ys : List Token} (h : Ends ts) (h' : Ends us)
    (heq : ts ++ xs = us ++ ys) : ts = us ∧ xs = ys := by
  refine append_inj_of_kinds heq ?_
  rw [← h.past (kinds xs), ← kinds_append, heq, kinds_append, h'.past]

/-- or at a closing bracket. -/
theorem Bracket.Balanced.unique {b : Bracket} {us xs ys : List Token} {r r' : Token}
    (h : b.Balanced (kinds ts)) (h' : b.Balanced (kinds us)) (hr : r.kind = b.closing)
    (hr' : r'.kind = b.closing) (heq : ts ++ r :: xs = us ++ r' :: ys) :
    ts = us ∧ r = r' ∧ xs = ys := by
  have hbehind : kinds (r :: xs) = kinds (r' :: ys) := by
    have hkinds : kinds ts ++ b.closing :: kinds xs = kinds us ++ b.closing :: kinds ys := by
      rw [← hr, ← kinds_cons, ← kinds_append, heq, kinds_append, kinds_cons, hr, hr']
    have hclosed : b.behind 0 (kinds ts ++ b.closing :: kinds xs) = kinds ys := hkinds ▸ h'.closed
    rw [kinds_cons, kinds_cons, hr, hr', h.closed.symm.trans hclosed]
  obtain ⟨hts, hrs⟩ := append_inj_of_kinds heq hbehind
  exact ⟨hts, List.cons_eq_cons.mp hrs⟩

end Lox.Grammar
