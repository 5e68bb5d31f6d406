import Lox.Proofs.Grammar.SoftFaults

/-!
How high the trees of programs without a fault can be. What may be opened inside each other is
limited, and so is the height of a tree, except along the left operands of operators and the callees
of calls: those are joined one after the other, and nothing is opened for them.
-/

namespace Lox

mutual

/-- The nodes on the longest way down an expression. A step to a left operand or to a callee counts
for `left` nodes, every other step for one. -/
def Expr.height (left : Nat) : Expr → Nat
  | .literal _ => 1
  | .grouping e => e.height left + 1
  | .unary _ e => e.height left + 1
  | .binary l _ r => max (l.height left + left) (r.height left + 1)
  | .logical l _ r => max (l.height left + left) (r.height left + 1)
  | .read .. => 1
  | .assign _ _ e => e.height left + 1
  | .call callee _ args => max (callee.height left + left) (Expr.listHeight left args + 1)

/-- The height of the highest of the expressions. -/
def Expr.listHeight (left : Nat) : List Expr → Nat
  | [] => 0
  | e :: es => max (e.height left) (Expr.listHeight left es)

end

mutual

def Stmt.height (left : Nat) : Stmt → Nat
  | .expression e => e.height left + 1
  | .print e => e.height left + 1
  | .var _ none => 1
  | .var _ (some e) => e.height left + 1
  | .block body => Stmt.listHeight left body + 1
  | .conditional c yes none => max (c.height left) (yes.height left) + 1
  | .conditional c yes (some no) => max (c.height left) (max (yes.height left) (no.height left)) + 1
  | .whileLoop c body => max (c.height left) (body.height left) + 1
  | .function f => Stmt.functionHeight left f
  | .returning _ none => 1
  | .returning _ (some e) => e.height left + 1
  | .classDecl _ methods => Stmt.methodsHeight left methods + 1

def Stmt.listHeight (left : Nat) : List Stmt → Nat
  | [] => 0
  | s :: ss => max (s.height left) (Stmt.listHeight left ss)

def Stmt.functionHeight (left : Nat) : Function → Nat
  | ⟨_, _, body⟩ => Stmt.listHeight left body + 1

def Stmt.methodsHeight (left : Nat) : List Function → Nat
  | [] => 0
  | f :: fs => max (Stmt.functionHeight left f) (Stmt.methodsHeight left fs)

end

variable {left k : Nat}

theorem Expr.listHeight_le_iff {es : List Expr} :
    Expr.listHeight left es ≤ k ↔ ∀ e ∈ es, e.height left ≤ k := by
  induction es with
  | nil => simp [Expr.listHeight]
  | cons e es ih => rw [Expr.listHeight, Nat.max_le, ih, List.forall_mem_cons]

theorem Stmt.listHeight_le_iff {ss : List Stmt} :
    Stmt.listHeight left ss ≤ k ↔ ∀ s ∈ ss, s.height left ≤ k := by
  induction ss with
  | nil => simp [Stmt.listHeight]
  | cons s ss ih => rw [Stmt.listHeight, Nat.max_le, ih, List.forall_mem_cons]

theorem Stmt.methodsHeight_le_iff {fs : List Function} :
    Stmt.methodsHeight left fs ≤ k ↔ ∀ f ∈ fs, Stmt.functionHeight left f ≤ k := by
  induction fs with
  | nil => simp [Stmt.methodsHeight]
  | cons f fs ih => rw [Stmt.methodsHeight, Nat.max_le, ih, List.forall_mem_cons]

namespace Grammar

/-! ### Nesting -/

/-- How many nodes may stand above each other in a form until something has to be opened. -/
def Form.rank : Form → Nat
  | .expression => 0
  | .assignment | .binary .disjunction => 7
  | .binary .conjunction => 6
  | .binary .equality => 5
  | .binary .comparison => 4
  | .binary .term => 3
  | .binary .factor => 2
  | .unary | .call | .primary => 1

theorem rank_le_of_tighter {f g : Form} (h : f.tighter? = some g) : g.rank ≤ f.rank := by
  cases f with
  | expression | primary => cases h
  | assignment | unary | call => cases h; decide
  | binary b => cases h; cases b <;> decide

theorem rank_operand (b : Binary) : b.operand.rank + 1 = (Form.binary b).rank := by
  cases b <;> rfl

theorem height_join (b : Binary) (l r : Expr) (op : Token) :
    (b.join l op r).height left = max (l.height left + left) (r.height left + 1) := by
  cases b <;> rfl

variable {n : Nat} {ts : List Token}

/-- Each level has room for as many nodes as there are forms that can be made of parts. -/
theorem Derives.height_le {f : Form} {e : Expr} (h : Derives n f ts e) :
    e.height 0 ≤ 7 * n + f.rank := by
  induction h with
  | expression h ih =>
      simp only [Form.rank] at ih ⊢
      omega
  | assign id hn he h ih =>
      rw [Expr.height]
      simp only [Form.rank] at ih ⊢
      omega
  | @join n _ _ _ _ b op hl ho hr ihl ihr =>
      -- the right side is of a tighter form; the left one may be of the same and counts for nothing
      have hrank := rank_operand b
      rw [height_join]
      omega
  | unary ho h ih =>
      rw [Expr.height]
      simp only [Form.rank] at ih ⊢
      omega
  | call hc hl hs ha hm hr ihc iha =>
      rw [Expr.height]
      refine Nat.max_le.mpr ⟨ihc, Nat.succ_le_succ (Expr.listHeight_le_iff.mpr fun e he => ?_)⟩
      obtain ⟨a, ha', rfl⟩ := List.mem_map.mp he
      exact iha a ha'
  | alone hf h ih =>
      have hrank := rank_le_of_tighter hf
      omega
  | literal h | read id hn =>
      simp only [Expr.height, Form.rank]
      omega
  | grouping hl h hr ih =>
      rw [Expr.height]
      exact Nat.succ_le_succ ih

theorem Optionally.height_le {o : Option Expr} (h : Optionally n ts o) :
    ∀ e ∈ o, e.height 0 ≤ 7 * n := by
  cases h with
  | none => nofun
  | some h => rintro _ ⟨⟩; exact h.height_le

theorem Optionally.getD_height_le {o : Option Expr} (h : Optionally n ts o) :
    (o.getD (.literal (.boolean true))).height 0 ≤ 7 * n + 2 := by
  cases o with
  | none => exact Nat.le_add_left 1 (7 * n + 1)
  | some e => exact Nat.le_add_right_of_le (h.height_le e rfl)

theorem VarDerives.height_le {s : Stmt} (h : VarDerives n ts s) : s.height 0 ≤ 7 * n + 1 := by
  obtain ⟨-, -, hi, -⟩ := h
  cases hi with
  | none => exact Nat.le_add_left _ _
  | some he h => exact Nat.succ_le_succ h.height_le

theorem ExpressionDerives.height_le {s : Stmt} (h : ExpressionDerives n ts s) :
    s.height 0 ≤ 7 * n + 1 := by
  obtain ⟨h, -⟩ := h
  exact Nat.succ_le_succ h.height_le

theorem ClauseDerives.height_le {initial : Option Stmt} (h : ClauseDerives n ts initial) :
    ∀ s ∈ initial, s.height 0 ≤ 7 * n + 1 := by
  cases h with
  | none => nofun
  | var h => rintro _ ⟨⟩; exact h.height_le
  | expression h => rintro _ ⟨⟩; exact h.height_le

theorem height_returning {keyword : Token} {value : Option Expr} (h : ∀ e ∈ value, e.height 0 ≤ k) :
    (Stmt.returning keyword value).height 0 ≤ k + 1 := by
  cases value with
  | none => exact Nat.le_add_left _ _
  | some e => exact Nat.succ_le_succ (h e rfl)

theorem height_whileLoop {c : Expr} {body : Stmt} (hc : c.height 0 ≤ k) (hb : body.height 0 ≤ k) :
    (Stmt.whileLoop c body).height 0 ≤ k + 1 := Nat.succ_le_succ (Nat.max_le.mpr ⟨hc, hb⟩)

theorem height_withIncrement {body : Stmt} {increment : Option Expr}
    (hb : body.height 0 ≤ k) (hi : ∀ e ∈ increment, e.height 0 + 1 ≤ k) :
    (withIncrement body increment).height 0 ≤ k + 1 := by
  cases increment with
  | none => exact Nat.le_succ_of_le hb
  | some e =>
      simp only [withIncrement, Stmt.height, Stmt.listHeight]
      have he := hi e rfl
      omega

theorem height_withInitial {loop : Stmt} {initial : Option Stmt} (hl : loop.height 0 ≤ k)
    (hi : ∀ s ∈ initial, s.height 0 ≤ k) : (withInitial loop initial).height 0 ≤ k + 1 := by
  cases initial with
  | none => exact Nat.le_succ_of_le hl
  | some s =>
      simp only [withInitial, Stmt.height, Stmt.listHeight]
      have hs := hi s rfl
      omega

mutual

theorem StatementDerives.height_le {n : Nat} {o : Bool} {ts : List Token} {s : Stmt} :
    StatementDerives n o ts s → s.height 0 ≤ 7 * n + 1
  | .expression h => Nat.le_trans h.height_le (by omega)
  | .print _ h _ => by
      have he := h.height_le
      rw [Stmt.height]
      rw [Form.rank] at he
      omega
  | .returning _ h _ => Nat.le_trans (height_returning h.height_le) (by omega)
  | .block _ h => by
      have hb := h.height_le
      rw [Stmt.height]
      omega
  | .conditional _ _ hc _ hy => by
      have hc := hc.height_le
      have hy := hy.height_le
      rw [Form.rank] at hc
      rw [Stmt.height]
      omega
  | .alternative _ _ hc _ hy _ hn => by
      have hc := hc.height_le
      have hy := hy.height_le
      have hn := hn.height_le
      rw [Form.rank] at hc
      rw [Stmt.height]
      omega
  | .whileLoop _ _ hc _ hb => by
      have hc := hc.height_le
      have hb := hb.height_le
      rw [Form.rank] at hc
      rw [Stmt.height]
      omega
  | .forLoop _ _ hi hc _ hn _ hb => by
      have hbody := height_withIncrement hb.height_le fun e he =>
        Nat.succ_le_succ (hn.height_le e he)
      have hloop := height_whileLoop hc.getD_height_le hbody
      refine Nat.le_trans (height_withInitial hloop fun s hs => ?_) (by omega)
      exact Nat.le_trans (hi.height_le s hs) (by omega)

/-- A block opens itself before its statements are opened. -/
theorem BlockDerives.height_le {n : Nat} {ts : List Token} {body : List Stmt} :
    BlockDerives n ts body → Stmt.listHeight 0 body + 6 ≤ 7 * n
  | .intro hp _ => by
      refine Nat.add_le_of_le_sub (by omega) (Stmt.listHeight_le_iff.mpr fun s hs => ?_)
      obtain ⟨p, hp', rfl⟩ := List.mem_map.mp hs
      exact Nat.le_trans (hp p hp').height_le (by omega)

theorem FunctionDerives.height_le {n : Nat} {ts : List Token} {f : Function} :
    FunctionDerives n ts f → Stmt.functionHeight 0 f ≤ 7 * n
  | .intro _ _ _ _ _ _ _ h => by
      have hb := h.height_le
      rw [Stmt.functionHeight]
      omega

theorem DeclarationDerives.height_le {n : Nat} {ts : List Token} {s : Stmt} :
    DeclarationDerives n ts s → s.height 0 ≤ 7 * n + 1
  | .klass _ _ _ hm _ => by
      refine Nat.succ_le_succ (Stmt.methodsHeight_le_iff.mpr fun f hf => ?_)
      obtain ⟨m, hm', rfl⟩ := List.mem_map.mp hf
      exact (hm m hm').height_le
  | .function _ h => Nat.le_succ_of_le h.height_le
  | .var h => h.height_le
  | .statement h => h.height_le

end

/-- **Bounded nesting.** In the statements of a program without a fault there are at most so many
nodes on a way down, not counting steps to left operands and to callees. -/
theorem height_le_of_faultless {tokens : List Token} {firstId : Nat} {p : Program}
    (hp : Program.ofTokens? tokens firstId = some p) (hf : p.faults = []) :
    ∀ s ∈ p.statements, s.height 0 ≤ 7 * maxDepth + 1 := by
  intro s hs
  obtain ⟨parts, hparts, -, hbody⟩ := derives_of_ofTokens? hp hf
  rw [hbody] at hs
  obtain ⟨part, hpart, rfl⟩ := List.mem_map.mp hs
  exact (hparts part hpart).height_le

/-! ### Long sums -/

def plusToken : Token := ⟨.symbol .plus, "+", 1⟩

/-- `nil` and that many times `+ nil`. -/
def sumTokens : Nat → List Token
  | 0 => [nilToken]
  | k + 1 => sumTokens k ++ [plusToken, nilToken]

def sum : Nat → Expr
  | 0 => .literal .nil
  | k + 1 => .binary (sum k) plusToken (.literal .nil)

theorem nil_derives (n : Nat) : Derives n (.binary .factor) [nilToken] (.literal .nil) :=
  .alone rfl (.alone rfl (.alone rfl (.literal .nil)))

theorem sum_derives (n k : Nat) : Derives n (.binary .term) (sumTokens k) (sum k) := by
  induction k with
  | zero => exact .alone rfl (nil_derives n)
  | succ k ih => exact .join (b := .term) ih (.tail _ (.head _)) (nil_derives n)

theorem sum_statement_derives (k : Nat) :
    ProgramDerives maxDepth (sumTokens k ++ [semicolonToken]) [.expression (sum k)] := by
  have hassignment : Derives 254 .assignment (sumTokens k) (sum k) :=
    .alone rfl (.alone rfl (.alone rfl (.alone rfl (.alone rfl (sum_derives 254 k)))))
  have hd : DeclarationDerives maxDepth (sumTokens k ++ [semicolonToken]) (.expression (sum k)) :=
    .statement (.expression (.intro (.expression hassignment) rfl))
  exact ⟨[(_, _)], List.forall_mem_singleton.mpr hd, (List.append_nil _).symm, rfl⟩

theorem sumTokens_ne_eof {k : Nat} {t : Token} (ht : t ∈ sumTokens k) : t.kind ≠ .eof := by
  induction k with
  | zero =>
      rw [List.mem_singleton.mp ht]
      decide
  | succ k ih =>
      rcases List.mem_append.mp ht with ht | ht
      · exact ih ht
      · have hmore : ∀ t ∈ [plusToken, nilToken], t.kind ≠ .eof := by decide
        exact hmore t ht

theorem unnumbered_sum (k : Nat) : (sum k).unnumbered = sum k := by
  induction k with
  | zero => rfl
  | succ k ih => rw [sum, Expr.unnumbered, ih, Expr.unnumbered]

theorem lt_height_of_unnumbered {e : Expr} (h : e.unnumbered = sum k) : k < e.height 1 := by
  induction k generalizing e with
  | zero =>
      cases Expr.of_unnumbered h
      exact Nat.one_pos
  | succ k ih =>
      obtain ⟨l, r, rfl, hl, -⟩ := Expr.of_unnumbered h
      exact Nat.lt_of_lt_of_le (Nat.succ_lt_succ (ih hl)) (Nat.le_max_left _ _)

/-- A sum is read without a fault, however long it is, as a tree that is higher than it is long. -/
theorem sum_read (firstId k : Nat) :
    ∃ p, Program.ofTokens? (sumTokens k ++ [semicolonToken]) firstId = some p ∧ p.faults = [] ∧
      ∃ s, p.statements = [s] ∧ k < s.height 1 := by
  have hend : upToEnd (sumTokens k ++ [semicolonToken]) = sumTokens k ++ [semicolonToken] := by
    rw [upToEnd_append fun t ht => sumTokens_ne_eof ht]
    rfl
  obtain ⟨p, hp, hf, hb⟩ := ofTokens?_of_derives firstId (hend.symm ▸ sum_statement_derives k)
  rw [Stmt.listUnnumbered_eq_map, Stmt.listUnnumbered_eq_map, List.map_singleton,
    Stmt.unnumbered, unnumbered_sum] at hb
  obtain ⟨s, hs, hu⟩ := List.map_eq_singleton_iff.mp hb
  obtain ⟨e, rfl, he⟩ := Stmt.of_unnumbered hu
  exact ⟨p, hp, hf, _, hs, Nat.lt_succ_of_lt (lt_height_of_unnumbered he)⟩

/-- The tree of a long sum is higher than that, but only by steps to left operands. -/
theorem sum_nested_flat :
    ∃ p, Program.ofTokens? (sumTokens 2000 ++ [semicolonToken]) 0 = some p ∧ p.faults = [] ∧
      ∃ s, p.statements = [s] ∧ 2000 < s.height 1 ∧ s.height 0 ≤ 7 * maxDepth + 1 := by
  obtain ⟨p, hp, hf, s, hs, hheight⟩ := sum_read 0 2000
  refine ⟨p, hp, hf, s, hs, hheight, height_le_of_faultless hp hf s ?_⟩
  rw [hs]
  exact List.mem_singleton_self s

/-- No bound holds for the number of all nodes on a way down. -/
theorem height_unbounded : ¬∃ bound, ∀ (tokens : List Token) (firstId : Nat) (p : Program),
    Program.ofTokens? tokens firstId = some p → p.faults = [] →
      ∀ s ∈ p.statements, s.height 1 ≤ bound := by
  rintro ⟨bound, h⟩
  obtain ⟨p, hp, hf, s, hs, hheight⟩ := sum_read 0 bound
  have hle := h _ _ p hp hf s (hs ▸ List.mem_singleton_self s)
  exact Nat.not_lt.mpr hle hheight

end Grammar

end Lox
