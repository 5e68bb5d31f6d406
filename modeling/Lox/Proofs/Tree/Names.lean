import Lox.Proofs.Grammar.Derivation

/-!
The names in a tree. Each of them is one of the tokens that the tree derives from.
-/

namespace Lox

mutual

def Expr.names : Expr → List Token
  | .literal _ => []
  | .grouping e => e.names
  | .unary _ e => e.names
  | .binary l _ r => l.names ++ r.names
  | .logical l _ r => l.names ++ r.names
  | .read _ name => [name]
  | .assign _ name e => name :: e.names
  | .call callee _ args => callee.names ++ Expr.listNames args

def Expr.listNames : List Expr → List Token
  | [] => []
  | e :: es => e.names ++ Expr.listNames es

end

mutual

def Stmt.names : Stmt → List Token
  | .expression e => e.names
  | .print e => e.names
  | .var name none => [name]
  | .var name (some e) => name :: e.names
  | .block body => Stmt.listNames body
  | .conditional c yes none => c.names ++ yes.names
  | .conditional c yes (some no) => c.names ++ yes.names ++ no.names
  | .whileLoop c body => c.names ++ body.names
  | .function f => Stmt.functionNames f
  | .returning _ none => []
  | .returning _ (some e) => e.names
  | .classDecl name methods => name :: Stmt.methodNames methods

def Stmt.listNames : List Stmt → List Token
  | [] => []
  | s :: ss => s.names ++ Stmt.listNames ss

def Stmt.functionNames : Function → List Token
  | ⟨name, params, body⟩ => name :: (params ++ Stmt.listNames body)

def Stmt.methodNames : List Function → List Token
  | [] => []
  | f :: fs => Stmt.functionNames f ++ Stmt.methodNames fs

end

theorem Expr.listNames_eq_flatMap (es : List Expr) : Expr.listNames es = es.flatMap Expr.names := by
  induction es with
  | nil => rfl
  | cons e es ih => rw [Expr.listNames, ih, List.flatMap_cons]

theorem Stmt.listNames_eq_flatMap (ss : List Stmt) : Stmt.listNames ss = ss.flatMap Stmt.names := by
  induction ss with
  | nil => rfl
  | cons s ss ih => rw [Stmt.listNames, ih, List.flatMap_cons]

theorem Stmt.methodNames_eq_flatMap (fs : List Function) :
    Stmt.methodNames fs = fs.flatMap Stmt.functionNames := by
  induction fs with
  | nil => rfl
  | cons f fs ih => rw [Stmt.methodNames, ih, List.flatMap_cons]

theorem Stmt.functionNames_eq (f : Function) :
    Stmt.functionNames f = f.name :: (f.params ++ Stmt.listNames f.body) := by
  cases f
  rfl

namespace Grammar

/-- Identifiers among tokens. -/
def Names (ts names : List Token) : Prop := ∀ t ∈ names, t ∈ ts ∧ t.kind = .identifier

namespace Names

variable {α : Type} {ts us names more : List Token} {t : Token}

theorem nil : Names ts [] := fun _ h => by cases h

theorem cons (ht : t ∈ ts) (hk : t.kind = .identifier) (h : Names ts names) :
    Names ts (t :: names) := by
  rintro u (_ | ⟨_, hu⟩)
  · exact ⟨ht, hk⟩
  · exact h u hu

theorem append (h : Names ts names) (h' : Names ts more) : Names ts (names ++ more) :=
  fun t ht => (List.mem_append.mp ht).elim (h t) (h' t)

theorem mono (h : Names ts names) (hs : ts ⊆ us) : Names us names :=
  fun t ht => ⟨hs (h t ht).1, (h t ht).2⟩

theorem flatMap {parts : List (List Token × α)} {w : α → List Token}
    (h : ∀ p ∈ parts, Names p.1 (w p.2)) (hs : ∀ p ∈ parts, p.1 ⊆ ts) :
    Names ts ((parts.map Prod.snd).flatMap w) := by
  intro t ht
  obtain ⟨a, ha, hta⟩ := List.mem_flatMap.mp ht
  obtain ⟨p, hp, rfl⟩ := List.mem_map.mp ha
  exact (h p hp).mono (hs p hp) t hta

end Names

theorem Separated.subset {parts : List (List Token)} {ts : List Token} (h : Separated parts ts) :
    ∀ p ∈ parts, p ⊆ ts := by
  induction h with
  | none => exact fun _ h => by cases h
  | one ts =>
      rintro p (_ | ⟨_, ⟨⟩⟩)
      exact List.Subset.refl ts
  | more hc h ih =>
      rintro p (_ | ⟨_, hp⟩)
      · exact List.subset_append_left _ _
      · exact fun t ht => List.mem_append_right _ (List.mem_cons_of_mem _ (ih p hp ht))

theorem subset_flatten {α : Type} {parts : List (List Token × α)} :
    ∀ p ∈ parts, p.1 ⊆ (parts.map Prod.fst).flatten :=
  fun p hp _ ht => List.mem_flatten.mpr ⟨p.1, List.mem_map_of_mem hp, ht⟩

theorem Derives.named {n : Nat} {f : Form} {ts : List Token} {e : Expr} (hd : Derives n f ts e) :
    Names ts e.names := by
  induction hd with
  | expression _ ih | alone _ _ ih => exact ih
  | assign id hn he _ ih =>
      exact .cons List.mem_cons_self hn (ih.mono fun t ht => by simp [ht])
  | @join _ ts us l r b op _ _ _ ihl ihr =>
      have hnames : (b.join l op r).names = l.names ++ r.names := by cases b <;> rfl
      rw [hnames]
      exact .append (ihl.mono fun t ht => by simp [ht]) (ihr.mono fun t ht => by simp [ht])
  | unary _ _ ih => exact ih.mono fun t ht => by simp [ht]
  | call _ _ hs _ _ _ ihc iha =>
      rw [Expr.names, Expr.listNames_eq_flatMap]
      refine .append (ihc.mono fun t ht => by simp [ht]) (.flatMap iha fun p hp t ht => ?_)
      have := hs.subset p.1 (List.mem_map_of_mem hp) ht
      simp [this]
  | literal => exact .nil
  | read id hn => exact .cons List.mem_cons_self hn .nil
  | grouping _ _ _ ih => exact ih.mono fun t ht => by simp [ht]

theorem VarDerives.named {n : Nat} {ts : List Token} {s : Stmt} (hd : VarDerives n ts s) :
    Names ts s.names := by
  cases hd with
  | intro _ hn hi _ =>
      cases hi with
      | none => exact .cons (by simp) hn .nil
      | some _ h => exact .cons (by simp) hn (h.named.mono fun t ht => by simp [ht])

theorem ExpressionDerives.named {n : Nat} {ts : List Token} {s : Stmt}
    (hd : ExpressionDerives n ts s) : Names ts s.names := by
  cases hd with
  | intro h _ => exact h.named.mono fun t ht => by simp [ht]

theorem ClauseDerives.named {n : Nat} {ts : List Token} {initial : Option Stmt}
    (hd : ClauseDerives n ts initial) : ∀ s ∈ initial, Names ts s.names := by
  cases hd with
  | none => exact fun _ h => by cases h
  | var h => rintro _ ⟨⟩; exact h.named
  | expression h => rintro _ ⟨⟩; exact h.named

theorem Optionally.named {n : Nat} {ts : List Token} {value : Option Expr}
    (hd : Optionally n ts value) : ∀ e ∈ value, Names ts e.names := by
  cases hd with
  | none => exact fun _ h => by cases h
  | some h => rintro _ ⟨⟩; exact h.named

theorem names_withInitial {ts : List Token} {loop : Stmt} {initial : Option Stmt}
    (hl : Names ts loop.names) (hi : ∀ s ∈ initial, Names ts s.names) :
    Names ts (withInitial loop initial).names := by
  cases initial with
  | none => exact hl
  | some s => exact .append (hi s rfl) (.append hl .nil)

theorem names_withIncrement {ts : List Token} {body : Stmt} {increment : Option Expr}
    (hb : Names ts body.names) (hi : ∀ e ∈ increment, Names ts e.names) :
    Names ts (withIncrement body increment).names := by
  cases increment with
  | none => exact hb
  | some e => exact .append hb (.append (hi e rfl) .nil)

theorem names_getD {ts : List Token} {condition : Option Expr}
    (hc : ∀ e ∈ condition, Names ts e.names) :
    Names ts (condition.getD (.literal (.boolean true))).names := by
  cases condition with
  | none => exact .nil
  | some e => exact hc e rfl

theorem names_returning {ts : List Token} {keyword : Token} {value : Option Expr}
    (hv : ∀ e ∈ value, Names ts e.names) : Names ts (Stmt.returning keyword value).names := by
  cases value with
  | none => exact .nil
  | some e => exact hv e rfl

mutual

theorem StatementDerives.named {n : Nat} {o : Bool} {ts : List Token} {s : Stmt} :
    StatementDerives n o ts s → Names ts s.names
  | .expression h => h.named
  | .print _ h _ => h.named.mono fun t ht => by simp [ht]
  | .returning _ h _ => names_returning fun e he => (h.named e he).mono fun t ht => by simp [ht]
  | .block _ h => h.named.mono fun t ht => by simp [ht]
  | .conditional _ _ hc _ hy =>
      .append (hc.named.mono fun t ht => by simp [ht]) (hy.named.mono fun t ht => by simp [ht])
  | .alternative _ _ hc _ hy _ hn =>
      .append
        (.append (hc.named.mono fun t ht => by simp [ht]) (hy.named.mono fun t ht => by simp [ht]))
        (hn.named.mono fun t ht => by simp [ht])
  | .whileLoop _ _ hc _ hb =>
      .append (hc.named.mono fun t ht => by simp [ht]) (hb.named.mono fun t ht => by simp [ht])
  | .forLoop _ _ hi hc _ hn _ hb => by
      refine names_withInitial (.append (names_getD fun e he => ?_)
        (names_withIncrement ?_ fun e he => ?_)) fun s hs => ?_
      · exact (hc.named e he).mono fun t ht => by simp [ht]
      · exact hb.named.mono fun t ht => by simp [ht]
      · exact (hn.named e he).mono fun t ht => by simp [ht]
      · exact (hi.named s hs).mono fun t ht => by simp [ht]

theorem BlockDerives.named {n : Nat} {ts : List Token} {body : List Stmt} :
    BlockDerives n ts body → Names ts (Stmt.listNames body)
  | .intro hp _ => by
      rw [Stmt.listNames_eq_flatMap]
      exact .flatMap (fun p hp' => (hp p hp').named) fun p hp' t ht =>
        List.mem_append_left _ (subset_flatten p hp' ht)

theorem FunctionDerives.named {n : Nat} {ts : List Token} {f : Function} :
    FunctionDerives n ts f → Names ts (Stmt.functionNames f)
  | .intro hn _ hs hp _ _ _ h => by
      rw [Stmt.functionNames_eq]
      refine .cons List.mem_cons_self hn (.append (fun t ht => ⟨?_, hp t ht⟩) ?_)
      · have := hs.subset [t] (List.mem_map_of_mem ht) List.mem_cons_self
        simp [this]
      · exact h.named.mono fun t ht => by simp [ht]

theorem DeclarationDerives.named {n : Nat} {ts : List Token} {s : Stmt} :
    DeclarationDerives n ts s → Names ts s.names
  | .klass _ hn _ hm _ => by
      refine .cons (by simp) hn ?_
      rw [Stmt.methodNames_eq_flatMap]
      exact .flatMap (fun m hm' => (hm m hm').named) fun m hm' t ht => by
        simp [List.mem_flatten.mpr ⟨m.1, List.mem_map_of_mem hm', ht⟩]
  | .function _ h => h.named.mono fun t ht => by simp [ht]
  | .var h => h.named
  | .statement h => h.named

end

/-- The names in a program are identifiers among its tokens. -/
theorem ProgramDerives.named {n : Nat} {ts : List Token} {body : List Stmt}
    (h : ProgramDerives n ts body) : Names ts (Stmt.listNames body) := by
  obtain ⟨parts, hp, rfl, rfl⟩ := h
  rw [Stmt.listNames_eq_flatMap]
  exact .flatMap (fun p hp' => (hp p hp').named) subset_flatten

end Grammar

end Lox
