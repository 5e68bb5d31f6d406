import Mathlib.Data.List.Forall2
import Lox.Proofs.Grammar.Completeness
import Lox.Proofs.Renaming.Tree

/-!
Tokens of a tree with other names. A derivation does not depend on what its identifiers are called,
so it stays one when some of them are called otherwise.
-/

namespace Lox

/-- A token as some scope calls it. Only identifiers are called otherwise than they were. -/
def Naming.Recalls (θ : Naming) (t t' : Token) : Prop :=
  ∃ scope, t' = θ.token scope t ∧ (t.kind ≠ .identifier → t' = t)

section

variable {θ : Naming} {t t' : Token}

theorem Naming.Recalls.refl (t : Token) : θ.Recalls t t := ⟨none, rfl, fun _ => rfl⟩

theorem Naming.recalls_token (scope : Option Path) (hk : t.kind = .identifier) :
    θ.Recalls t (θ.token scope t) := ⟨scope, rfl, fun h => absurd hk h⟩

theorem Naming.kind_token (scope : Option Path) (t : Token) : (θ.token scope t).kind = t.kind := by
  cases scope <;> rfl

theorem Naming.Recalls.kind (h : θ.Recalls t t') : t'.kind = t.kind := by
  obtain ⟨scope, rfl, -⟩ := h
  exact Naming.kind_token scope t

end

namespace Grammar

variable {θ : Naming} {n : Nat} {ts : List Token}

/-! ### Lists of parts -/

theorem Separated.recalled {parts parts' : List (List Token)} (hs : Separated parts ts)
    (hp : List.Forall₂ (List.Forall₂ θ.Recalls) parts parts') :
    ∃ ts', List.Forall₂ θ.Recalls ts ts' ∧ Separated parts' ts' := by
  induction hs generalizing parts' with
  | none =>
      cases hp
      exact ⟨[], .nil, .none⟩
  | one ts =>
      cases hp with
      | @cons _ ts' _ _ h hp =>
          cases hp
          exact ⟨ts', h, .one ts'⟩
  | @more ts us vs parts comma hc hs ih =>
      cases hp with
      | @cons _ ts' _ _ h hp =>
          obtain ⟨vs', hvs, hs'⟩ := ih hp
          cases hp with
          | cons _ _ =>
              exact ⟨ts' ++ comma :: vs', List.rel_append h (.cons (.refl comma) hvs), .more hc hs'⟩

/-- Parts that can be recalled one by one can be recalled together. -/
theorem recalled_parts {α : Type} {D : List Token → α → Prop} {parts : List (List Token × α)}
    {as : List α}
    (h : List.Forall₂ (fun p a => ∃ ts, List.Forall₂ θ.Recalls p.1 ts ∧ D ts a) parts as) :
    ∃ parts' : List (List Token × α), parts'.map Prod.snd = as ∧
      List.Forall₂ (List.Forall₂ θ.Recalls) (parts.map Prod.fst) (parts'.map Prod.fst) ∧
      ∀ p ∈ parts', D p.1 p.2 := by
  induction h with
  | nil => exact ⟨[], rfl, .nil, fun p hp => by cases hp⟩
  | @cons p a parts as hp _ ih =>
      obtain ⟨ts, hts, hd⟩ := hp
      obtain ⟨parts', rfl, hparts, hall⟩ := ih
      refine ⟨(ts, a) :: parts', rfl, .cons hts hparts, ?_⟩
      rintro q (_ | ⟨_, hq⟩)
      · exact hd
      · exact hall q hq

/-! ### Expressions -/

theorem forall₂_listExpr {D : List Token → Expr → Prop} {ss : Scopes} {around : List Path}
    {args : List (List Token × Expr)}
    (h : ∀ a ∈ args, ∃ ts, List.Forall₂ θ.Recalls a.1 ts ∧ D ts (a.2.renamed θ ss around)) :
    List.Forall₂ (fun a e => ∃ ts, List.Forall₂ θ.Recalls a.1 ts ∧ D ts e) args
      (Expr.listRenamed θ ss around (args.map Prod.snd)) := by
  induction args with
  | nil => exact .nil
  | cons a args ih =>
      exact .cons (h a List.mem_cons_self) (ih fun b hb => h b (List.mem_cons_of_mem _ hb))

theorem Derives.recalled {f : Form} {e : Expr} (hd : Derives n f ts e) (ss : Scopes)
    (around : List Path) :
    ∃ ts', List.Forall₂ θ.Recalls ts ts' ∧ Derives n f ts' (e.renamed θ ss around) := by
  induction hd with
  | expression _ ih =>
      obtain ⟨ts', hts, hd⟩ := ih
      exact ⟨ts', hts, .expression hd⟩
  | alone hf _ ih =>
      obtain ⟨ts', hts, hd⟩ := ih
      exact ⟨ts', hts, .alone hf hd⟩
  | assign id hn he _ ih =>
      obtain ⟨ts', hts, hd⟩ := ih
      exact ⟨_, .cons (Naming.recalls_token _ hn) (.cons (.refl _) hts),
        .assign id ((Naming.kind_token _ _).trans hn) he hd⟩
  | @join _ ts us l r b op _ ho _ ihl ihr =>
      obtain ⟨ts', hts, hl⟩ := ihl
      obtain ⟨us', hus, hr⟩ := ihr
      have hjoin : (b.join l op r).renamed θ ss around =
          b.join (l.renamed θ ss around) op (r.renamed θ ss around) := by cases b <;> rfl
      rw [hjoin]
      exact ⟨_, List.rel_append hts (.cons (.refl op) hus), .join hl ho hr⟩
  | unary ho _ ih =>
      obtain ⟨ts', hts, hd⟩ := ih
      exact ⟨_, .cons (.refl _) hts, .unary ho hd⟩
  | @call n ts us callee args lparen rparen _ hl hs _ hm hr ihc iha =>
      obtain ⟨ts', hts, hc⟩ := ihc
      obtain ⟨args', hsnd, hfst, hall⟩ := recalled_parts (forall₂_listExpr iha)
      obtain ⟨us', hus, hs'⟩ := hs.recalled hfst
      rw [Expr.renamed, ← hsnd]
      have hlen : args'.length = args.length := by simpa using hfst.length_eq.symm
      refine ⟨_, List.rel_append hts (.cons (.refl lparen) (List.rel_append hus
        (.cons (.refl rparen) .nil))), .call hc hl hs' hall (hlen ▸ hm) hr⟩
  | literal h => exact ⟨_, .cons (.refl _) .nil, .literal h⟩
  | read id hn =>
      exact ⟨_, .cons (Naming.recalls_token _ hn) .nil, .read id ((Naming.kind_token _ _).trans hn)⟩
  | grouping hl _ hr ih =>
      obtain ⟨ts', hts, hd⟩ := ih
      exact ⟨_, .cons (.refl _) (List.rel_append hts (.cons (.refl _) .nil)), .grouping hl hd hr⟩

/-! ### Statements -/

variable {ss : Scopes} {around : List Path} {path : Path}

theorem Optionally.recalled {value : Option Expr} (hd : Optionally n ts value) (ss : Scopes)
    (around : List Path) : ∃ ts', List.Forall₂ θ.Recalls ts ts' ∧
      Optionally n ts' (value.map (·.renamed θ ss around)) := by
  cases hd with
  | none => exact ⟨[], .nil, .none⟩
  | some hd =>
      obtain ⟨ts', hts, hd⟩ := hd.recalled ss around
      exact ⟨ts', hts, .some hd⟩

theorem VarDerives.recalled {s : Stmt} (hd : VarDerives n ts s) (ss : Scopes) (around : List Path)
    (path : Path) : ∃ ts', List.Forall₂ θ.Recalls ts ts' ∧
      VarDerives n ts' (s.renamed θ ss around path) := by
  cases hd with
  | @intro _ _ kw name semicolon hk hn hi hs =>
      have hname := Naming.recalls_token (θ := θ) around.head? hn
      have hn' := (Naming.kind_token (θ := θ) around.head? name).trans hn
      cases hi with
      | none =>
          exact ⟨_, .cons (.refl kw) (.cons hname (.cons (.refl semicolon) .nil)),
            .intro hk hn' .none hs⟩
      | some he hd =>
          obtain ⟨ts', hts, hd⟩ := hd.recalled (ss.declare name) around
          exact ⟨_, .cons (.refl kw) (.cons hname (List.rel_append (.cons (.refl _) hts)
            (.cons (.refl semicolon) .nil))), .intro hk hn' (.some he hd) hs⟩

theorem ExpressionDerives.recalled {s : Stmt} (hd : ExpressionDerives n ts s) (ss : Scopes)
    (around : List Path) (path : Path) : ∃ ts', List.Forall₂ θ.Recalls ts ts' ∧
      ExpressionDerives n ts' (s.renamed θ ss around path) := by
  cases hd with
  | intro hd hs =>
      obtain ⟨ts', hts, hd⟩ := hd.recalled ss around
      exact ⟨_, List.rel_append hts (.cons (.refl _) .nil), .intro hd hs⟩

theorem ClauseDerives.recalled {initial : Option Stmt} (hd : ClauseDerives n ts initial)
    (ss : Scopes) (around : List Path) (path : Path) : ∃ ts', List.Forall₂ θ.Recalls ts ts' ∧
      ClauseDerives n ts' (initial.map (·.renamed θ ss around path)) := by
  cases hd with
  | none hs => exact ⟨_, .cons (.refl _) .nil, .none hs⟩
  | var hd =>
      obtain ⟨ts', hts, hd⟩ := hd.recalled ss around path
      exact ⟨ts', hts, .var hd⟩
  | expression hd =>
      obtain ⟨ts', hts, hd⟩ := hd.recalled ss around path
      exact ⟨ts', hts, .expression hd⟩

/-- The parts of a loop with clauses are renamed where they stand in the tree. -/
theorem renamed_withIncrement (θ : Naming) (ss : Scopes) (around : List Path) (path : Path)
    (body : Stmt) (increment : Option Expr) :
    ∃ ss₁ around₁ path₁ ss₂ around₂, (withIncrement body increment).renamed θ ss around path =
      withIncrement (body.renamed θ ss₁ around₁ path₁) (increment.map (·.renamed θ ss₂ around₂)) := by
  cases increment with
  | none => exact ⟨ss, around, path, ss, around, rfl⟩
  | some e => exact ⟨_, _, _, _, _, rfl⟩

theorem renamed_forLoop (θ : Naming) (ss : Scopes) (around : List Path) (path : Path)
    (initial : Option Stmt) (condition increment : Option Expr) (body : Stmt) :
    ∃ ss₀ around₀ path₀ ss₁ around₁ ss₂ around₂ path₂ ss₃ around₃,
      (withInitial (.whileLoop (condition.getD (.literal (.boolean true)))
        (withIncrement body increment)) initial).renamed θ ss around path =
      withInitial (.whileLoop
        ((condition.map (·.renamed θ ss₁ around₁)).getD (.literal (.boolean true)))
        (withIncrement (body.renamed θ ss₂ around₂ path₂)
          (increment.map (·.renamed θ ss₃ around₃))))
        (initial.map (·.renamed θ ss₀ around₀ path₀)) := by
  have hc (ss : Scopes) (around : List Path) :
      (condition.getD (.literal (.boolean true))).renamed θ ss around =
        (condition.map (·.renamed θ ss around)).getD (.literal (.boolean true)) := by
    cases condition <;> rfl
  cases initial with
  | none =>
      obtain ⟨ss₂, around₂, path₂, ss₃, around₃, hb⟩ :=
        renamed_withIncrement θ ss around (0 :: path) body increment
      refine ⟨ss, around, path, ss, around, ss₂, around₂, path₂, ss₃, around₃, ?_⟩
      rw [withInitial, Stmt.renamed, hc, hb]
      rfl
  | some s =>
      obtain ⟨ss₂, around₂, path₂, ss₃, around₃, hb⟩ :=
        renamed_withIncrement θ (Scopes.after ([] :: ss) s) (path :: around) (0 :: 1 :: path) body
          increment
      refine ⟨[] :: ss, path :: around, 0 :: path, Scopes.after ([] :: ss) s, path :: around, ss₂,
        around₂, path₂, ss₃, around₃, ?_⟩
      rw [withInitial, Stmt.renamed, Stmt.listRenamed, Stmt.listRenamed, Stmt.listRenamed,
        Stmt.renamed, hc, hb]
      rfl

theorem renamed_returning (θ : Naming) (ss : Scopes) (around : List Path) (path : Path)
    (keyword : Token) (value : Option Expr) :
    (Stmt.returning keyword value).renamed θ ss around path =
      .returning keyword (value.map (·.renamed θ ss around)) := by
  cases value <;> rfl

theorem forall₂_listStmt {D : List Token → Stmt → Prop} {parts : List (List Token × Stmt)}
    (h : ∀ p ∈ parts, ∀ ss around path, ∃ ts, List.Forall₂ θ.Recalls p.1 ts ∧
      D ts (p.2.renamed θ ss around path)) (ss : Scopes) (around : List Path) (path : Path)
    (i : Nat) :
    List.Forall₂ (fun p s => ∃ ts, List.Forall₂ θ.Recalls p.1 ts ∧ D ts s) parts
      (Stmt.listRenamed θ ss around path i (parts.map Prod.snd)) := by
  induction parts generalizing ss i with
  | nil => exact .nil
  | cons p parts ih =>
      exact .cons (h p List.mem_cons_self ss around (i :: path))
        (ih (fun q hq => h q (List.mem_cons_of_mem _ hq)) (ss.after p.2) (i + 1))

theorem forall₂_methods {D : List Token → Function → Prop}
    {methods : List (List Token × Function)}
    (h : ∀ m ∈ methods, ∀ ss around path, ∃ ts, List.Forall₂ θ.Recalls m.1 ts ∧
      D ts (Stmt.functionRenamed θ ss around path m.2)) (ss : Scopes) (around : List Path)
    (path : Path) (i : Nat) :
    List.Forall₂ (fun m f => ∃ ts, List.Forall₂ θ.Recalls m.1 ts ∧ D ts f) methods
      (Stmt.methodsRenamed θ ss around path i (methods.map Prod.snd)) := by
  induction methods generalizing i with
  | nil => exact .nil
  | cons m methods ih =>
      exact .cons (h m List.mem_cons_self ss around (i :: path))
        (ih (fun q hq => h q (List.mem_cons_of_mem _ hq)) (i + 1))

theorem forall₂_params {params : List Token} (path : Path)
    (hp : ∀ p ∈ params, p.kind = .identifier) :
    List.Forall₂ (List.Forall₂ θ.Recalls) (params.map ([·]))
      ((params.map (θ.token (some path))).map ([·])) := by
  induction params with
  | nil => exact .nil
  | cons p params ih =>
      exact .cons (.cons (Naming.recalls_token _ (hp p List.mem_cons_self)) .nil)
        (ih fun q hq => hp q (List.mem_cons_of_mem _ hq))

mutual

theorem StatementDerives.recalled {n : Nat} {o : Bool} {ts : List Token} {s : Stmt} :
    StatementDerives n o ts s → ∀ ss around path, ∃ ts', List.Forall₂ θ.Recalls ts ts' ∧
      StatementDerives n o ts' (s.renamed θ ss around path)
  | .expression h, ss, around, path => by
      obtain ⟨ts', hts, hd⟩ := h.recalled ss around path
      exact ⟨ts', hts, .expression hd⟩
  | .print hk h hs, ss, around, _ => by
      obtain ⟨ts', hts, hd⟩ := h.recalled ss around
      exact ⟨_, .cons (.refl _) (List.rel_append hts (.cons (.refl _) .nil)), .print hk hd hs⟩
  | .returning hk h hs, ss, around, path => by
      obtain ⟨ts', hts, hd⟩ := h.recalled ss around
      rw [renamed_returning]
      exact ⟨_, .cons (.refl _) (List.rel_append hts (.cons (.refl _) .nil)), .returning hk hd hs⟩
  | .block hl h, ss, around, path => by
      obtain ⟨ts', hts, hd⟩ := h.recalled ([] :: ss) (path :: around) path
      exact ⟨_, .cons (.refl _) hts, .block hl hd⟩
  | .conditional hk hl hc hr hy, ss, around, path => by
      obtain ⟨ts', hts, hc⟩ := hc.recalled ss around
      obtain ⟨us', hus, hy⟩ := hy.recalled ss around (0 :: path)
      exact ⟨_, .cons (.refl _) (.cons (.refl _) (List.rel_append hts (.cons (.refl _) hus))),
        .conditional hk hl hc hr hy⟩
  | .alternative hk hl hc hr hy ho hn, ss, around, path => by
      obtain ⟨ts', hts, hc⟩ := hc.recalled ss around
      obtain ⟨us', hus, hy⟩ := hy.recalled ss around (0 :: path)
      obtain ⟨vs', hvs, hn⟩ := hn.recalled _ around (1 :: path)
      exact ⟨_, .cons (.refl _) (.cons (.refl _) (List.rel_append hts (.cons (.refl _)
        (List.rel_append hus (.cons (.refl _) hvs))))), .alternative hk hl hc hr hy ho hn⟩
  | .whileLoop hk hl hc hr hb, ss, around, path => by
      obtain ⟨ts', hts, hc⟩ := hc.recalled ss around
      obtain ⟨us', hus, hb⟩ := hb.recalled ss around (0 :: path)
      exact ⟨_, .cons (.refl _) (.cons (.refl _) (List.rel_append hts (.cons (.refl _) hus))),
        .whileLoop hk hl hc hr hb⟩
  | .forLoop hk hl hi hc hs hn hr hb, ss, around, path => by
      obtain ⟨_, _, _, _, _, _, _, _, _, _, he⟩ := renamed_forLoop θ ss around path _ _ _ _
      rw [he]
      obtain ⟨ts', hts, hi⟩ := hi.recalled _ _ _
      obtain ⟨us', hus, hc⟩ := hc.recalled _ _
      obtain ⟨vs', hvs, hn⟩ := hn.recalled _ _
      obtain ⟨ws', hws, hb⟩ := hb.recalled _ _ _
      exact ⟨_, .cons (.refl _) (.cons (.refl _) (List.rel_append hts (List.rel_append hus
        (.cons (.refl _) (List.rel_append hvs (.cons (.refl _) hws)))))),
        .forLoop hk hl hi hc hs hn hr hb⟩

theorem BlockDerives.recalled {n : Nat} {ts : List Token} {body : List Stmt} :
    BlockDerives n ts body → ∀ ss around path, ∃ ts', List.Forall₂ θ.Recalls ts ts' ∧
      BlockDerives n ts' (Stmt.listRenamed θ ss around path 0 body)
  | .intro hp hr, ss, around, path => by
      obtain ⟨parts', hsnd, hfst, hall⟩ := recalled_parts
        (forall₂_listStmt (fun p hp' => (hp p hp').recalled) ss around path 0)
      rw [← hsnd]
      exact ⟨_, List.rel_append (List.rel_flatten hfst) (.cons (.refl _) .nil), .intro hall hr⟩

theorem FunctionDerives.recalled {n : Nat} {ts : List Token} {f : Function} :
    FunctionDerives n ts f → ∀ ss around path, ∃ ts', List.Forall₂ θ.Recalls ts ts' ∧
      FunctionDerives n ts' (Stmt.functionRenamed θ ss around path f)
  | .intro hn hl hs hp hm hr hb h, ss, around, path => by
      rw [Stmt.functionRenamed_eq]
      obtain ⟨ts', hts, hs'⟩ := hs.recalled (forall₂_params path hp)
      obtain ⟨us', hus, hd⟩ := h.recalled _ _ _
      refine ⟨_, .cons (.refl _) (.cons (.refl _) (List.rel_append hts (.cons (.refl _)
        (.cons (.refl _) hus)))), .intro hn hl hs' (fun p hp' => ?_) (by simpa using hm) hr hb hd⟩
      obtain ⟨q, hq, rfl⟩ := List.mem_map.mp hp'
      exact (Naming.kind_token _ q).trans (hp q hq)

theorem DeclarationDerives.recalled {n : Nat} {ts : List Token} {s : Stmt} :
    DeclarationDerives n ts s → ∀ ss around path, ∃ ts', List.Forall₂ θ.Recalls ts ts' ∧
      DeclarationDerives n ts' (s.renamed θ ss around path)
  | .klass hk hn hl hm hr, ss, around, path => by
      obtain ⟨methods', hsnd, hfst, hall⟩ := recalled_parts
        (forall₂_methods (fun m hm' => (hm m hm').recalled) _ around path 0)
      rw [Stmt.renamed, ← hsnd]
      exact ⟨_, .cons (.refl _) (.cons (.refl _) (.cons (.refl _) (List.rel_append
        (List.rel_flatten hfst) (.cons (.refl _) .nil)))), .klass hk hn hl hall hr⟩
  | .function hk h, ss, around, path => by
      obtain ⟨ts', hts, hd⟩ := h.recalled _ around path
      exact ⟨_, .cons (.refl _) hts, .function hk hd⟩
  | .var h, ss, around, path => by
      obtain ⟨ts', hts, hd⟩ := h.recalled ss around path
      exact ⟨ts', hts, .var hd⟩
  | .statement h, ss, around, path => by
      obtain ⟨ts', hts, hd⟩ := h.recalled ss around path
      exact ⟨ts', hts, .statement hd⟩

end

theorem ProgramDerives.recalled {body : List Stmt} (hd : ProgramDerives n ts body) (θ : Naming) :
    ∃ ts', List.Forall₂ θ.Recalls ts ts' ∧
      ProgramDerives n ts' (Stmt.listRenamed θ [] [] [] 0 body) := by
  obtain ⟨parts, hp, rfl, rfl⟩ := hd
  obtain ⟨parts', hsnd, hfst, hall⟩ := recalled_parts
    (forall₂_listStmt (fun p hp' => (hp p hp').recalled) [] [] [] 0)
  exact ⟨_, List.rel_flatten hfst, parts', hall, rfl, hsnd.symm⟩

/-- What stands behind the end mark is not looked at. -/
theorem upToEnd_recalled {tokens ts' : List Token}
    (h : List.Forall₂ θ.Recalls (upToEnd tokens) ts') :
    ∃ tokens', List.Forall₂ θ.Recalls tokens tokens' ∧ upToEnd tokens' = ts' := by
  unfold upToEnd at h ⊢
  induction tokens generalizing ts' with
  | nil =>
      cases h
      exact ⟨[], .nil, rfl⟩
  | cons t tokens ih =>
      rw [List.takeWhile_cons] at h
      split at h
      · next ht =>
        cases h with
        | @cons _ t' _ ts' h h' =>
            obtain ⟨tokens', hts, rfl⟩ := ih h'
            refine ⟨t' :: tokens', .cons h hts, ?_⟩
            rw [List.takeWhile_cons, if_pos (by rw [h.kind]; exact ht)]
      · next ht =>
        cases h
        refine ⟨t :: tokens, List.forall₂_same.mpr fun t _ => .refl t, ?_⟩
        rw [List.takeWhile_cons, if_neg ht]

end Grammar

end Lox
