import Lox.Proofs.Copy.Tree

/-!
Which programs are copies of one another: those of one form up to identities, and those whose lines
were changed throughout.
-/

namespace Lox

/-! ### Programs of one form -/

mutual

/-- What is alike up to identities is a copy. -/
theorem Expr.copy_of_unnumbered :
    (e e' : Expr) → e'.unnumbered = e.unnumbered → e.Copy (.anyhow fun l => l) e'
  | .literal l, e', h => by
      rw [show e' = .literal l from Expr.of_unnumbered h]
      exact .literal l
  | .grouping e, e', h => by
      obtain ⟨x, rfl, hx⟩ := Expr.of_unnumbered h
      exact .grouping (Expr.copy_of_unnumbered e x hx)
  | .unary op e, e', h => by
      obtain ⟨x, rfl, hx⟩ := Expr.of_unnumbered h
      exact .unary op (Expr.copy_of_unnumbered e x hx)
  | .binary l op r, e', h => by
      obtain ⟨x, y, rfl, hx, hy⟩ := Expr.of_unnumbered h
      exact .binary op (Expr.copy_of_unnumbered l x hx) (Expr.copy_of_unnumbered r y hy)
  | .logical l op r, e', h => by
      obtain ⟨x, y, rfl, hx, hy⟩ := Expr.of_unnumbered h
      exact .logical op (Expr.copy_of_unnumbered l x hx) (Expr.copy_of_unnumbered r y hy)
  | .read id name, e', h => by
      obtain ⟨id', rfl⟩ := Expr.of_unnumbered h
      exact .read name trivial
  | .assign id name e, e', h => by
      obtain ⟨id', x, rfl, hx⟩ := Expr.of_unnumbered h
      exact .assign name trivial (Expr.copy_of_unnumbered e x hx)
  | .call callee paren args, e', h => by
      obtain ⟨x, xs, rfl, hx, hxs⟩ := Expr.of_unnumbered h
      exact .call paren (Expr.copy_of_unnumbered callee x hx)
        (Expr.listCopy_of_unnumbered args xs hxs)

theorem Expr.listCopy_of_unnumbered : (es es' : List Expr) →
    Expr.listUnnumbered es' = Expr.listUnnumbered es → Expr.ListCopy (.anyhow fun l => l) es es'
  | [], [], _ => .nil
  | e :: es, e' :: es', h => by
      obtain ⟨he, hes⟩ := List.cons_eq_cons.mp h
      exact .cons (Expr.copy_of_unnumbered e e' he) (Expr.listCopy_of_unnumbered es es' hes)
  | [], _ :: _, h => by cases h
  | _ :: _, [], h => by cases h

end

mutual

theorem Stmt.copy_of_unnumbered :
    (s s' : Stmt) → s'.unnumbered = s.unnumbered → s.Copy (.anyhow fun l => l) s'
  | .expression e, s', h => by
      obtain ⟨x, rfl, hx⟩ := Stmt.of_unnumbered h
      exact .expression (Expr.copy_of_unnumbered e x hx)
  | .print e, s', h => by
      obtain ⟨x, rfl, hx⟩ := Stmt.of_unnumbered h
      exact .print (Expr.copy_of_unnumbered e x hx)
  | .var name none, s', h => by
      rw [show s' = .var name none from Stmt.of_unnumbered h]
      exact .declared name
  | .var name (some e), s', h => by
      obtain ⟨x, rfl, hx⟩ := Stmt.of_unnumbered h
      exact .initialized name (Expr.copy_of_unnumbered e x hx)
  | .block body, s', h => by
      obtain ⟨xs, rfl, hxs⟩ := Stmt.of_unnumbered h
      exact .block (Stmt.listCopy_of_unnumbered body xs hxs)
  | .conditional c yes none, s', h => by
      obtain ⟨x, y, rfl, hx, hy⟩ := Stmt.of_unnumbered h
      exact .conditional (Expr.copy_of_unnumbered c x hx) (Stmt.copy_of_unnumbered yes y hy)
  | .conditional c yes (some no), s', h => by
      obtain ⟨x, y, z, rfl, hx, hy, hz⟩ := Stmt.of_unnumbered h
      exact .alternative (Expr.copy_of_unnumbered c x hx) (Stmt.copy_of_unnumbered yes y hy)
        (Stmt.copy_of_unnumbered no z hz)
  | .whileLoop c body, s', h => by
      obtain ⟨x, y, rfl, hx, hy⟩ := Stmt.of_unnumbered h
      exact .whileLoop (Expr.copy_of_unnumbered c x hx) (Stmt.copy_of_unnumbered body y hy)
  | .function f, s', h => by
      obtain ⟨g, rfl, hg⟩ := Stmt.of_unnumbered h
      exact .function (Stmt.functionCopy_of_unnumbered f g hg)
  | .returning keyword none, s', h => by
      rw [show s' = .returning keyword none from Stmt.of_unnumbered h]
      exact .returning keyword
  | .returning keyword (some e), s', h => by
      obtain ⟨x, rfl, hx⟩ := Stmt.of_unnumbered h
      exact .returningValue keyword (Expr.copy_of_unnumbered e x hx)
  | .classDecl name methods, s', h => by
      obtain ⟨gs, rfl, hgs⟩ := Stmt.of_unnumbered h
      exact .classDecl name (Stmt.methodsCopy_of_unnumbered methods gs hgs)

theorem Stmt.listCopy_of_unnumbered : (ss ss' : List Stmt) →
    Stmt.listUnnumbered ss' = Stmt.listUnnumbered ss → Stmt.ListCopy (.anyhow fun l => l) ss ss'
  | [], [], _ => .nil
  | s :: ss, s' :: ss', h => by
      obtain ⟨hs, hss⟩ := List.cons_eq_cons.mp h
      exact .cons (Stmt.copy_of_unnumbered s s' hs) (Stmt.listCopy_of_unnumbered ss ss' hss)
  | [], _ :: _, h => by cases h
  | _ :: _, [], h => by cases h

theorem Stmt.functionCopy_of_unnumbered : (f f' : Function) →
    Stmt.functionUnnumbered f' = Stmt.functionUnnumbered f →
      Stmt.FunctionCopy (.anyhow fun l => l) f f'
  | ⟨name, params, body⟩, f', h => by
      obtain ⟨xs, rfl, hxs⟩ := Stmt.of_functionUnnumbered h
      have hcopy := Stmt.FunctionCopy.intro name params (Stmt.listCopy_of_unnumbered body xs hxs)
      rwa [show params.map (Token.relined fun l => l) = params from List.map_id params] at hcopy

theorem Stmt.methodsCopy_of_unnumbered : (fs fs' : List Function) →
    Stmt.methodsUnnumbered fs' = Stmt.methodsUnnumbered fs →
      Stmt.MethodsCopy (.anyhow fun l => l) fs fs'
  | [], [], _ => .nil
  | f :: fs, f' :: fs', h => by
      obtain ⟨hf, hfs⟩ := List.cons_eq_cons.mp h
      exact .cons (Stmt.functionCopy_of_unnumbered f f' hf)
        (Stmt.methodsCopy_of_unnumbered fs fs' hfs)
  | [], _ :: _, h => by cases h
  | _ :: _, [], h => by cases h

end

section

variable {same : Nat → Nat → Prop}

mutual

/-- And copies with the lines of the original are alike up to identities. -/
theorem Expr.Copy.unnumbered {e e' : Expr} : e.Copy (.inPlace same) e' →
    e'.unnumbered = e.unnumbered
  | .literal _ | .read .. => rfl
  | .grouping he => congrArg Expr.grouping he.unnumbered
  | .unary op he => congrArg (Expr.unary op) he.unnumbered
  | .binary _ hl hr => by rw [Expr.unnumbered, Expr.unnumbered, hl.unnumbered, hr.unnumbered]; rfl
  | .logical _ hl hr => by rw [Expr.unnumbered, Expr.unnumbered, hl.unnumbered, hr.unnumbered]; rfl
  | .assign name _ he => congrArg (Expr.assign 0 name) he.unnumbered
  | .call _ hc ha => by rw [Expr.unnumbered, Expr.unnumbered, hc.unnumbered, ha.unnumbered]; rfl

theorem Expr.ListCopy.unnumbered {es es' : List Expr} : Expr.ListCopy (.inPlace same) es es' →
    Expr.listUnnumbered es' = Expr.listUnnumbered es
  | .nil => rfl
  | .cons he hes => by
      rw [Expr.listUnnumbered, Expr.listUnnumbered, he.unnumbered, hes.unnumbered]

end

mutual

theorem Stmt.Copy.unnumbered {s s' : Stmt} : s.Copy (.inPlace same) s' →
    s'.unnumbered = s.unnumbered
  | .expression he => congrArg Stmt.expression he.unnumbered
  | .print he => congrArg Stmt.print he.unnumbered
  | .declared _ | .returning _ => rfl
  | .initialized name he => congrArg (Stmt.var name ∘ some) he.unnumbered
  | .block hb => congrArg Stmt.block hb.unnumbered
  | .conditional hc hy => by
      rw [Stmt.unnumbered, Stmt.unnumbered, hc.unnumbered, hy.unnumbered]
  | .alternative hc hy hn => by
      rw [Stmt.unnumbered, Stmt.unnumbered, hc.unnumbered, hy.unnumbered, hn.unnumbered]
  | .whileLoop hc hb => by rw [Stmt.unnumbered, Stmt.unnumbered, hc.unnumbered, hb.unnumbered]
  | .function hf => congrArg Stmt.function hf.unnumbered
  | .returningValue keyword he => congrArg (Stmt.returning keyword ∘ some) he.unnumbered
  | .classDecl name hm => congrArg (Stmt.classDecl name) hm.unnumbered

theorem Stmt.ListCopy.unnumbered {ss ss' : List Stmt} : Stmt.ListCopy (.inPlace same) ss ss' →
    Stmt.listUnnumbered ss' = Stmt.listUnnumbered ss
  | .nil => rfl
  | .cons hs hss => by
      rw [Stmt.listUnnumbered, Stmt.listUnnumbered, hs.unnumbered, hss.unnumbered]

theorem Stmt.FunctionCopy.unnumbered {f f' : Function} :
    Stmt.FunctionCopy (.inPlace same) f f' → Stmt.functionUnnumbered f' = Stmt.functionUnnumbered f
  | .intro name params hb => by
      rw [Stmt.functionUnnumbered, Stmt.functionUnnumbered, hb.unnumbered,
        show params.map (Token.relined fun l => l) = params from List.map_id params]
      rfl

theorem Stmt.MethodsCopy.unnumbered {fs fs' : List Function} :
    Stmt.MethodsCopy (.inPlace same) fs fs' → Stmt.methodsUnnumbered fs' = Stmt.methodsUnnumbered fs
  | .nil => rfl
  | .cons hf hfs => by
      rw [Stmt.methodsUnnumbered, Stmt.methodsUnnumbered, hf.unnumbered, hfs.unnumbered]

end

end

/-! ### Identities that correspond -/

section

variable {k : Copying} {S : Nat → Nat → Prop}

mutual

theorem Expr.Copy.length_ids {e e' : Expr} : e.Copy k e' → e'.ids.length = e.ids.length
  | .literal _ | .read .. => rfl
  | .grouping he | .unary _ he => he.length_ids
  | .binary _ hl hr | .logical _ hl hr => by
      simp only [Expr.ids, List.length_append, hl.length_ids, hr.length_ids]
  | .assign _ _ he => by simp only [Expr.ids, List.length_append, he.length_ids, List.length_singleton]
  | .call _ hc ha => by simp only [Expr.ids, List.length_append, hc.length_ids, ha.length_ids]

theorem Expr.ListCopy.length_ids {es es' : List Expr} :
    Expr.ListCopy k es es' → (Expr.listIds es').length = (Expr.listIds es).length
  | .nil => rfl
  | .cons he hes => by simp only [Expr.listIds, List.length_append, he.length_ids, hes.length_ids]

end

mutual

theorem Stmt.Copy.length_ids {s s' : Stmt} : s.Copy k s' → s'.ids.length = s.ids.length
  | .expression he | .print he | .initialized _ he | .returningValue _ he => he.length_ids
  | .declared _ | .returning _ => rfl
  | .block hb => hb.length_ids
  | .conditional hc hy => by simp only [Stmt.ids, List.length_append, hc.length_ids, hy.length_ids]
  | .alternative hc hy hn => by
      simp only [Stmt.ids, List.length_append, hc.length_ids, hy.length_ids, hn.length_ids]
  | .whileLoop hc hb => by simp only [Stmt.ids, List.length_append, hc.length_ids, hb.length_ids]
  | .function hf => hf.length_ids
  | .classDecl _ hm => hm.length_ids

theorem Stmt.ListCopy.length_ids {ss ss' : List Stmt} :
    Stmt.ListCopy k ss ss' → (Stmt.listIds ss').length = (Stmt.listIds ss).length
  | .nil => rfl
  | .cons hs hss => by simp only [Stmt.listIds, List.length_append, hs.length_ids, hss.length_ids]

theorem Stmt.FunctionCopy.length_ids {f f' : Function} :
    Stmt.FunctionCopy k f f' → (Stmt.functionIds f').length = (Stmt.functionIds f).length
  | .intro _ _ hb => by rw [Stmt.functionIds, Stmt.functionIds, hb.length_ids]

theorem Stmt.MethodsCopy.length_ids {fs fs' : List Function} :
    Stmt.MethodsCopy k fs fs' → (Stmt.methodIds fs').length = (Stmt.methodIds fs).length
  | .nil => rfl
  | .cons hf hfs => by simp only [Stmt.methodIds, List.length_append, hf.length_ids, hfs.length_ids]

end

/-- Pairs of corresponding entries, of two lists each of which is put together. -/
theorem forall_zip_append {α : Type} {P : α × α → Prop} {us us' vs vs' : List α}
    (hl : us'.length = us.length) (h : ∀ p ∈ (us ++ vs).zip (us' ++ vs'), P p) :
    (∀ p ∈ us.zip us', P p) ∧ ∀ p ∈ vs.zip vs', P p := by
  rw [List.zip_append hl.symm] at h
  exact ⟨fun p hp => h p (List.mem_append_left _ hp), fun p hp => h p (List.mem_append_right _ hp)⟩

mutual

/-- A copy is one with the identities that it has. -/
theorem Expr.Copy.restrict {e e' : Expr} : e.Copy k e' →
    (∀ p ∈ e.ids.zip e'.ids, S p.1 p.2) → e.Copy ⟨S, k.line⟩ e'
  | .literal l, _ => .literal l
  | .grouping he, h => .grouping (he.restrict h)
  | .unary op he, h => .unary op (he.restrict h)
  | .binary op hx hy, h => by
      obtain ⟨h₁, h₂⟩ := forall_zip_append hx.length_ids h
      exact .binary op (hx.restrict h₁) (hy.restrict h₂)
  | .logical op hx hy, h => by
      obtain ⟨h₁, h₂⟩ := forall_zip_append hx.length_ids h
      exact .logical op (hx.restrict h₁) (hy.restrict h₂)
  | .read name _, h => .read name (h _ List.mem_cons_self)
  | .assign name _ he, h => by
      obtain ⟨h₁, h₂⟩ := forall_zip_append he.length_ids h
      exact .assign name (h₂ _ List.mem_cons_self) (he.restrict h₁)
  | .call paren hc ha, h => by
      obtain ⟨h₁, h₂⟩ := forall_zip_append hc.length_ids h
      exact .call paren (hc.restrict h₁) (ha.restrict h₂)

theorem Expr.ListCopy.restrict {es es' : List Expr} : Expr.ListCopy k es es' →
    (∀ p ∈ (Expr.listIds es).zip (Expr.listIds es'), S p.1 p.2) → Expr.ListCopy ⟨S, k.line⟩ es es'
  | .nil, _ => .nil
  | .cons he hes, h => by
      obtain ⟨h₁, h₂⟩ := forall_zip_append he.length_ids h
      exact .cons (he.restrict h₁) (hes.restrict h₂)

end

mutual

theorem Stmt.Copy.restrict {s s' : Stmt} : s.Copy k s' →
    (∀ p ∈ s.ids.zip s'.ids, S p.1 p.2) → s.Copy ⟨S, k.line⟩ s'
  | .expression he, h => .expression (he.restrict h)
  | .print he, h => .print (he.restrict h)
  | .declared name, _ => .declared name
  | .initialized name he, h => .initialized name (he.restrict h)
  | .block hb, h => .block (hb.restrict h)
  | .conditional hc hy, h => by
      obtain ⟨h₁, h₂⟩ := forall_zip_append hc.length_ids h
      exact .conditional (hc.restrict h₁) (hy.restrict h₂)
  | .alternative hc hy hn, h => by
      obtain ⟨h₁, h₃⟩ := forall_zip_append
        (by simp only [List.length_append, hc.length_ids, hy.length_ids]) h
      obtain ⟨h₁, h₂⟩ := forall_zip_append hc.length_ids h₁
      exact .alternative (hc.restrict h₁) (hy.restrict h₂) (hn.restrict h₃)
  | .whileLoop hc hb, h => by
      obtain ⟨h₁, h₂⟩ := forall_zip_append hc.length_ids h
      exact .whileLoop (hc.restrict h₁) (hb.restrict h₂)
  | .function hf, h => .function (hf.restrict h)
  | .returning keyword, _ => .returning keyword
  | .returningValue keyword he, h => .returningValue keyword (he.restrict h)
  | .classDecl name hm, h => .classDecl name (hm.restrict h)

theorem Stmt.ListCopy.restrict {ss ss' : List Stmt} : Stmt.ListCopy k ss ss' →
    (∀ p ∈ (Stmt.listIds ss).zip (Stmt.listIds ss'), S p.1 p.2) → Stmt.ListCopy ⟨S, k.line⟩ ss ss'
  | .nil, _ => .nil
  | .cons hs hss, h => by
      obtain ⟨h₁, h₂⟩ := forall_zip_append hs.length_ids h
      exact .cons (hs.restrict h₁) (hss.restrict h₂)

theorem Stmt.FunctionCopy.restrict {f f' : Function} : Stmt.FunctionCopy k f f' →
    (∀ p ∈ (Stmt.functionIds f).zip (Stmt.functionIds f'), S p.1 p.2) →
      Stmt.FunctionCopy ⟨S, k.line⟩ f f'
  | .intro name params hb, h => .intro name params (hb.restrict h)

theorem Stmt.MethodsCopy.restrict {fs fs' : List Function} : Stmt.MethodsCopy k fs fs' →
    (∀ p ∈ (Stmt.methodIds fs).zip (Stmt.methodIds fs'), S p.1 p.2) →
      Stmt.MethodsCopy ⟨S, k.line⟩ fs fs'
  | .nil, _ => .nil
  | .cons hf hfs, h => by
      obtain ⟨h₁, h₂⟩ := forall_zip_append hf.length_ids h
      exact .cons (hf.restrict h₁) (hfs.restrict h₂)

end

end

end Lox
