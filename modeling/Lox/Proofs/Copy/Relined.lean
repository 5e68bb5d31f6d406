import Lox.Proofs.Copy.Machine

/-!
Programs and machines with other lines. A copy is the original with the lines of the copy, up to
identities; and what is copied with some lines is copied as well from the original with others.
-/

namespace Lox

mutual

/-- An expression with its tokens at other lines. -/
def Expr.relined (f : Nat → Nat) : Expr → Expr
  | .literal l => .literal l
  | .grouping e => .grouping (e.relined f)
  | .unary op e => .unary (op.relined f) (e.relined f)
  | .binary l op r => .binary (l.relined f) (op.relined f) (r.relined f)
  | .logical l op r => .logical (l.relined f) (op.relined f) (r.relined f)
  | .read id name => .read id (name.relined f)
  | .assign id name e => .assign id (name.relined f) (e.relined f)
  | .call callee paren args => .call (callee.relined f) (paren.relined f) (Expr.listRelined f args)

def Expr.listRelined (f : Nat → Nat) : List Expr → List Expr
  | [] => []
  | e :: es => e.relined f :: Expr.listRelined f es

end

mutual

def Stmt.relined (f : Nat → Nat) : Stmt → Stmt
  | .expression e => .expression (e.relined f)
  | .print e => .print (e.relined f)
  | .var name none => .var (name.relined f) none
  | .var name (some e) => .var (name.relined f) (some (e.relined f))
  | .block body => .block (Stmt.listRelined f body)
  | .conditional c yes none => .conditional (c.relined f) (yes.relined f) none
  | .conditional c yes (some no) =>
    .conditional (c.relined f) (yes.relined f) (some (no.relined f))
  | .whileLoop c body => .whileLoop (c.relined f) (body.relined f)
  | .function g => .function (Stmt.functionRelined f g)
  | .returning keyword none => .returning (keyword.relined f) none
  | .returning keyword (some e) => .returning (keyword.relined f) (some (e.relined f))
  | .classDecl name methods => .classDecl (name.relined f) (Stmt.methodsRelined f methods)

def Stmt.listRelined (f : Nat → Nat) : List Stmt → List Stmt
  | [] => []
  | s :: ss => s.relined f :: Stmt.listRelined f ss

def Stmt.functionRelined (f : Nat → Nat) : Function → Function
  | ⟨name, params, body⟩ =>
    ⟨name.relined f, params.map (Token.relined f), Stmt.listRelined f body⟩

def Stmt.methodsRelined (f : Nat → Nat) : List Function → List Function
  | [] => []
  | g :: gs => Stmt.functionRelined f g :: Stmt.methodsRelined f gs

end

/-- A value with the tokens of its function at other lines. -/
def Value.relined (f : Nat → Nat) : Value → Value
  | .closure c => .closure { c with decl := Stmt.functionRelined f c.decl }
  | v => v

/-- A value with all identities in its function made alike. -/
def Value.unnumbered : Value → Value
  | .closure c => .closure { c with decl := Stmt.functionUnnumbered c.decl }
  | v => v

def Store.relined (f : Nat → Nat) (st : Store) : Store :=
  ⟨st.frames.map fun frame => { frame with bindings := frame.bindings.map fun _ v => v.relined f }⟩

def Machine.relined (f : Nat → Nat) (m : Machine) : Machine :=
  { m with store := m.store.relined f, last := m.last.map (Value.relined f) }

/-! ### Lines in place -/

mutual

theorem Expr.relined_id : (e : Expr) → e.relined (fun l => l) = e
  | .literal _ | .read _ _ => rfl
  | .grouping e => congrArg Expr.grouping (Expr.relined_id e)
  | .unary op e => congrArg (Expr.unary op) (Expr.relined_id e)
  | .binary l op r => congrArg₂ (Expr.binary · op ·) (Expr.relined_id l) (Expr.relined_id r)
  | .logical l op r => congrArg₂ (Expr.logical · op ·) (Expr.relined_id l) (Expr.relined_id r)
  | .assign id name e => congrArg (Expr.assign id name) (Expr.relined_id e)
  | .call callee paren args =>
      congrArg₂ (Expr.call · paren ·) (Expr.relined_id callee) (Expr.listRelined_id args)

theorem Expr.listRelined_id : (es : List Expr) → Expr.listRelined (fun l => l) es = es
  | [] => rfl
  | e :: es => congrArg₂ List.cons (Expr.relined_id e) (Expr.listRelined_id es)

end

mutual

theorem Stmt.relined_id : (s : Stmt) → s.relined (fun l => l) = s
  | .expression e => congrArg Stmt.expression (Expr.relined_id e)
  | .print e => congrArg Stmt.print (Expr.relined_id e)
  | .var _ none | .returning _ none => rfl
  | .var name (some e) => congrArg (fun e => Stmt.var name (some e)) (Expr.relined_id e)
  | .block body => congrArg Stmt.block (Stmt.listRelined_id body)
  | .conditional c yes none =>
      congrArg₂ (Stmt.conditional · · none) (Expr.relined_id c) (Stmt.relined_id yes)
  | .conditional c yes (some no) => by
      rw [Stmt.relined, Expr.relined_id, Stmt.relined_id yes, Stmt.relined_id no]
  | .whileLoop c body => congrArg₂ Stmt.whileLoop (Expr.relined_id c) (Stmt.relined_id body)
  | .function g => congrArg Stmt.function (Stmt.functionRelined_id g)
  | .returning keyword (some e) =>
      congrArg (fun e => Stmt.returning keyword (some e)) (Expr.relined_id e)
  | .classDecl name methods => congrArg (Stmt.classDecl name) (Stmt.methodsRelined_id methods)

theorem Stmt.listRelined_id : (ss : List Stmt) → Stmt.listRelined (fun l => l) ss = ss
  | [] => rfl
  | s :: ss => congrArg₂ List.cons (Stmt.relined_id s) (Stmt.listRelined_id ss)

theorem Stmt.functionRelined_id : (g : Function) → Stmt.functionRelined (fun l => l) g = g
  | ⟨name, params, body⟩ => by
      rw [Stmt.functionRelined, Stmt.listRelined_id body]
      exact congrArg (FunctionDecl.mk name · body) (List.map_id params)

theorem Stmt.methodsRelined_id : (gs : List Function) → Stmt.methodsRelined (fun l => l) gs = gs
  | [] => rfl
  | g :: gs => congrArg₂ List.cons (Stmt.functionRelined_id g) (Stmt.methodsRelined_id gs)

end

theorem Value.relined_id (v : Value) : v.relined (fun l => l) = v := by
  cases v with
  | closure c => rw [Value.relined, Stmt.functionRelined_id]
  | _ => rfl

/-! ### A copy is the original with other lines -/

section

variable {k : Copying} (g : Nat → Nat)

mutual

theorem Expr.Copy.relined {e e' : Expr} : e.Copy k e' →
    (e'.relined g).unnumbered = (e.relined fun l => g (k.line l)).unnumbered
  | .literal _ => rfl
  | .grouping he => congrArg Expr.grouping he.relined
  | .unary _ he => congrArg (Expr.unary _) he.relined
  | .binary _ hl hr => congrArg₂ (Expr.binary · _ ·) hl.relined hr.relined
  | .logical _ hl hr => congrArg₂ (Expr.logical · _ ·) hl.relined hr.relined
  | .read _ _ => rfl
  | .assign _ _ he => congrArg (Expr.assign 0 _) he.relined
  | .call _ hc ha => congrArg₂ (Expr.call · _ ·) hc.relined ha.relined

theorem Expr.ListCopy.relined {es es' : List Expr} : Expr.ListCopy k es es' →
    Expr.listUnnumbered (Expr.listRelined g es') =
      Expr.listUnnumbered (Expr.listRelined (fun l => g (k.line l)) es)
  | .nil => rfl
  | .cons he hes => congrArg₂ List.cons he.relined hes.relined

end

mutual

theorem Stmt.Copy.relined {s s' : Stmt} : s.Copy k s' →
    (s'.relined g).unnumbered = (s.relined fun l => g (k.line l)).unnumbered
  | .expression he => congrArg Stmt.expression (he.relined g)
  | .print he => congrArg Stmt.print (he.relined g)
  | .declared _ | .returning _ => rfl
  | .initialized _ he => congrArg (fun e => Stmt.var _ (some e)) (he.relined g)
  | .block hb => congrArg Stmt.block hb.relined
  | .conditional hc hy => congrArg₂ (Stmt.conditional · · none) (hc.relined g) hy.relined
  | .alternative hc hy hn => by
      simp only [Stmt.relined, Stmt.unnumbered, hc.relined g, hy.relined, hn.relined]
  | .whileLoop hc hb => congrArg₂ Stmt.whileLoop (hc.relined g) hb.relined
  | .function hf => congrArg Stmt.function hf.relined
  | .returningValue _ he => congrArg (fun e => Stmt.returning _ (some e)) (he.relined g)
  | .classDecl _ hm => congrArg (Stmt.classDecl _) hm.relined

theorem Stmt.ListCopy.relined {ss ss' : List Stmt} : Stmt.ListCopy k ss ss' →
    Stmt.listUnnumbered (Stmt.listRelined g ss') =
      Stmt.listUnnumbered (Stmt.listRelined (fun l => g (k.line l)) ss)
  | .nil => rfl
  | .cons hs hss => congrArg₂ List.cons hs.relined hss.relined

theorem Stmt.FunctionCopy.relined {h h' : Function} : Stmt.FunctionCopy k h h' →
    Stmt.functionUnnumbered (Stmt.functionRelined g h') =
      Stmt.functionUnnumbered (Stmt.functionRelined (fun l => g (k.line l)) h)
  | .intro name params hb => by
      simp only [Stmt.functionRelined, Stmt.functionUnnumbered, hb.relined, List.map_map]
      rfl

theorem Stmt.MethodsCopy.relined {hs hs' : List Function} : Stmt.MethodsCopy k hs hs' →
    Stmt.methodsUnnumbered (Stmt.methodsRelined g hs') =
      Stmt.methodsUnnumbered (Stmt.methodsRelined (fun l => g (k.line l)) hs)
  | .nil => rfl
  | .cons hf hfs => congrArg₂ List.cons hf.relined hfs.relined

end

/-- At whatever lines, a copy is the original at the lines that these are for the copy. -/
theorem Value.Copy.relined {v v' : Value} (h : v.Copy k v') :
    (v'.relined g).unnumbered = (v.relined fun l => g (k.line l)).unnumbered := by
  cases h with
  | @closure c c' h =>
      obtain ⟨i, d, f⟩ := c
      obtain ⟨i', d', f'⟩ := c'
      obtain ⟨rfl, rfl, hd⟩ := h
      simp only [Value.relined, Value.unnumbered, hd.relined g]
  | _ => rfl

end

theorem Value.Copy.unnumbered {k : Copying} {v v' : Value} (h : v.Copy k v') :
    v'.unnumbered = (v.relined k.line).unnumbered := by
  have hcopy := h.relined fun l => l
  rwa [Value.relined_id] at hcopy

/-! ### Copies of what has other lines -/

section

variable {R : Nat → Nat → Prop} {f g : Nat → Nat}

mutual

/-- Lines may be changed in two steps. -/
theorem Expr.Copy.of_relined {e e' : Expr} :
    e.Copy ⟨R, fun l => g (f l)⟩ e' → (e.relined f).Copy ⟨R, g⟩ e'
  | .literal l => .literal l
  | .grouping he => .grouping he.of_relined
  | .unary op he => .unary (op.relined f) he.of_relined
  | .binary op hl hr => .binary (op.relined f) hl.of_relined hr.of_relined
  | .logical op hl hr => .logical (op.relined f) hl.of_relined hr.of_relined
  | .read name hid => .read (name.relined f) hid
  | .assign name hid he => .assign (name.relined f) hid he.of_relined
  | .call paren hc ha => .call (paren.relined f) hc.of_relined ha.of_relined

theorem Expr.ListCopy.of_relined {es es' : List Expr} :
    Expr.ListCopy ⟨R, fun l => g (f l)⟩ es es' → Expr.ListCopy ⟨R, g⟩ (Expr.listRelined f es) es'
  | .nil => .nil
  | .cons he hes => .cons he.of_relined hes.of_relined

end

mutual

theorem Stmt.Copy.of_relined {s s' : Stmt} :
    s.Copy ⟨R, fun l => g (f l)⟩ s' → (s.relined f).Copy ⟨R, g⟩ s'
  | .expression he => .expression he.of_relined
  | .print he => .print he.of_relined
  | .declared name => .declared (name.relined f)
  | .initialized name he => .initialized (name.relined f) he.of_relined
  | .block hb => .block hb.of_relined
  | .conditional hc hy => .conditional hc.of_relined hy.of_relined
  | .alternative hc hy hn => .alternative hc.of_relined hy.of_relined hn.of_relined
  | .whileLoop hc hb => .whileLoop hc.of_relined hb.of_relined
  | .function hf => .function hf.of_relined
  | .returning keyword => .returning (keyword.relined f)
  | .returningValue keyword he => .returningValue (keyword.relined f) he.of_relined
  | .classDecl name hm => .classDecl (name.relined f) hm.of_relined

theorem Stmt.ListCopy.of_relined {ss ss' : List Stmt} :
    Stmt.ListCopy ⟨R, fun l => g (f l)⟩ ss ss' → Stmt.ListCopy ⟨R, g⟩ (Stmt.listRelined f ss) ss'
  | .nil => .nil
  | .cons hs hss => .cons hs.of_relined hss.of_relined

theorem Stmt.FunctionCopy.of_relined {h h' : Function} :
    Stmt.FunctionCopy ⟨R, fun l => g (f l)⟩ h h' →
      Stmt.FunctionCopy ⟨R, g⟩ (Stmt.functionRelined f h) h'
  | .intro name params hb => by
      have hcopy := Stmt.FunctionCopy.intro (name.relined f) (params.map (Token.relined f))
        hb.of_relined
      rwa [List.map_map] at hcopy

theorem Stmt.MethodsCopy.of_relined {hs hs' : List Function} :
    Stmt.MethodsCopy ⟨R, fun l => g (f l)⟩ hs hs' →
      Stmt.MethodsCopy ⟨R, g⟩ (Stmt.methodsRelined f hs) hs'
  | .nil => .nil
  | .cons hf hfs => .cons hf.of_relined hfs.of_relined

end

theorem Value.Copy.of_relined {v v' : Value} (h : v.Copy ⟨R, fun l => g (f l)⟩ v') :
    (v.relined f).Copy ⟨R, g⟩ v' := by
  cases h with
  | nil => exact .nil
  | boolean b => exact .boolean b
  | number x => exact .number x
  | string s => exact .string s
  | clock => exact .clock
  | closure h => exact .closure ⟨h.id, h.frame, h.decl.of_relined⟩

theorem Value.Copy.of_map_relined {o o' : Option Value}
    (h : Option.Rel (Value.Copy ⟨R, fun l => g (f l)⟩) o o') :
    Option.Rel (Value.Copy ⟨R, g⟩) (o.map (Value.relined f)) o' := by
  cases h with
  | none => exact .none
  | some h => exact .some h.of_relined

@[simp] theorem Store.size_relined (f : Nat → Nat) (st : Store) : (st.relined f).size = st.size := by
  simp [Store.size, Store.relined]

@[simp] theorem Store.enclosing?_relined (f : Nat → Nat) (st : Store) (frame : Nat) :
    (st.relined f).enclosing? frame = st.enclosing? frame := by
  simp only [Store.enclosing?, Store.relined, Array.getElem?_map]
  cases st.frames[frame]? <;> rfl

@[simp] theorem Store.here?_relined (f : Nat → Nat) (st : Store) (frame : Nat) (x : String) :
    (st.relined f).here? frame x = (st.here? frame x).map (Value.relined f) := by
  simp only [Store.here?, Store.relined, Array.getElem?_map]
  cases st.frames[frame]? with
  | none => rfl
  | some b => simp [Std.TreeMap.getElem?_map]

theorem Machine.Copy.of_relined {m m' : Machine} (h : m.Copy ⟨R, fun l => g (f l)⟩ m') :
    (m.relined f).Copy ⟨R, g⟩ m' where
  store := by
    refine ⟨?_, fun frame => ?_, fun frame x => ?_⟩
    · rw [h.store.size, Machine.relined, Store.size_relined]
    · rw [h.store.links, Machine.relined, Store.enclosing?_relined]
    · rw [Machine.relined, Store.here?_relined]
      exact Value.Copy.of_map_relined (h.store.values frame x)
  hops := h.hops
  current := h.current
  callDepth := h.callDepth
  printed := h.printed
  last := Value.Copy.of_map_relined h.last
  nextClosure := h.nextClosure
  steps := h.steps

end

end Lox
