import Lox.Proofs.Scope.Covers

/-!
Programs that differ in the names of their scopes only. Each scope around a place has a label, which
says how its names are called on the other side.
-/

namespace Lox

/-- How a name is called on the other side. -/
abbrev Label := String → String

def Scope.called (σ : Label) (s : Scope) : Scope := s.map fun e => (σ e.1, e.2)

def Scopes.called (σs : List Label) (ss : Scopes) : Scopes := List.zipWith Scope.called σs ss

section

variable {h h' : Hops} {σ : Label} {σs : List Label} {ss : Scopes} {s : Scope} {x : String}
  {name name' : Token}

theorem Scope.status?_called (hσ : ∀ x y, σ x = σ y → x = y) (s : Scope) (x : String) :
    (s.called σ).status? (σ x) = s.status? x := by
  induction s with
  | nil => rfl
  | cons e s ih =>
      obtain ⟨y, status⟩ := e
      rw [Scope.called, List.map_cons, Scope.status?_cons, Scope.status?_cons]
      by_cases hx : x = y
      · rw [if_pos hx, if_pos (congrArg σ hx)]
      · rw [if_neg hx, if_neg fun he => hx (hσ x y he)]
        exact ih

theorem Scope.of_status?_called {y : String} (hy : ((s.called σ).status? y).isSome) :
    ∃ x, (s.status? x).isSome ∧ σ x = y := by
  induction s with
  | nil => cases hy
  | cons e s ih =>
      obtain ⟨z, status⟩ := e
      rw [Scope.called, List.map_cons, Scope.status?_cons] at hy
      by_cases hz : y = σ z
      · exact ⟨z, by rw [Scope.status?_cons, if_pos rfl]; rfl, hz.symm⟩
      · rw [if_neg hz] at hy
        obtain ⟨x, hx, rfl⟩ := ih hy
        refine ⟨x, ?_, rfl⟩
        rw [Scope.status?_cons, if_neg fun he => hz (congrArg σ he)]
        exact hx

theorem Scopes.mark_called (σs : List Label) (ss : Scopes) (x : String) (status : Status) :
    (ss.called σs).mark ((σs.head?).elim x (· x)) status = (ss.mark x status).called σs := by
  cases ss <;> cases σs <;> rfl

/-! ### Names -/

/-- A name on both sides, where it belongs to the scope so many out, or to none. -/
structure Token.Mirrors (ss : Scopes) (σs : List Label) (depth : Option Nat) (name name' : Token) :
    Prop where
  line : name'.line = name.line
  lexeme : name'.lexeme = (depth.bind (σs[·]?)).elim name.lexeme (· name.lexeme)
  here : (ss.called σs).here? name' = ss.here? name

/-- An occurrence on both sides, with what the tables of hops say of it. -/
structure Occurs (h h' : Hops) (ss : Scopes) (σs : List Label) (id id' : Nat) (name name' : Token) :
    Prop where
  token : name.Mirrors ss σs (ss.depth? name) name'
  hops : h[id]? = ss.depth? name
  hops' : h'[id']? = ss.depth? name

/-- Parameters on both sides, declared one by one. -/
inductive Mirrored (σs : List Label) : Scopes → List Token → List Token → Prop
  | nil {ss : Scopes} : Mirrored σs ss [] []
  | cons {ss : Scopes} {p p' : Token} {ps ps' : List Token} (ht : p.Mirrors ss σs (some 0) p')
      (hp : Mirrored σs ((ss.declare p).define p) ps ps') : Mirrored σs ss (p :: ps) (p' :: ps')

/-- An occurrence in no scope is called alike on both sides. -/
theorem Occurs.lexeme {id id' : Nat} (ho : Occurs h h' ss σs id id' name name')
    (hd : ss.depth? name = none) : name'.lexeme = name.lexeme := by
  have hx := ho.token.lexeme
  rwa [hd] at hx

theorem Token.Mirrors.mark (ht : name.Mirrors ss σs (some 0) name') (ss : Scopes)
    (status : Status) :
    (ss.called σs).mark name'.lexeme status = (ss.mark name.lexeme status).called σs := by
  rw [← Scopes.mark_called, ht.lexeme]
  cases σs <;> rfl

theorem Token.Mirrors.define (ht : name.Mirrors ss σs (some 0) name') :
    ((ss.called σs).declare name').define name' = ((ss.declare name).define name).called σs := by
  unfold Scopes.declare Scopes.define
  rw [ht.mark, ht.mark]

theorem Mirrored.bindParams {ps ps' : List Token} (hp : Mirrored σs ss ps ps') :
    (ss.called σs).bindParams ps' = (ss.bindParams ps).called σs := by
  induction hp with
  | nil => rfl
  | cons ht _ ih => rw [Scopes.bindParams, Scopes.bindParams, ht.define, ih]

end

/-! ### Trees -/

mutual

inductive Expr.Mirrors (h h' : Hops) (ss : Scopes) (σs : List Label) : Expr → Expr → Prop
  | literal (l : Literal) : Expr.Mirrors h h' ss σs (.literal l) (.literal l)
  | grouping {e e' : Expr} (he : e.Mirrors h h' ss σs e') :
      Expr.Mirrors h h' ss σs (.grouping e) (.grouping e')
  | unary {e e' : Expr} (op : Token) (he : e.Mirrors h h' ss σs e') :
      Expr.Mirrors h h' ss σs (.unary op e) (.unary op e')
  | binary {l l' r r' : Expr} (op : Token) (hl : l.Mirrors h h' ss σs l')
      (hr : r.Mirrors h h' ss σs r') :
      Expr.Mirrors h h' ss σs (.binary l op r) (.binary l' op r')
  | logical {l l' r r' : Expr} (op : Token) (hl : l.Mirrors h h' ss σs l')
      (hr : r.Mirrors h h' ss σs r') :
      Expr.Mirrors h h' ss σs (.logical l op r) (.logical l' op r')
  | read {id id' : Nat} {name name' : Token} (ho : Occurs h h' ss σs id id' name name')
      (hn : ss.here? name ≠ some .declared) :
      Expr.Mirrors h h' ss σs (.read id name) (.read id' name')
  | assign {id id' : Nat} {name name' : Token} {e e' : Expr}
      (ho : Occurs h h' ss σs id id' name name') (he : e.Mirrors h h' ss σs e') :
      Expr.Mirrors h h' ss σs (.assign id name e) (.assign id' name' e')
  | call {callee callee' : Expr} {args args' : List Expr} (paren : Token)
      (hc : callee.Mirrors h h' ss σs callee') (ha : Expr.ListMirrors h h' ss σs args args') :
      Expr.Mirrors h h' ss σs (.call callee paren args) (.call callee' paren args')

inductive Expr.ListMirrors (h h' : Hops) (ss : Scopes) (σs : List Label) :
    List Expr → List Expr → Prop
  | nil : Expr.ListMirrors h h' ss σs [] []
  | cons {e e' : Expr} {es es' : List Expr} (he : e.Mirrors h h' ss σs e')
      (hes : Expr.ListMirrors h h' ss σs es es') :
      Expr.ListMirrors h h' ss σs (e :: es) (e' :: es')

end

mutual

/-- Functions and classes bear one name on both sides. -/
inductive Stmt.Mirrors (h h' : Hops) : Scopes → List Label → Stmt → Stmt → Prop
  | expression {ss : Scopes} {σs : List Label} {e e' : Expr} (he : e.Mirrors h h' ss σs e') :
      Stmt.Mirrors h h' ss σs (.expression e) (.expression e')
  | print {ss : Scopes} {σs : List Label} {e e' : Expr} (he : e.Mirrors h h' ss σs e') :
      Stmt.Mirrors h h' ss σs (.print e) (.print e')
  | declared {ss : Scopes} {σs : List Label} {name name' : Token}
      (ht : name.Mirrors ss σs (some 0) name') :
      Stmt.Mirrors h h' ss σs (.var name none) (.var name' none)
  | initialized {ss : Scopes} {σs : List Label} {name name' : Token} {e e' : Expr}
      (ht : name.Mirrors ss σs (some 0) name') (he : e.Mirrors h h' (ss.declare name) σs e') :
      Stmt.Mirrors h h' ss σs (.var name (some e)) (.var name' (some e'))
  | block {ss : Scopes} {σs : List Label} {σ : Label} {body body' : List Stmt}
      (hσ : ∀ x y, σ x = σ y → x = y)
      (hb : Stmt.ListMirrors h h' ([] :: ss) (σ :: σs) body body') :
      Stmt.Mirrors h h' ss σs (.block body) (.block body')
  | conditional {ss : Scopes} {σs : List Label} {c c' : Expr} {yes yes' : Stmt}
      (hc : c.Mirrors h h' ss σs c') (hy : yes.Mirrors h h' ss σs yes') (ha : ss.after yes = ss) :
      Stmt.Mirrors h h' ss σs (.conditional c yes none) (.conditional c' yes' none)
  | alternative {ss : Scopes} {σs : List Label} {c c' : Expr} {yes yes' no no' : Stmt}
      (hc : c.Mirrors h h' ss σs c') (hy : yes.Mirrors h h' ss σs yes') (ha : ss.after yes = ss)
      (hn : no.Mirrors h h' ss σs no') (ha' : ss.after no = ss) :
      Stmt.Mirrors h h' ss σs (.conditional c yes (some no)) (.conditional c' yes' (some no'))
  | whileLoop {ss : Scopes} {σs : List Label} {c c' : Expr} {body body' : Stmt}
      (hc : c.Mirrors h h' ss σs c') (hb : body.Mirrors h h' ss σs body')
      (ha : ss.after body = ss) :
      Stmt.Mirrors h h' ss σs (.whileLoop c body) (.whileLoop c' body')
  | function {ss : Scopes} {σs : List Label} {f f' : Function}
      (ht : f.name.Mirrors ss σs (some 0) f'.name)
      (hf : Stmt.FunctionMirrors h h' ((ss.declare f.name).define f.name) σs f f') :
      Stmt.Mirrors h h' ss σs (.function f) (.function f')
  | returning {ss : Scopes} {σs : List Label} (keyword : Token) :
      Stmt.Mirrors h h' ss σs (.returning keyword none) (.returning keyword none)
  | returningValue {ss : Scopes} {σs : List Label} {e e' : Expr} (keyword : Token)
      (he : e.Mirrors h h' ss σs e') :
      Stmt.Mirrors h h' ss σs (.returning keyword (some e)) (.returning keyword (some e'))
  | classDecl {ss : Scopes} {σs : List Label} {name name' : Token}
      {methods methods' : List Function} (ht : name.Mirrors ss σs (some 0) name')
      (hx : name'.lexeme = name.lexeme)
      (hm : Stmt.MethodsMirror h h' ((ss.declare name).define name) σs methods methods') :
      Stmt.Mirrors h h' ss σs (.classDecl name methods) (.classDecl name' methods')

inductive Stmt.ListMirrors (h h' : Hops) : Scopes → List Label → List Stmt → List Stmt → Prop
  | nil {ss : Scopes} {σs : List Label} : Stmt.ListMirrors h h' ss σs [] []
  | cons {ss : Scopes} {σs : List Label} {s s' : Stmt} {rest rest' : List Stmt}
      (hs : s.Mirrors h h' ss σs s') (hr : Stmt.ListMirrors h h' (ss.after s) σs rest rest') :
      Stmt.ListMirrors h h' ss σs (s :: rest) (s' :: rest')

inductive Stmt.FunctionMirrors (h h' : Hops) : Scopes → List Label → Function → Function → Prop
  | intro {ss : Scopes} {σs : List Label} {σ : Label} {name name' : Token}
      {params params' : List Token} {body body' : List Stmt} (hx : name'.lexeme = name.lexeme)
      (hσ : ∀ x y, σ x = σ y → x = y) (hp : Mirrored (σ :: σs) ([] :: ss) params params')
      (hb : Stmt.ListMirrors h h' (Scopes.bindParams ([] :: ss) params) (σ :: σs) body body') :
      Stmt.FunctionMirrors h h' ss σs ⟨name, params, body⟩ ⟨name', params', body'⟩

inductive Stmt.MethodsMirror (h h' : Hops) :
    Scopes → List Label → List Function → List Function → Prop
  | nil {ss : Scopes} {σs : List Label} : Stmt.MethodsMirror h h' ss σs [] []
  | cons {ss : Scopes} {σs : List Label} {f f' : Function} {fs fs' : List Function}
      (hf : Stmt.FunctionMirrors h h' ss σs f f') (hfs : Stmt.MethodsMirror h h' ss σs fs fs') :
      Stmt.MethodsMirror h h' ss σs (f :: fs) (f' :: fs')

end

section

variable {h h' : Hops} {ss : Scopes} {σs : List Label}

/-- Both sides declare alike. -/
theorem Stmt.Mirrors.after {ss : Scopes} {σs : List Label} {s s' : Stmt} :
    s.Mirrors h h' ss σs s' → (ss.called σs).after s' = (ss.after s).called σs
  | .declared ht | .initialized ht _ | .function ht _ | .classDecl ht _ _ => ht.define
  | .conditional _ hy _ => hy.after
  | .alternative _ hy ha hn _ => by
      rw [Scopes.after_alternative, Scopes.after_alternative, hy.after, ha, hn.after]
  | .whileLoop _ hb _ => hb.after
  | .expression _ | .print _ | .block .. | .returning _ | .returningValue .. => rfl

theorem Mirrored.length_eq {ss : Scopes} {ps ps' : List Token} (hp : Mirrored σs ss ps ps') :
    ps'.length = ps.length := by
  induction hp with
  | nil => rfl
  | cons _ _ ih => rw [List.length_cons, List.length_cons, ih]

theorem Stmt.FunctionMirrors.lexeme {f f' : Function} (hf : Stmt.FunctionMirrors h h' ss σs f f') :
    f'.name.lexeme = f.name.lexeme := by
  cases hf with
  | intro hx => exact hx

theorem Stmt.FunctionMirrors.inside {f f' : Function}
    (hf : Stmt.FunctionMirrors h h' ss σs f f') : ∃ σ : Label, (∀ x y, σ x = σ y → x = y) ∧
      Mirrored (σ :: σs) ([] :: ss) f.params f'.params ∧
      Stmt.ListMirrors h h' (Scopes.bindParams ([] :: ss) f.params) (σ :: σs) f.body f'.body := by
  cases hf with
  | intro _ hσ hp hb => exact ⟨_, hσ, hp, hb⟩

/-! ### Faults -/

theorem filterMap_append_eq_nil {fs gs : List Finding} :
    (fs ++ gs).filterMap Finding.fault? = [] ↔
      fs.filterMap Finding.fault? = [] ∧ gs.filterMap Finding.fault? = [] := by
  rw [List.filterMap_append, List.append_eq_nil_iff]

mutual

/-- What may be read on one side may be read on the other. -/
theorem Expr.Mirrors.faultless {e e' : Expr} :
    e.Mirrors h h' ss σs e' → (e'.findings (ss.called σs)).filterMap Finding.fault? = []
  | .literal _ => rfl
  | .grouping he | .unary _ he => he.faultless
  | .binary _ hl hr | .logical _ hl hr =>
      filterMap_append_eq_nil.mpr ⟨hl.faultless, hr.faultless⟩
  | .read ho hn => by
      rw [Expr.findings, readFault, ho.token.here, if_neg hn]
      rfl
  | .assign _ he => filterMap_append_eq_nil.mpr ⟨he.faultless, rfl⟩
  | .call _ hc ha => filterMap_append_eq_nil.mpr ⟨hc.faultless, ha.faultless⟩

theorem Expr.ListMirrors.faultless {es es' : List Expr} :
    Expr.ListMirrors h h' ss σs es es' →
      (Expr.listFindings (ss.called σs) es').filterMap Finding.fault? = []
  | .nil => rfl
  | .cons he hes => filterMap_append_eq_nil.mpr ⟨he.faultless, hes.faultless⟩

end

theorem Token.Mirrors.declareFault {depth : Option Nat} {name name' : Token}
    (ht : name.Mirrors ss σs depth name')
    (hf : (Lox.declareFault ss name).filterMap Finding.fault? = []) :
    (Lox.declareFault (ss.called σs) name').filterMap Finding.fault? = [] := by
  rw [Lox.declareFault] at hf ⊢
  rw [ht.here]
  split
  · next hs => rw [if_pos hs] at hf; cases hf
  · rfl

theorem Mirrored.faultless {ss : Scopes} {ps ps' : List Token} (hp : Mirrored σs ss ps ps')
    (hf : (paramFindings ss ps).filterMap Finding.fault? = []) :
    (paramFindings (ss.called σs) ps').filterMap Finding.fault? = [] := by
  induction hp with
  | nil => rfl
  | cons ht _ ih =>
      rw [paramFindings, filterMap_append_eq_nil] at hf ⊢
      rw [ht.define]
      exact ⟨ht.declareFault hf.1, ih hf.2⟩

mutual

theorem Stmt.Mirrors.faultless {inFunction : Bool} {ss : Scopes} {σs : List Label} {s s' : Stmt} :
    s.Mirrors h h' ss σs s' → (s.findings inFunction ss).filterMap Finding.fault? = [] →
      (s'.findings inFunction (ss.called σs)).filterMap Finding.fault? = []
  | .expression he, _ | .print he, _ => he.faultless
  | .declared ht, hf => ht.declareFault hf
  | .initialized ht he, hf => by
      rw [Stmt.findings, filterMap_append_eq_nil] at hf ⊢
      refine ⟨ht.declareFault hf.1, ?_⟩
      rw [Scopes.declare]
      rw [ht.mark]
      exact he.faultless
  | .block _ hb, hf => hb.faultless hf
  | .conditional hc hy _, hf => by
      rw [Stmt.findings, filterMap_append_eq_nil] at hf ⊢
      exact ⟨hc.faultless, hy.faultless hf.2⟩
  | .alternative hc hy ha hn _, hf => by
      rw [Stmt.findings, filterMap_append_eq_nil, filterMap_append_eq_nil] at hf ⊢
      rw [hy.after, ha]
      rw [ha] at hf
      exact ⟨⟨hc.faultless, hy.faultless hf.1.2⟩, hn.faultless hf.2⟩
  | .whileLoop hc hb _, hf => by
      rw [Stmt.findings, filterMap_append_eq_nil] at hf ⊢
      exact ⟨hc.faultless, hb.faultless hf.2⟩
  | .function ht hd, hf => by
      rw [Stmt.findings, filterMap_append_eq_nil] at hf ⊢
      rw [ht.define]
      exact ⟨ht.declareFault hf.1, hd.faultless hf.2⟩
  | .returning _, hf => hf
  | .returningValue _ he, hf => by
      rw [Stmt.findings, filterMap_append_eq_nil] at hf ⊢
      exact ⟨hf.1, he.faultless⟩
  | .classDecl ht _ hm, hf => by
      rw [Stmt.findings, filterMap_append_eq_nil] at hf ⊢
      rw [ht.define]
      exact ⟨ht.declareFault hf.1, hm.faultless hf.2⟩

theorem Stmt.ListMirrors.faultless {inFunction : Bool} {ss : Scopes} {σs : List Label}
    {body body' : List Stmt} : Stmt.ListMirrors h h' ss σs body body' →
      (Stmt.listFindings inFunction ss body).filterMap Finding.fault? = [] →
      (Stmt.listFindings inFunction (ss.called σs) body').filterMap Finding.fault? = []
  | .nil, _ => rfl
  | .cons hs hr, hf => by
      rw [Stmt.listFindings, filterMap_append_eq_nil] at hf ⊢
      rw [hs.after]
      exact ⟨hs.faultless hf.1, hr.faultless hf.2⟩

theorem Stmt.FunctionMirrors.faultless {ss : Scopes} {σs : List Label} {f f' : Function} :
    Stmt.FunctionMirrors h h' ss σs f f' →
      (Stmt.functionFindings ss f).filterMap Finding.fault? = [] →
      (Stmt.functionFindings (ss.called σs) f').filterMap Finding.fault? = []
  | .intro (σ := σ) _ _ hp hb, hf => by
      rw [Stmt.functionFindings, filterMap_append_eq_nil] at hf ⊢
      have hpush : ([] :: ss.called σs : Scopes) = Scopes.called (σ :: σs) ([] :: ss) := rfl
      rw [hpush, hp.bindParams]
      exact ⟨hp.faultless hf.1, hb.faultless hf.2⟩

theorem Stmt.MethodsMirror.faultless {ss : Scopes} {σs : List Label} {fs fs' : List Function} :
    Stmt.MethodsMirror h h' ss σs fs fs' →
      (Stmt.methodFindings ss fs).filterMap Finding.fault? = [] →
      (Stmt.methodFindings (ss.called σs) fs').filterMap Finding.fault? = []
  | .nil, _ => rfl
  | .cons hd hfs, hf => by
      rw [Stmt.methodFindings, filterMap_append_eq_nil] at hf ⊢
      exact ⟨hd.faultless hf.1, hfs.faultless hf.2⟩

end

end

end Lox
