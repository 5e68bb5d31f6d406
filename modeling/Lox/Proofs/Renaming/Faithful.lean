import Lox.Proofs.Renaming.Declared
import Lox.Proofs.Renaming.Mirror
import Lox.Proofs.Renaming.Tree
import Lox.Proofs.Scope.Recorded
import Lox.Proofs.Tree.Names

/-!
A tree with other names mirrors the tree as it was, if the names stay apart.
-/

namespace Lox

/-- No two names of one scope become one, and of the names in `N` no two become one in whatever
scopes they are, nor does one become another that is in no scope. -/
structure Naming.Apart (θ : Naming) (N : String → Prop) : Prop where
  injective : ∀ p x y, θ p x = θ p y → x = y
  apart : ∀ p q x y, N x → N y → θ p x = θ q y → x = y
  fresh : ∀ p x y, N x → N y → θ p x = y → x = y

theorem Naming.apart_id : Naming.id.Apart fun _ => True := ⟨
  fun _ _ _ h => h, fun _ _ _ _ _ _ h => h, fun _ _ _ _ _ h => h⟩

/-- The scopes around a place, in which there are only names in `N`. -/
structure Place (N : String → Prop) (ss : Scopes) (around : List Path) : Prop where
  length : around.length = ss.length
  names : ∀ s ∈ ss, ∀ x, (s.status? x).isSome → N x

section

variable {N : String → Prop} {θ : Naming} {ss : Scopes} {around : List Path} {name : Token}

theorem Place.nil : Place N [] [] := ⟨rfl, fun _ h => by cases h⟩

theorem Place.push (hp : Place N ss around) (path : Path) : Place N ([] :: ss) (path :: around) := by
  refine ⟨by simp [hp.length], ?_⟩
  rintro s (_ | ⟨_, hs⟩)
  · exact fun x hx => by cases hx
  · exact hp.names s hs

theorem Place.mark (hp : Place N ss around) {x : String} (hx : N x) (status : Status) :
    Place N (ss.mark x status) around := by
  refine ⟨by rw [hp.length, Scopes.length_mark], ?_⟩
  cases ss with
  | nil => exact hp.names
  | cons s ss =>
      rintro t (_ | ⟨_, ht⟩)
      · intro y hy
        rw [Scope.status?_cons] at hy
        split at hy
        · next he => exact he ▸ hx
        · exact hp.names s List.mem_cons_self y hy
      · exact hp.names t (List.mem_cons_of_mem _ ht)

theorem Place.define (hp : Place N ss around) (hn : N name.lexeme) :
    Place N ((ss.declare name).define name) around := (hp.mark hn _).mark hn _

theorem Place.bindParams (hp : Place N ss around) {params : List Token}
    (hn : ∀ t ∈ params, N t.lexeme) : Place N (ss.bindParams params) around := by
  induction params generalizing ss with
  | nil => exact hp
  | cons p ps ih =>
      exact ih (hp.define (hn p List.mem_cons_self)) fun t ht => hn t (List.mem_cons_of_mem _ ht)

theorem Place.after (hp : Place N ss around) {s : Stmt} (hs : s.Placed)
    (hn : ∀ t ∈ s.names, N t.lexeme) : Place N (ss.after s) around := by
  cases s with
  | var name initial =>
      refine hp.define (hn name ?_)
      cases initial <;> exact List.mem_cons_self
  | function f =>
      rw [Stmt.names, Stmt.functionNames_eq] at hn
      exact hp.define (hn f.name List.mem_cons_self)
  | classDecl name methods => exact hp.define (hn name List.mem_cons_self)
  | _ => rwa [Scopes.after_eq _ _ hs rfl]

/-- A name is found as far out as it was, if no other name is called as it is now. -/
theorem Scopes.depth?_called {name' : Token} (hp : Place N ss around)
    (hother : ∀ p z, N z → θ p z = name'.lexeme → z = name.lexeme)
    (hd : ∀ d, ss.depth? name = some d → ∀ p ∈ around[d]?, θ p name.lexeme = name'.lexeme)
    (hθ : ∀ p x y, θ p x = θ p y → x = y) :
    (ss.called (around.map θ)).depth? name' = ss.depth? name := by
  induction ss generalizing around with
  | nil => cases around <;> rfl
  | cons s ss ih =>
      cases around with
      | nil => cases hp.length
      | cons p around =>
          have hrest : Place N ss around :=
            ⟨Nat.succ.inj hp.length, fun t ht => hp.names t (List.mem_cons_of_mem _ ht)⟩
          rw [List.map_cons, Scopes.called, List.zipWith_cons_cons, ← Scopes.called,
            Scopes.depth?_cons, Scopes.depth?_cons]
          rw [Scopes.depth?_cons] at hd
          by_cases hs : (s.status? name.lexeme).isSome
          · rw [if_pos hs] at hd ⊢
            rw [← hd 0 rfl p rfl, Scope.status?_called (hθ p), if_pos hs]
          · rw [if_neg hs] at hd ⊢
            have hs' : ¬((s.called (θ p)).status? name'.lexeme).isSome := by
              intro h
              obtain ⟨z, hz, he⟩ := Scope.of_status?_called h
              exact hs (hother p z (hp.names s List.mem_cons_self z hz) he ▸ hz)
            rw [if_neg hs', ih hrest fun d hd' q hq => hd (d + 1) (by rw [hd']; rfl) q hq]

theorem Scopes.here?_called {name' : Token} (hp : Place N ss around)
    (hother : ∀ p z, N z → θ p z = name'.lexeme → z = name.lexeme)
    (hd : (ss.here? name).isSome → ∀ p ∈ around.head?, θ p name.lexeme = name'.lexeme)
    (hθ : ∀ p x y, θ p x = θ p y → x = y) :
    (ss.called (around.map θ)).here? name' = ss.here? name := by
  cases ss with
  | nil => cases around <;> rfl
  | cons s ss =>
      cases around with
      | nil => cases hp.length
      | cons p around =>
          change (s.called (θ p)).status? name'.lexeme = s.status? name.lexeme
          by_cases hs : (s.status? name.lexeme).isSome
          · rw [← hd hs p rfl, Scope.status?_called (hθ p)]
          · rw [Option.isSome_iff_ne_none, not_not] at hs
            rw [hs, ← Option.not_isSome_iff_eq_none]
            intro h
            obtain ⟨z, hz, he⟩ := Scope.of_status?_called h
            rw [hother p z (hp.names s List.mem_cons_self z hz) he, hs] at hz
            cases hz

theorem Scopes.depth?_of_here? (h : (ss.here? name).isSome) : ss.depth? name = some 0 := by
  cases ss with
  | nil => cases h
  | cons s ss =>
      rw [Scopes.depth?_cons]
      exact if_pos h

theorem lexeme_token (depth : Option Nat) (around : List Path) (name : Token) :
    (θ.token (depth.bind (around[·]?)) name).lexeme =
      (depth.bind ((around.map θ)[·]?)).elim name.lexeme (· name.lexeme) := by
  cases depth with
  | none => rfl
  | some d =>
      rw [Option.bind_some, Option.bind_some, List.getElem?_map]
      cases around[d]? <;> rfl

theorem line_token (scope : Option Path) (name : Token) : (θ.token scope name).line = name.line := by
  cases scope <;> rfl

variable (hθ : θ.Apart N)

include hθ

/-- An occurrence mirrors itself under its scope's name for it, and is found as far out. -/
theorem Naming.Apart.occurrence (hp : Place N ss around) (hn : N name.lexeme) :
    name.Mirrors ss (around.map θ) (ss.depth? name)
        (θ.token ((ss.depth? name).bind (around[·]?)) name) ∧
      (ss.called (around.map θ)).depth? (θ.token ((ss.depth? name).bind (around[·]?)) name) =
        ss.depth? name := by
  have hother (p : Path) (z : String) (hz : N z)
      (he : θ p z = (θ.token ((ss.depth? name).bind (around[·]?)) name).lexeme) :
      z = name.lexeme := by
    cases hs : (ss.depth? name).bind (around[·]?) with
    | none => rw [hs] at he; exact hθ.fresh p z _ hz hn he
    | some q => rw [hs] at he; exact hθ.apart p q z _ hz hn he
  have hscope (d : Nat) (hd : ss.depth? name = some d) (p : Path) (hq : p ∈ around[d]?) :
      θ p name.lexeme = (θ.token ((ss.depth? name).bind (around[·]?)) name).lexeme := by
    rw [hd, Option.bind_some, hq]
    rfl
  refine ⟨⟨line_token _ _, lexeme_token _ _ _, ?_⟩, ?_⟩
  · refine Scopes.here?_called hp hother (fun hs p hq => ?_) hθ.injective
    exact hscope 0 (Scopes.depth?_of_here? hs) p (List.head?_eq_getElem? ▸ hq)
  · exact Scopes.depth?_called hp hother hscope hθ.injective

theorem Naming.Apart.declared (hp : Place N ss around) (name : Token) :
    name.Mirrors ss (around.map θ) (some 0) (θ.token around.head? name) := by
  refine ⟨line_token _ _, ?_, ?_⟩
  · rw [List.head?_eq_getElem?]
    exact lexeme_token (some 0) around name
  · cases ss with
    | nil => cases around <;> rfl
    | cons s ss =>
        cases around with
        | nil => cases hp.length
        | cons p around => exact Scope.status?_called (hθ.injective p) s name.lexeme

theorem Naming.Apart.params {path : Path} {params : List Token} (hn : ∀ t ∈ params, N t.lexeme)
    (hp : Place N ss (path :: around)) :
    Mirrored ((path :: around).map θ) ss params (params.map (θ.token (some path))) := by
  induction params generalizing ss with
  | nil => exact .nil
  | cons p ps ih =>
      have hp' := hp.define (hn p List.mem_cons_self)
      exact .cons (hθ.declared hp p) (ih (fun t ht => hn t (List.mem_cons_of_mem _ ht)) hp')

omit hθ

/-! ### Trees -/

variable {h h' : Hops}

mutual

theorem Naming.Apart.expr (hθ : θ.Apart N) (hp : Place N ss around) : (e e' : Expr) →
    e'.unnumbered = (e.renamed θ ss around).unnumbered → (∀ t ∈ e.names, N t.lexeme) →
    (∀ s ∈ e.sites ss around, h[s.id]? = s.depth? ∧ s.Sound) →
    (∀ s ∈ e'.sites (ss.called (around.map θ)) around, h'[s.id]? = s.depth?) →
    e.Mirrors h h' ss (around.map θ) e'
  | .literal l, e', hu, _, _, _ => by
      rw [show e' = _ from Expr.of_unnumbered hu]
      exact .literal l
  | .grouping e, e', hu, hn, hs, hs' => by
      obtain ⟨e', rfl, he⟩ := Expr.of_unnumbered hu
      exact .grouping (hθ.expr hp e e' he hn hs hs')
  | .unary op e, e', hu, hn, hs, hs' => by
      obtain ⟨e', rfl, he⟩ := Expr.of_unnumbered hu
      exact .unary op (hθ.expr hp e e' he hn hs hs')
  | .binary l op r, e', hu, hn, hs, hs' => by
      obtain ⟨l', r', rfl, hl, hr⟩ := Expr.of_unnumbered hu
      rw [Expr.names, List.forall_mem_append] at hn
      rw [Expr.sites, List.forall_mem_append] at hs hs'
      exact .binary op (hθ.expr hp l l' hl hn.1 hs.1 hs'.1) (hθ.expr hp r r' hr hn.2 hs.2 hs'.2)
  | .logical l op r, e', hu, hn, hs, hs' => by
      obtain ⟨l', r', rfl, hl, hr⟩ := Expr.of_unnumbered hu
      rw [Expr.names, List.forall_mem_append] at hn
      rw [Expr.sites, List.forall_mem_append] at hs hs'
      exact .logical op (hθ.expr hp l l' hl hn.1 hs.1 hs'.1) (hθ.expr hp r r' hr hn.2 hs.2 hs'.2)
  | .read id name, e', hu, hn, hs, hs' => by
      obtain ⟨id', rfl⟩ := Expr.of_unnumbered hu
      obtain ⟨ht, hd⟩ := hθ.occurrence hp (hn name List.mem_cons_self)
      obtain ⟨hid, hsound⟩ := hs _ List.mem_cons_self
      exact .read ⟨ht, hid, (hs' _ List.mem_cons_self).trans hd⟩ (hsound rfl)
  | .assign id name e, e', hu, hn, hs, hs' => by
      obtain ⟨id', e', rfl, he⟩ := Expr.of_unnumbered hu
      obtain ⟨ht, hd⟩ := hθ.occurrence hp (hn name List.mem_cons_self)
      rw [Expr.sites, List.forall_mem_append] at hs hs'
      exact .assign
        ⟨ht, (hs.2 _ List.mem_cons_self).1, (hs'.2 _ List.mem_cons_self).trans hd⟩
        (hθ.expr hp e e' he (fun t ht => hn t (List.mem_cons_of_mem _ ht)) hs.1 hs'.1)
  | .call callee paren args, e', hu, hn, hs, hs' => by
      obtain ⟨callee', args', rfl, hc, ha⟩ := Expr.of_unnumbered hu
      rw [Expr.names, List.forall_mem_append] at hn
      rw [Expr.sites, List.forall_mem_append] at hs hs'
      exact .call paren (hθ.expr hp callee callee' hc hn.1 hs.1 hs'.1)
        (hθ.listExpr hp args args' ha hn.2 hs.2 hs'.2)

theorem Naming.Apart.listExpr (hθ : θ.Apart N) (hp : Place N ss around) : (es es' : List Expr) →
    Expr.listUnnumbered es' = Expr.listUnnumbered (Expr.listRenamed θ ss around es) →
    (∀ t ∈ Expr.listNames es, N t.lexeme) →
    (∀ s ∈ Expr.listSites ss around es, h[s.id]? = s.depth? ∧ s.Sound) →
    (∀ s ∈ Expr.listSites (ss.called (around.map θ)) around es', h'[s.id]? = s.depth?) →
    Expr.ListMirrors h h' ss (around.map θ) es es'
  | [], es', hu, _, _, _ => by
      cases es' with
      | nil => exact .nil
      | cons e' es' => cases hu
  | e :: es, es', hu, hn, hs, hs' => by
      cases es' with
      | nil => cases hu
      | cons e' es' =>
          obtain ⟨he, hes⟩ := List.cons.inj hu
          rw [Expr.listNames, List.forall_mem_append] at hn
          rw [Expr.listSites, List.forall_mem_append] at hs hs'
          exact .cons (hθ.expr hp e e' he hn.1 hs.1 hs'.1)
            (hθ.listExpr hp es es' hes hn.2 hs.2 hs'.2)

end

/-- A name that is called as it was stays as it is. -/
theorem Naming.token_eq {scope : Option Path} (hk : ∀ p ∈ scope, θ p name.lexeme = name.lexeme) :
    θ.token scope name = name := by
  cases scope with
  | none => rfl
  | some p => rw [Naming.token, Option.elim_some, hk p rfl]

/-- Names that no variable or parameter bears are called as they were. -/
def Naming.Keeps (θ : Naming) (N : String → Prop) (p : Path) (entries : List Declared) : Prop :=
  ∀ d ∈ entries, d.isVariable = false → N d.name.lexeme → θ p d.name.lexeme = d.name.lexeme

theorem Naming.keeps_declares {p : Path} {s : Stmt} (hs : s.isDeclaration = false) :
    θ.Keeps N p s.declares := by
  cases s with
  | var | function | classDecl => cases hs
  | _ => exact fun d hd => by cases hd

theorem Naming.Apart.kept (hθ : θ.Apart N) (hp : Place N ss around)
    (hk : ∀ p ∈ around.head?, θ p name.lexeme = name.lexeme) :
    name.Mirrors ss (around.map θ) (some 0) name := by
  have := hθ.declared hp name
  rwa [Naming.token_eq hk] at this

mutual

theorem Naming.Apart.stmt (hθ : θ.Apart N) {ss : Scopes} {around : List Path}
    (hp : Place N ss around) (path : Path) : (s s' : Stmt) → s.Placed → s'.Placed →
    s'.unnumbered = (s.renamed θ ss around path).unnumbered → (∀ t ∈ s.names, N t.lexeme) →
    (∀ p ∈ around.head?, θ.Keeps N p s.declares) →
    (∀ r ∈ s.rosters path, θ.Keeps N r.scope r.entries) →
    (∀ r ∈ s.sites ss around path, h[r.id]? = r.depth? ∧ r.Sound) →
    (∀ r ∈ s'.sites (ss.called (around.map θ)) around path, h'[r.id]? = r.depth?) →
    s.Mirrors h h' ss (around.map θ) s'
  | .expression e, s', _, _, hu, hn, _, _, hs, hs' => by
      obtain ⟨e', rfl, he⟩ := Stmt.of_unnumbered hu
      exact .expression (hθ.expr hp e e' he hn hs hs')
  | .print e, s', _, _, hu, hn, _, _, hs, hs' => by
      obtain ⟨e', rfl, he⟩ := Stmt.of_unnumbered hu
      exact .print (hθ.expr hp e e' he hn hs hs')
  | .var name none, s', _, _, hu, _, _, _, _, _ => by
      rw [show s' = _ from Stmt.of_unnumbered hu]
      exact .declared (hθ.declared hp name)
  | .var name (some e), s', _, _, hu, hn, _, _, hs, hs' => by
      obtain ⟨e', rfl, he⟩ := Stmt.of_unnumbered hu
      have ht := hθ.declared hp name
      rw [Stmt.sites, Scopes.declare, ht.mark] at hs'
      exact .initialized ht (hθ.expr (hp.mark (hn name List.mem_cons_self) _) e e' he
        (fun t ht => hn t (List.mem_cons_of_mem _ ht)) hs hs')
  | .block body, s', hb, hb', hu, hn, _, hr, hs, hs' => by
      obtain ⟨body', rfl, hbody⟩ := Stmt.of_unnumbered hu
      refine .block (hθ.injective path) (hθ.list (hp.push path) path 0 body body' hb hb'
        hbody hn ?_ (fun r hr' => hr r (List.mem_cons_of_mem _ hr')) hs hs')
      rintro p ⟨⟩
      exact hr _ List.mem_cons_self
  | .conditional c yes none, s', hb, hb', hu, hn, _, hr, hs, hs' => by
      obtain ⟨c', yes', rfl, hc, hy⟩ := Stmt.of_unnumbered hu
      rw [Stmt.names, List.forall_mem_append] at hn
      rw [Stmt.sites, List.forall_mem_append] at hs hs'
      exact .conditional (hθ.expr hp c c' hc hn.1 hs.1 hs'.1)
        (hθ.stmt hp (0 :: path) yes yes' hb.1 hb'.1 hy hn.2
          (fun p _ => Naming.keeps_declares hb.2) hr hs.2 hs'.2)
        (ss.after_eq yes hb.1 hb.2)
  | .conditional c yes (some no), s', hb, hb', hu, hn, _, hr, hs, hs' => by
      obtain ⟨c', yes', no', rfl, hc, hy, hno⟩ := Stmt.of_unnumbered hu
      have ha := ss.after_eq yes hb.1.1 hb.1.2
      have ha' := (ss.called (around.map θ)).after_eq yes' hb'.1.1 hb'.1.2
      rw [ha] at hno
      rw [Stmt.names, List.forall_mem_append, List.forall_mem_append] at hn
      rw [Stmt.rosters, List.forall_mem_append] at hr
      rw [Stmt.sites, List.forall_mem_append, List.forall_mem_append] at hs hs'
      rw [ha] at hs
      rw [ha'] at hs'
      exact .alternative (hθ.expr hp c c' hc hn.1.1 hs.1.1 hs'.1.1)
        (hθ.stmt hp (0 :: path) yes yes' hb.1.1 hb'.1.1 hy hn.1.2
          (fun p _ => Naming.keeps_declares hb.1.2) hr.1 hs.1.2 hs'.1.2) ha
        (hθ.stmt hp (1 :: path) no no' hb.2.1 hb'.2.1 hno hn.2
          (fun p _ => Naming.keeps_declares hb.2.2) hr.2 hs.2 hs'.2)
        (ss.after_eq no hb.2.1 hb.2.2)
  | .whileLoop c body, s', hb, hb', hu, hn, _, hr, hs, hs' => by
      obtain ⟨c', body', rfl, hc, hy⟩ := Stmt.of_unnumbered hu
      rw [Stmt.names, List.forall_mem_append] at hn
      rw [Stmt.sites, List.forall_mem_append] at hs hs'
      exact .whileLoop (hθ.expr hp c c' hc hn.1 hs.1 hs'.1)
        (hθ.stmt hp (0 :: path) body body' hb.1 hb'.1 hy hn.2
          (fun p _ => Naming.keeps_declares hb.2) hr hs.2 hs'.2)
        (ss.after_eq body hb.1 hb.2)
  | .function f, s', hb, hb', hu, hn, hd, hr, hs, hs' => by
      obtain ⟨f', rfl, hf⟩ := Stmt.of_unnumbered hu
      have hname : N f.name.lexeme := by
        rw [Stmt.names, Stmt.functionNames_eq] at hn
        exact hn f.name List.mem_cons_self
      have hx : f'.name = f.name := by
        cases f
        obtain ⟨body', rfl, -⟩ := Stmt.of_functionUnnumbered hf
        rfl
      have ht : f.name.Mirrors ss (around.map θ) (some 0) f'.name := by
        rw [hx]
        exact hθ.kept hp fun p hp' => hd p hp' _ List.mem_cons_self rfl hname
      rw [Stmt.sites, ht.define] at hs'
      exact .function ht
        (hθ.function (hp.define hname) path f f' hb hb' hf hn hr hs hs')
  | .returning keyword none, s', _, _, hu, _, _, _, _, _ => by
      rw [show s' = _ from Stmt.of_unnumbered hu]
      exact .returning keyword
  | .returning keyword (some e), s', _, _, hu, hn, _, _, hs, hs' => by
      obtain ⟨e', rfl, he⟩ := Stmt.of_unnumbered hu
      exact .returningValue keyword (hθ.expr hp e e' he hn hs hs')
  | .classDecl name methods, s', hb, hb', hu, hn, hd, hr, hs, hs' => by
      obtain ⟨methods', rfl, hm⟩ := Stmt.of_unnumbered hu
      have hname := hn name List.mem_cons_self
      have ht := hθ.kept hp fun p hp' => hd p hp' _ List.mem_cons_self rfl hname
      rw [Stmt.sites, ht.define] at hs'
      exact .classDecl ht rfl (hθ.methods (hp.define hname) path 0
        methods methods' hb hb' hm (fun t ht => hn t (List.mem_cons_of_mem _ ht)) hr hs hs')
termination_by structural s => s

theorem Naming.Apart.list (hθ : θ.Apart N) {ss : Scopes} {around : List Path}
    (hp : Place N ss around) (path : Path) (i : Nat) : (body body' : List Stmt) →
    Stmt.ListPlaced body → Stmt.ListPlaced body' →
    Stmt.listUnnumbered body' = Stmt.listUnnumbered (Stmt.listRenamed θ ss around path i body) →
    (∀ t ∈ Stmt.listNames body, N t.lexeme) →
    (∀ p ∈ around.head?, θ.Keeps N p (body.flatMap Stmt.declares)) →
    (∀ r ∈ Stmt.listRosters path i body, θ.Keeps N r.scope r.entries) →
    (∀ r ∈ Stmt.listSites ss around path i body, h[r.id]? = r.depth? ∧ r.Sound) →
    (∀ r ∈ Stmt.listSites (ss.called (around.map θ)) around path i body', h'[r.id]? = r.depth?) →
    Stmt.ListMirrors h h' ss (around.map θ) body body'
  | [], body', _, _, hu, _, _, _, _, _ => by
      cases body' with
      | nil => exact .nil
      | cons s' rest' => cases hu
  | s :: rest, body', hb, hb', hu, hn, hd, hr, hs, hs' => by
      cases body' with
      | nil => cases hu
      | cons s' rest' =>
          obtain ⟨hu, hurest⟩ := List.cons.inj hu
          rw [Stmt.listNames, List.forall_mem_append] at hn
          rw [Stmt.listRosters, List.forall_mem_append] at hr
          rw [Stmt.listSites, List.forall_mem_append] at hs hs'
          have hfirst := hθ.stmt hp (i :: path) s s' hb.1 hb'.1 hu hn.1
            (fun p hp' d hd' => hd p hp' d (List.mem_append_left _ hd')) hr.1 hs.1 hs'.1
          rw [hfirst.after] at hs'
          exact .cons hfirst (hθ.list (hp.after hb.1 hn.1) path (i + 1) rest rest' hb.2
            hb'.2 hurest hn.2 (fun p hp' d hd' => hd p hp' d (List.mem_append_right _ hd')) hr.2
            hs.2 hs'.2)
termination_by structural body => body

theorem Naming.Apart.function (hθ : θ.Apart N) {ss : Scopes} {around : List Path}
    (hp : Place N ss around) (path : Path) : (f f' : Function) →
    Stmt.FunctionPlaced f → Stmt.FunctionPlaced f' →
    Stmt.functionUnnumbered f' =
      Stmt.functionUnnumbered (Stmt.functionRenamed θ ss around path f) →
    (∀ t ∈ Stmt.functionNames f, N t.lexeme) →
    (∀ r ∈ Stmt.functionRosters path f, θ.Keeps N r.scope r.entries) →
    (∀ r ∈ Stmt.functionSites ss around path f, h[r.id]? = r.depth? ∧ r.Sound) →
    (∀ r ∈ Stmt.functionSites (ss.called (around.map θ)) around path f', h'[r.id]? = r.depth?) →
    Stmt.FunctionMirrors h h' ss (around.map θ) f f'
  | ⟨name, params, body⟩, f', hb, hb', hu, hn, hr, hs, hs' => by
      obtain ⟨body', rfl, hbody⟩ := Stmt.of_functionUnnumbered hu
      have hn' := List.forall_mem_append.mp (List.forall_mem_cons.mp hn).2
      have hparams := hθ.params hn'.1 (hp.push path)
      have hsites : ([] :: ss.called (around.map θ) : Scopes) =
          Scopes.called ((path :: around).map θ) ([] :: ss) := rfl
      rw [Stmt.functionSites, hsites, hparams.bindParams] at hs'
      refine .intro rfl (hθ.injective path) hparams
        (hθ.list ((hp.push path).bindParams hn'.1) path 0 body body' hb hb' hbody hn'.2 ?_
          (fun r hr' => hr r (List.mem_cons_of_mem _ hr')) hs hs')
      rintro p ⟨⟩ d hd
      exact hr _ List.mem_cons_self d (List.mem_append_right _ hd)
termination_by structural f => f

theorem Naming.Apart.methods (hθ : θ.Apart N) {ss : Scopes} {around : List Path}
    (hp : Place N ss around) (path : Path) (i : Nat) : (fs fs' : List Function) →
    Stmt.MethodsPlaced fs → Stmt.MethodsPlaced fs' →
    Stmt.methodsUnnumbered fs' =
      Stmt.methodsUnnumbered (Stmt.methodsRenamed θ ss around path i fs) →
    (∀ t ∈ Stmt.methodNames fs, N t.lexeme) →
    (∀ r ∈ Stmt.methodRosters path i fs, θ.Keeps N r.scope r.entries) →
    (∀ r ∈ Stmt.methodSites ss around path i fs, h[r.id]? = r.depth? ∧ r.Sound) →
    (∀ r ∈ Stmt.methodSites (ss.called (around.map θ)) around path i fs', h'[r.id]? = r.depth?) →
    Stmt.MethodsMirror h h' ss (around.map θ) fs fs'
  | [], fs', _, _, hu, _, _, _, _ => by
      cases fs' with
      | nil => exact .nil
      | cons f' fs' => cases hu
  | f :: fs, fs', hb, hb', hu, hn, hr, hs, hs' => by
      cases fs' with
      | nil => cases hu
      | cons f' fs' =>
          obtain ⟨hu, hurest⟩ := List.cons.inj hu
          rw [Stmt.methodNames, List.forall_mem_append] at hn
          rw [Stmt.methodRosters, List.forall_mem_append] at hr
          rw [Stmt.methodSites, List.forall_mem_append] at hs hs'
          exact .cons
            (hθ.function hp (i :: path) f f' hb.1 hb'.1 hu hn.1 hr.1 hs.1 hs'.1)
            (hθ.methods hp path (i + 1) fs fs' hb.2 hb'.2 hurest hn.2 hr.2 hs.2 hs'.2)
termination_by structural fs => fs

end

end

/-! ### Names that stay -/

theorem Scope.called_id (s : Scope) : s.called (fun x => x) = s := List.map_id' s

theorem Scopes.called_id {ss : Scopes} {ps : List Path} (hl : ps.length = ss.length) :
    ss.called (ps.map Naming.id) = ss := by
  induction ps generalizing ss with
  | nil =>
      cases ss with
      | nil => rfl
      | cons s ss => cases hl
  | cons p ps ih =>
      cases ss with
      | nil => cases hl
      | cons s ss =>
          rw [Scopes.called, List.map_cons, List.zipWith_cons_cons]
          exact congrArg₂ List.cons s.called_id (ih (Nat.succ.inj hl))

end Lox
