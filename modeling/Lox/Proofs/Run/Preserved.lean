import Lox.Proofs.Run.Steps

/-!
Every run keeps the invariant. The induction is on fuel; what it says of expressions, calls and
statements is put together in `Safe`.
-/

namespace Lox

/-! ### Operators -/

section

variable {T : List Site} {st : Store} {past : Past} {f : RuntimeFault} {v w : Value} {op : Token}

/-- What a unary operator comes to is no function, and its faults are of its own. -/
theorem applyUnary_cases {P : Except RuntimeFault Value → Prop}
    (hok : ∀ u : Value, u.type ≠ .function → P (.ok u))
    (herror : ∀ f : RuntimeFault, (∀ x, f.cause ≠ .undefinedVariable x) → P (.error f)) :
    P (applyUnary op v) := by
  unfold applyUnary negate
  split
  · split
    · exact hok _ (by simp [Value.type])
    · exact herror _ fun x h => by cases h
  · exact hok _ (by simp [Value.type])
  · exact herror _ fun x h => by cases h

theorem onNumbers_cases {g : Float → Float → Except RuntimeFault Value}
    {P : Except RuntimeFault Value → Prop} (hn : ∀ x y, P (g x y))
    (hf : P (.error ⟨op.line, .notNumbers op.lexeme v.type w.type⟩)) : P (onNumbers op g v w) := by
  unfold onNumbers
  split
  · exact hn _ _
  · exact hf

/-- What a binary operator comes to is no function, and its faults are of its own. -/
theorem applyBinary_cases {P : Except RuntimeFault Value → Prop}
    (hok : ∀ u : Value, u.type ≠ .function → P (.ok u))
    (herror : ∀ f : RuntimeFault, (∀ x, f.cause ≠ .undefinedVariable x) → P (.error f)) :
    P (applyBinary op v w) := by
  have herror' (line : Nat) (cause : RuntimeCause) (h : ∀ x, cause ≠ .undefinedVariable x) :
      P (.error ⟨line, cause⟩) := herror _ h
  rw [applyBinary]
  split
  · unfold add
    split
    · exact hok _ (by simp [Value.type])
    · exact hok _ (by simp [Value.type])
    · exact hok _ (by simp [Value.type])
    · exact herror' _ _ fun x h => by cases h
  case h_4 =>
    refine onNumbers_cases (fun x y => ?_) (herror' _ _ fun x h => by cases h)
    rw [divide]
    split
    · exact herror' _ _ fun x h => by cases h
    · exact hok _ (by simp [Value.type])
  case h_9 | h_10 => exact hok _ (by simp [Value.type])
  case h_11 => exact herror' _ _ fun x h => by cases h
  all_goals
    exact onNumbers_cases (fun x y => hok _ (by simp [Value.type])) (herror' _ _ fun x h => by cases h)

theorem fits_of_type (h : v.type ≠ .function) : v.Fits T st past := by
  cases v with
  | native n | closure c => exact absurd rfl h
  | _ => trivial

def Callable.Fits (T : List Site) (st : Store) (past : Past) : Callable → Prop
  | .native n => n = clock
  | .closure c => ∃ ss ps p, c.Stands T st past ss ps p

theorem Callable.Fits.mono {st' : Store} {past' : Past} {c : Callable} (h : c.Fits T st past)
    (hg : st.Grows st') (hk : past.Keeps past') : c.Fits T st' past' := by
  cases c with
  | native n => exact h
  | closure c => exact Value.Fits.mono (v := .closure c) h hg hk

theorem fits_calleeOf {line given : Nat} {c : Callable} (hv : v.Fits T st past)
    (h : calleeOf line v given = .ok c) : c.Fits T st past ∧ c.arity = given := by
  rw [calleeOf] at h
  split at h
  · cases h
  · next c' hc =>
    split at h
    · next ha =>
      cases h
      refine ⟨?_, ha⟩
      cases v <;> cases hc <;> exact hv
    · cases h

theorem cause_calleeOf {line given : Nat} (h : calleeOf line v given = .error f) (x : String) :
    f.cause ≠ .undefinedVariable x := by
  rw [calleeOf] at h
  split at h
  · cases h
    exact fun h => by cases h
  · split at h
    · cases h
    · cases h
      exact fun h => by cases h

end

theorem Stmt.functionSites_eq (ss : Scopes) (around : List Path) (path : Path) (f : Function) :
    Stmt.functionSites ss around path f =
      Stmt.listSites (Scopes.bindParams ([] :: ss) f.params) (path :: around) path 0 f.body := by
  cases f
  rfl

namespace Told

variable (host : Host) (T : List Site)

/-- What a run may rely on and what it gives, with so much fuel. -/
structure Safe (fuel : Nat) : Prop where
  eval : ∀ {t a ss ps e}, t.Valid T → t.At a ss ps → Scopes.Settled ss.tail →
    (∀ s ∈ e.sites ss ps, s ∈ T) →
    Goes T t (eval host fuel a e) fun v t' => v.Fits T t'.machine.store t'.past
  evalAll : ∀ {t a ss ps es}, t.Valid T → t.At a ss ps → Scopes.Settled ss.tail →
    (∀ s ∈ Expr.listSites ss ps es, s ∈ T) →
    Goes T t (evalAll host fuel a es) fun vs t' => ∀ v ∈ vs, v.Fits T t'.machine.store t'.past
  apply : ∀ {t c args line}, t.Valid T → c.Fits T t.machine.store t.past →
    (∀ v ∈ args, v.Fits T t.machine.store t.past) → c.arity = args.length →
    Goes T t (apply host fuel c args line) fun v t' => v.Fits T t'.machine.store t'.past
  exec : ∀ {t a ss ps path s}, t.Valid T → t.At a ss ps → ss.Settled →
    (∀ q ∈ ps, q.length < path.length) → (∀ r ∈ s.sites ss ps path, r ∈ T) → s.Placed →
    Goes T t (exec host fuel a path s) fun flow t' =>
      match flow with
      | .normal => t'.At a (ss.after s) ps
      | .returned v => v.Fits T t'.machine.store t'.past
  execAll : ∀ {t a ss ps path i body}, t.Valid T → t.At a ss ps → ss.Settled →
    (∀ q ∈ ps, q.length ≤ path.length) → (∀ r ∈ Stmt.listSites ss ps path i body, r ∈ T) →
    Stmt.ListPlaced body →
    Goes T t (execAll host fuel a path i body) fun flow t' =>
      match flow with
      | .normal => True
      | .returned v => v.Fits T t'.machine.store t'.past

variable {host T} {fuel : Nat} {t : Tape} {a : Nat} {ss : Scopes} {ps : List Path}

theorem Safe.eval_succ (h : Safe host T fuel) {e : Expr} (hv : t.Valid T) (hat : t.At a ss ps)
    (ht : Scopes.Settled ss.tail) (hs : ∀ s ∈ e.sites ss ps, s ∈ T) :
    Goes T t (Told.eval host (fuel + 1) a e) fun v t' => v.Fits T t'.machine.store t'.past := by
  unfold Told.eval
  cases e with
  | literal l => exact .pure hv (by cases l <;> trivial)
  | grouping e => exact h.eval hv hat ht hs
  | unary op e =>
      refine .bind (h.eval hv hat ht hs) fun v t' hv' _ _ => ?_
      exact applyUnary_cases (P := fun r => Goes T t' (lift (orRaise r)) _)
        (fun u hu => ⟨hv', .refl _, fits_of_type hu⟩)
        fun f hf => Goes.orRaise hv' (fun _ h => by cases h) fun _ x h => by cases h; exact hf x
  | binary l op r =>
      refine .bind (h.eval hv hat ht fun s hs' => hs s (List.mem_append_left _ hs')) ?_
      intro v t' hv' hg _
      refine .bind (h.eval hv' (hat.mono hg) ht fun s hs' => hs s (List.mem_append_right _ hs')) ?_
      intro w t'' hv'' _ _
      exact applyBinary_cases (P := fun r => Goes T t'' (lift (orRaise r)) _)
        (fun u hu => ⟨hv'', .refl _, fits_of_type hu⟩)
        fun f hf => Goes.orRaise hv'' (fun _ h => by cases h) fun _ x h => by cases h; exact hf x
  | logical l op r =>
      refine .bind (h.eval hv hat ht fun s hs' => hs s (List.mem_append_left _ hs')) ?_
      intro v t' hv' hg hfit
      split
      · exact .pure hv' hfit
      · exact h.eval hv' (hat.mono hg) ht fun s hs' => hs s (List.mem_append_right _ hs')
  | read id name =>
      exact Goes.read (s := ⟨id, name, true, ss, ps⟩) hv hat ht (hs _ List.mem_cons_self) rfl
  | assign id name e =>
      refine .bind (h.eval hv hat ht fun s hs' => hs s (List.mem_append_left _ hs')) ?_
      intro v t' hv' hg hfit
      refine .bind (Goes.assign (s := ⟨id, name, false, ss, ps⟩) hv' (hat.mono hg)
        (hs _ (List.mem_append_right _ List.mem_cons_self)) hfit) fun _ t'' hv'' hg' _ => ?_
      exact .pure hv'' (hfit.mono hg'.store hg'.past)
  | call callee paren args =>
      refine .bind (h.eval hv hat ht fun s hs' => hs s (List.mem_append_left _ hs')) ?_
      intro v t₁ hv₁ hg₁ hfit
      refine .bind (h.evalAll hv₁ (hat.mono hg₁) ht fun s hs' =>
        hs s (List.mem_append_right _ hs')) fun vs t₂ hv₂ hg₂ hvs => ?_
      have hfit₂ := hfit.mono hg₂.store hg₂.past
      refine .bind (.orRaise (Q := fun c t' => c.Fits T t'.machine.store t'.past ∧
        (∀ v ∈ vs, v.Fits T t'.machine.store t'.past) ∧ c.arity = vs.length) hv₂ (fun c hc => ?_)
        fun f x hf => cause_calleeOf hf x) fun c t₃ hv₃ _ hc => ?_
      · exact ⟨(fits_calleeOf hfit₂ hc).1, hvs, (fits_calleeOf hfit₂ hc).2⟩
      · refine .asCall hv₃ (fun t₄ hv₄ hg₄ => ?_) fun _ _ _ hQ => hQ
        exact h.apply hv₄ (hc.1.mono hg₄.store hg₄.past)
          (fun v hv => (hc.2.1 v hv).mono hg₄.store hg₄.past) hc.2.2

theorem Safe.evalAll_succ (h : Safe host T fuel) {es : List Expr} (hv : t.Valid T)
    (hat : t.At a ss ps) (ht : Scopes.Settled ss.tail)
    (hs : ∀ s ∈ Expr.listSites ss ps es, s ∈ T) :
    Goes T t (Told.evalAll host (fuel + 1) a es) fun vs t' =>
      ∀ v ∈ vs, v.Fits T t'.machine.store t'.past := by
  unfold Told.evalAll
  cases es with
  | nil => exact .pure hv fun _ h => by cases h
  | cons e es =>
      refine .bind (h.eval hv hat ht fun s hs' => hs s (List.mem_append_left _ hs')) ?_
      intro v t' hv' hg hfit
      refine .bind (h.evalAll hv' (hat.mono hg) ht fun s hs' =>
        hs s (List.mem_append_right _ hs')) fun vs t'' hv'' hg' hvs => .pure hv'' ?_
      rintro w (_ | ⟨_, hw⟩)
      · exact hfit.mono hg'.store hg'.past
      · exact hvs w hw

theorem Goes.callNative {n : Native} {args : List Value} {line : Nat} (hv : t.Valid T)
    (hn : n = clock) : Goes T t (lift (callNative host n args line)) fun v t' =>
      v.Fits T t'.machine.store t'.past := by
  rw [Goes, lift, Lox.callNative]
  simp only [if_pos hn]
  exact ⟨valid_same hv ⟨rfl, rfl, rfl⟩, grows_same ⟨rfl, rfl, rfl⟩ rfl, trivial⟩

theorem Safe.apply_succ (h : Safe host T fuel) {c : Callable} {args : List Value} {line : Nat}
    (hv : t.Valid T) (hc : c.Fits T t.machine.store t.past)
    (hargs : ∀ v ∈ args, v.Fits T t.machine.store t.past) (hl : c.arity = args.length) :
    Goes T t (Told.apply host (fuel + 1) c args line) fun v t' =>
      v.Fits T t'.machine.store t'.past := by
  unfold Told.apply
  cases c with
  | native n => exact .callNative hv hc
  | closure c =>
      obtain ⟨ss, ps, p, hc⟩ := hc
      refine .bind (Goes.enterCall hv hc hargs hl) ?_
      rintro ⟨scope, frame⟩ t₁ hv₁ hg₁ ⟨rfl, hcovers, hlies⟩
      have hplaced := Stmt.functionPlaced_iff.mp hc.placed
      have hbody : ∀ s ∈ Stmt.listSites (Scopes.bindParams ([] :: ss) c.decl.params) (scope :: ps)
          scope 0 c.decl.body, s ∈ T := by
        rw [← Stmt.functionSites_eq]
        exact hc.sites
      have hinner : ∀ q ∈ scope :: ps, q.length ≤ scope.length := by
        rintro q (_ | ⟨_, hq⟩)
        · exact Nat.le_refl _
        · exact Nat.le_of_lt (hc.inner q hq)
      have hrun := h.execAll (t := t₁.moved frame) (valid_same hv₁ ⟨rfl, rfl, rfl⟩)
        ⟨hcovers, hlies, rfl⟩ (hc.settled.push.bindParams _) hinner hbody hplaced
      refine .bind (.within hrun fun flow t' _ hQ => ?_) fun flow t₂ hv₂ _ hQ => ?_
      · cases flow <;> exact hQ
      · cases flow with
        | normal => exact .pure hv₂ trivial
        | returned v => exact .pure hv₂ hQ

/-- What goes on with a value once it has been seen. -/
theorem Safe.seen {α : Type} {Q : α → Tape → Prop} {k : Value → Told α} (h : Safe host T fuel)
    {e : Expr} (hv : t.Valid T) (hat : t.At a ss ps) (ht : Scopes.Settled ss.tail)
    (hs : ∀ s ∈ e.sites ss ps, s ∈ T)
    (hk : ∀ v t', t'.Valid T → t.Grows t' → v.Fits T t'.machine.store t'.past → Goes T t' (k v) Q) :
    Goes T t (do let v ← Told.eval host fuel a e; lift (see v); k v) Q := by
  refine .bind (h.eval hv hat ht hs) fun v t₁ hv₁ hg₁ hfit => ?_
  refine .bind (.see hv₁ v) fun _ t₂ hv₂ hg₂ _ => ?_
  exact hk v t₂ hv₂ (hg₁.trans hg₂) (hfit.mono hg₂.store hg₂.past)

theorem Safe.branch {α : Type} {Q : α → Tape → Prop} {x y : Told α} (h : Safe host T fuel)
    {c : Expr} (hv : t.Valid T) (hat : t.At a ss ps) (ht : Scopes.Settled ss.tail)
    (hs : ∀ s ∈ c.sites ss ps, s ∈ T) (hx : ∀ t', t'.Valid T → t'.At a ss ps → Goes T t' x Q)
    (hy : ∀ t', t'.Valid T → t'.At a ss ps → Goes T t' y Q) :
    Goes T t (do let v ← Told.eval host fuel a c; lift (see v); if v.truthy then x else y) Q := by
  refine h.seen hv hat ht hs fun v t₁ hv₁ hg₁ _ => ?_
  by_cases htrue : v.truthy = true
  · rw [if_pos htrue]
    exact hx t₁ hv₁ (hat.mono hg₁)
  · rw [if_neg htrue]
    exact hy t₁ hv₁ (hat.mono hg₁)

theorem Safe.exec_succ (h : Safe host T fuel) {path : Path} {s : Stmt} (hv : t.Valid T)
    (hat : t.At a ss ps) (hss : ss.Settled) (hp : ∀ q ∈ ps, q.length < path.length)
    (hs : ∀ r ∈ s.sites ss ps path, r ∈ T) (hplaced : s.Placed) :
    Goes T t (Told.exec host (fuel + 1) a path s) fun flow t' =>
      match flow with
      | .normal => t'.At a (ss.after s) ps
      | .returned v => v.Fits T t'.machine.store t'.past := by
  have hinner (i : Nat) : ∀ q ∈ ps, q.length < (i :: path).length :=
    fun q hq => Nat.lt_succ_of_lt (hp q hq)
  unfold Told.exec
  cases s with
  | expression e =>
      exact h.seen hv hat hss.tail hs fun v t₁ hv₁ hg₁ _ => .pure hv₁ (hat.mono hg₁)
  | print e =>
      refine .bind (h.eval hv hat hss.tail hs) fun v t₁ hv₁ hg₁ _ => ?_
      refine .bind (.printLine hv₁ v) fun _ t₂ hv₂ hg₂ _ => .pure hv₂ ?_
      exact hat.mono (hg₁.trans hg₂)
  | var name initial =>
      cases initial with
      | none =>
          exact .bind (Goes.define hv hat name trivial) fun _ t₁ hv₁ _ hat₁ => .pure hv₁ hat₁
      | some e =>
          have hat' : t.At a (ss.declare name) ps :=
            ⟨hat.covers.declare name, hat.lies, hat.current⟩
          have htail : Scopes.Settled (ss.declare name).tail := by
            rw [Scopes.declare, Scopes.tail_mark]
            exact hss.tail
          refine h.seen hv hat' htail hs fun v t₁ hv₁ hg₁ hfit => ?_
          refine .bind (Goes.define hv₁ (hat.mono hg₁) name hfit) fun _ t₂ hv₂ _ hat₂ => ?_
          exact .pure hv₂ hat₂
  | block body =>
      refine .bind (Goes.enterBlock hv hat hp) ?_
      rintro frame t₁ hv₁ hg₁ ⟨hcovers, hlies⟩
      have hinner' : ∀ q ∈ path :: ps, q.length ≤ path.length := by
        rintro q (_ | ⟨_, hq⟩)
        · exact Nat.le_refl _
        · exact Nat.le_of_lt (hp q hq)
      have hrun := h.execAll (t := t₁.moved frame) (valid_same hv₁ ⟨rfl, rfl, rfl⟩)
        ⟨hcovers, hlies, rfl⟩ hss.push hinner' hs hplaced
      refine Goes.mono (.within hrun fun flow t' _ hQ => ?_) fun flow t' hg hQ => ?_
      · cases flow <;> exact hQ
      · cases flow with
        | normal => exact hat.mono (hg₁.trans hg)
        | returned v => exact hQ
  | conditional c yes no =>
      rw [ss.after_eq (.conditional c yes no) hplaced rfl]
      have hc : ∀ s ∈ c.sites ss ps, s ∈ T := fun r hr => hs r <| by
        cases no <;> simp only [Stmt.sites, List.mem_append, hr, true_or]
      have hyes : yes.Placed ∧ yes.isDeclaration = false := by
        cases no with
        | none => exact hplaced
        | some no => exact hplaced.1
      have hafter := ss.after_eq yes hyes.1 hyes.2
      refine h.branch hv hat hss.tail hc (fun t₁ hv₁ hat₁ => ?_) fun t₁ hv₁ hat₁ => ?_
      · have hrun := h.exec hv₁ hat₁ hss (hinner 0) (s := yes) (fun r hr => hs r <| by
          cases no <;> simp only [Stmt.sites, List.mem_append, hr, true_or, or_true]) hyes.1
        rwa [hafter] at hrun
      · cases no with
        | none => exact .pure hv₁ hat₁
        | some no =>
            have hrun := h.exec hv₁ hat₁ hss (hinner 1) (s := no) (fun r hr => hs r <| by
              simp only [Stmt.sites, hafter, List.mem_append, hr, or_true]) hplaced.2.1
            rwa [ss.after_eq no hplaced.2.1 hplaced.2.2] at hrun
  | whileLoop c body =>
      have hloop := ss.after_eq (.whileLoop c body) hplaced rfl
      rw [hloop]
      refine h.branch hv hat hss.tail (fun r hr => hs r (List.mem_append_left _ hr))
        (fun t₁ hv₁ hat₁ => ?_) fun t₁ hv₁ hat₁ => .pure hv₁ hat₁
      refine .bind (h.exec hv₁ hat₁ hss (hinner 0)
        (fun r hr => hs r (List.mem_append_right _ hr)) hplaced.1) fun flow t₂ hv₂ hg₂ hQ => ?_
      cases flow with
      | normal =>
          have hrun := h.exec hv₂ (hat₁.mono hg₂) hss hp hs hplaced
          rwa [hloop] at hrun
      | returned v => exact .pure hv₂ hQ
  | function decl =>
      exact .bind (Goes.declare hv hat hss hp hs hplaced) fun _ t₁ hv₁ _ hat₁ => .pure hv₁ hat₁
  | returning keyword value =>
      cases value with
      | none => exact .pure hv trivial
      | some e => exact h.seen hv hat hss.tail hs fun v t₁ hv₁ _ hfit => .pure hv₁ hfit
  | classDecl name methods => exact .raise hv fun x h => by cases h

theorem Safe.execAll_succ (h : Safe host T fuel) {path : Path} {i : Nat} {body : List Stmt}
    (hv : t.Valid T) (hat : t.At a ss ps) (hss : ss.Settled)
    (hp : ∀ q ∈ ps, q.length ≤ path.length) (hs : ∀ r ∈ Stmt.listSites ss ps path i body, r ∈ T)
    (hplaced : Stmt.ListPlaced body) :
    Goes T t (Told.execAll host (fuel + 1) a path i body) fun flow t' =>
      match flow with
      | .normal => True
      | .returned v => v.Fits T t'.machine.store t'.past := by
  unfold Told.execAll
  cases body with
  | nil => exact .pure hv trivial
  | cons s rest =>
      refine .bind (h.exec hv hat hss (fun q hq => Nat.lt_succ_of_le (hp q hq))
        (fun r hr => hs r (List.mem_append_left _ hr)) hplaced.1) fun flow t₁ hv₁ _ hQ => ?_
      cases flow with
      | normal =>
          exact h.execAll hv₁ hQ (hss.after s) hp (fun r hr => hs r (List.mem_append_right _ hr))
            hplaced.2
      | returned v => exact .pure hv₁ hQ

variable (host T)

theorem safe (fuel : Nat) : Safe host T fuel := by
  induction fuel with
  | zero =>
      refine ⟨fun hv _ _ _ => ?_, fun hv _ _ _ => ?_, fun hv _ _ _ => ?_,
        fun hv _ _ _ _ _ => ?_, fun hv _ _ _ _ _ => ?_⟩
      · rw [Told.eval]
        exact .outOfFuel hv
      · rw [Told.evalAll]
        exact .outOfFuel hv
      · rw [Told.apply]
        exact .outOfFuel hv
      · rw [Told.exec]
        exact .outOfFuel hv
      · rw [Told.execAll]
        exact .outOfFuel hv
  | succ fuel ih =>
      exact ⟨ih.eval_succ, ih.evalAll_succ, ih.apply_succ, ih.exec_succ, ih.execAll_succ⟩

variable {host T}

theorem runAll_goes {path : Path} {i : Nat} {body : List Stmt} (host : Host) (fuel : Nat)
    (hv : t.Valid T) (hc : t.machine.current = globals)
    (hs : ∀ r ∈ Stmt.listSites [] [] path i body, r ∈ T) (hplaced : Stmt.ListPlaced body) :
    Goes T t (runAll host fuel path i body) fun _ _ => True := by
  induction body generalizing t i with
  | nil => exact .pure hv trivial
  | cons s rest ih =>
      have hat : t.At globals [] [] := ⟨.root, .root, hc⟩
      refine .bind ((safe host T fuel).exec hv hat .nil (fun q h => by cases h)
        (fun r hr => hs r (List.mem_append_left _ hr)) hplaced.1) fun _ t₁ hv₁ hg₁ _ => ?_
      refine ih hv₁ (hg₁.current.trans hc) (fun r hr => hs r ?_) hplaced.2
      rw [Stmt.listSites, Scopes.after_nil]
      exact List.mem_append_right _ hr

end Told

end Lox
