import Lox.Proofs.Copy.Layout

/-!
Programs apart from their lines. Two programs that differ in lines and identities only show the same
apart from lines, and so does whatever is run after them: without its lines, the run of the one is a
copy of the run of the other.
-/

namespace Lox

def Token.lineless (t : Token) : Token := t.relined fun _ => 0

/-- An expression apart from lines and identities. -/
def Expr.lineless (e : Expr) : Expr := (e.relined fun _ => 0).unnumbered

def Expr.listLineless (es : List Expr) : List Expr :=
  Expr.listUnnumbered (Expr.listRelined (fun _ => 0) es)

/-- A statement apart from lines and identities. -/
def Stmt.lineless (s : Stmt) : Stmt := (s.relined fun _ => 0).unnumbered

def Stmt.listLineless (ss : List Stmt) : List Stmt :=
  Stmt.listUnnumbered (Stmt.listRelined (fun _ => 0) ss)

def Stmt.functionLineless (f : Function) : Function :=
  Stmt.functionUnnumbered (Stmt.functionRelined (fun _ => 0) f)

def Stmt.methodsLineless (fs : List Function) : List Function :=
  Stmt.methodsUnnumbered (Stmt.methodsRelined (fun _ => 0) fs)

theorem Stmt.ListCopy.lineless {k : Copying} {ss ss' : List Stmt} (h : Stmt.ListCopy k ss ss') :
    Stmt.listLineless ss' = Stmt.listLineless ss := h.relined fun _ => 0

theorem Stmt.listLineless_of_unnumbered {ss ss' : List Stmt}
    (h : Stmt.listUnnumbered ss' = Stmt.listUnnumbered ss) :
    Stmt.listLineless ss' = Stmt.listLineless ss := (Stmt.listCopy_of_unnumbered ss ss' h).lineless

/-! ### Copies with other lines -/

section

variable {k : Copying} {g : Nat → Nat}

mutual

/-- A copy may be given other lines again. -/
theorem Expr.Copy.then_relined {e e' : Expr} : e.Copy k e' →
    e.Copy ⟨k.same, fun l => g (k.line l)⟩ (e'.relined g)
  | .literal l => .literal l
  | .grouping he => .grouping he.then_relined
  | .unary op he => .unary op he.then_relined
  | .binary op hl hr => .binary op hl.then_relined hr.then_relined
  | .logical op hl hr => .logical op hl.then_relined hr.then_relined
  | .read name hid => .read name hid
  | .assign name hid he => .assign name hid he.then_relined
  | .call paren hc ha => .call paren hc.then_relined ha.then_relined

theorem Expr.ListCopy.then_relined {es es' : List Expr} : Expr.ListCopy k es es' →
    Expr.ListCopy ⟨k.same, fun l => g (k.line l)⟩ es (Expr.listRelined g es')
  | .nil => .nil
  | .cons he hes => .cons he.then_relined hes.then_relined

end

mutual

theorem Stmt.Copy.then_relined {s s' : Stmt} : s.Copy k s' →
    s.Copy ⟨k.same, fun l => g (k.line l)⟩ (s'.relined g)
  | .expression he => .expression he.then_relined
  | .print he => .print he.then_relined
  | .declared name => .declared name
  | .initialized name he => .initialized name he.then_relined
  | .block hb => .block hb.then_relined
  | .conditional hc hy => .conditional hc.then_relined hy.then_relined
  | .alternative hc hy hn => .alternative hc.then_relined hy.then_relined hn.then_relined
  | .whileLoop hc hb => .whileLoop hc.then_relined hb.then_relined
  | .function hf => .function hf.then_relined
  | .returning keyword => .returning keyword
  | .returningValue keyword he => .returningValue keyword he.then_relined
  | .classDecl name hm => .classDecl name hm.then_relined

theorem Stmt.ListCopy.then_relined {ss ss' : List Stmt} : Stmt.ListCopy k ss ss' →
    Stmt.ListCopy ⟨k.same, fun l => g (k.line l)⟩ ss (Stmt.listRelined g ss')
  | .nil => .nil
  | .cons hs hss => .cons hs.then_relined hss.then_relined

theorem Stmt.FunctionCopy.then_relined {f f' : Function} : Stmt.FunctionCopy k f f' →
    Stmt.FunctionCopy ⟨k.same, fun l => g (k.line l)⟩ f (Stmt.functionRelined g f')
  | .intro name params hb => by
      rw [Stmt.functionRelined, List.map_map]
      exact .intro name params hb.then_relined

theorem Stmt.MethodsCopy.then_relined {fs fs' : List Function} : Stmt.MethodsCopy k fs fs' →
    Stmt.MethodsCopy ⟨k.same, fun l => g (k.line l)⟩ fs (Stmt.methodsRelined g fs')
  | .nil => .nil
  | .cons hf hfs => .cons hf.then_relined hfs.then_relined

end

theorem Value.Copy.then_relined {v v' : Value} (h : v.Copy k v') :
    v.Copy ⟨k.same, fun l => g (k.line l)⟩ (v'.relined g) := by
  cases h with
  | nil => exact .nil
  | boolean b => exact .boolean b
  | number x => exact .number x
  | string s => exact .string s
  | clock => exact .clock
  | closure h => exact .closure ⟨h.id, h.frame, h.decl.then_relined⟩

theorem Value.Copy.then_map_relined {o o' : Option Value} (h : Option.Rel (Value.Copy k) o o') :
    Option.Rel (Value.Copy ⟨k.same, fun l => g (k.line l)⟩) o (o'.map (Value.relined g)) := by
  cases h with
  | none => exact .none
  | some h => exact .some h.then_relined

theorem Machine.Copy.then_relined {m m' : Machine} (h : m.Copy k m') :
    m.Copy ⟨k.same, fun l => g (k.line l)⟩ (m'.relined g) where
  store := by
    refine ⟨?_, fun frame => ?_, fun frame x => ?_⟩
    · rw [Machine.relined, Store.size_relined, h.store.size]
    · rw [Machine.relined, Store.enclosing?_relined, h.store.links]
    · rw [Machine.relined, Store.here?_relined]
      exact Value.Copy.then_map_relined (h.store.values frame x)
  hops := h.hops
  current := h.current
  callDepth := h.callDepth
  printed := h.printed
  last := Value.Copy.then_map_relined h.last
  nextClosure := h.nextClosure
  steps := h.steps

mutual

/-- Other lines leave identities as they are. -/
theorem Expr.ids_relined : (e : Expr) → (e.relined g).ids = e.ids
  | .literal _ | .read _ _ => rfl
  | .grouping e | .unary _ e => Expr.ids_relined e
  | .binary l _ r | .logical l _ r => congrArg₂ (· ++ ·) (Expr.ids_relined l) (Expr.ids_relined r)
  | .assign id _ e => congrArg (· ++ [id]) (Expr.ids_relined e)
  | .call callee _ args => congrArg₂ (· ++ ·) (Expr.ids_relined callee) (Expr.listIds_relined args)

theorem Expr.listIds_relined : (es : List Expr) →
    Expr.listIds (Expr.listRelined g es) = Expr.listIds es
  | [] => rfl
  | e :: es => congrArg₂ (· ++ ·) (Expr.ids_relined e) (Expr.listIds_relined es)

end

mutual

theorem Stmt.ids_relined : (s : Stmt) → (s.relined g).ids = s.ids
  | .expression e | .print e | .var _ (some e) | .returning _ (some e) => Expr.ids_relined e
  | .var _ none | .returning _ none => rfl
  | .block body => Stmt.listIds_relined body
  | .conditional c yes none => congrArg₂ (· ++ ·) (Expr.ids_relined c) (Stmt.ids_relined yes)
  | .conditional c yes (some no) => by
      rw [Stmt.relined, Stmt.ids, Stmt.ids, Expr.ids_relined, Stmt.ids_relined yes,
        Stmt.ids_relined no]
  | .whileLoop c body => congrArg₂ (· ++ ·) (Expr.ids_relined c) (Stmt.ids_relined body)
  | .function f => Stmt.functionIds_relined f
  | .classDecl _ methods => Stmt.methodIds_relined methods

theorem Stmt.listIds_relined : (ss : List Stmt) →
    Stmt.listIds (Stmt.listRelined g ss) = Stmt.listIds ss
  | [] => rfl
  | s :: ss => congrArg₂ (· ++ ·) (Stmt.ids_relined s) (Stmt.listIds_relined ss)

theorem Stmt.functionIds_relined : (f : Function) →
    Stmt.functionIds (Stmt.functionRelined g f) = Stmt.functionIds f
  | ⟨_, _, body⟩ => Stmt.listIds_relined body

theorem Stmt.methodIds_relined : (fs : List Function) →
    Stmt.methodIds (Stmt.methodsRelined g fs) = Stmt.methodIds fs
  | [] => rfl
  | f :: fs => congrArg₂ (· ++ ·) (Stmt.functionIds_relined f) (Stmt.methodIds_relined fs)

end

end

/-! ### Programs and sessions without lines -/

def Program.lineless (p : Program) : Program :=
  { p with
    statements := Stmt.listRelined (fun _ => 0) p.statements
    faults := p.faults.map (Fault.relined fun _ => 0) }

def Session.lineless (s : Session) : Session :=
  { s with
    machine := s.machine.relined fun _ => 0
    lastFault := s.lastFault.map (Fault.relined fun _ => 0) }

/-- Programs that are the same apart from lines and identities. -/
structure Program.Alike (p p' : Program) : Prop where
  statements : Stmt.listLineless p'.statements = Stmt.listLineless p.statements
  faults : p'.faults.map (Fault.relined fun _ => 0) = p.faults.map (Fault.relined fun _ => 0)

namespace Program

variable {p p' : Program} {s : Session}

theorem copy_lineless (p : Program) : p.Copy (fun _ => 0) p.lineless :=
  ⟨(Stmt.listCopy_of_unnumbered p.statements p.statements rfl).then_relined (g := fun _ => 0), rfl⟩

theorem Alike.copy (h : p.Alike p') : p.lineless.Copy (fun l => l) p'.lineless :=
  ⟨Stmt.listCopy_of_unnumbered _ _ h.statements, h.faults.trans (List.map_id _).symm⟩

theorem Copy.alike {f : Nat → Nat} (h : p.Copy f p') : p.Alike p' :=
  ⟨h.statements.lineless, by rw [h.faults, List.map_map]; rfl⟩

theorem NewTo.lineless (h : p.NewTo s) {t : Session} (ht : t.nextId = s.nextId) :
    p.lineless.NewTo t := by
  refine ⟨ht ▸ h.above, ?_⟩
  rw [Program.lineless, Stmt.listIds_relined, ht]
  exact h.fresh

end Program

/-- Sessions that are the same apart from lines and identities. -/
structure Session.Alike (s s' : Session) : Prop where
  through : ∃ t t' R R' S, s.Copy ⟨R, fun _ => 0⟩ t ∧ t.Copy (.inPlace S) t' ∧
    s'.Copy ⟨R', fun _ => 0⟩ t' ∧ t.nextId = s.nextId ∧ t'.nextId = s'.nextId

theorem Session.Alike.refl {same : Nat → Nat → Prop} {s : Session} (h : s.Copy (.inPlace same) s) :
    s.Alike s := by
  have hcopy : s.Copy ⟨same, fun _ => 0⟩ s.lineless :=
    { h with machine := h.machine.then_relined (g := fun _ => 0), lastFault := rfl }
  refine ⟨s.lineless, s.lineless, same, same, same, hcopy, ?_, hcopy, rfl, rfl⟩
  exact { hcopy with
    machine := hcopy.machine.of_relined (g := fun l => l)
    lastFault := Option.map_id'.symm }

/-! ### Runs -/

/-- Runs a program that was read already. -/
def Session.runRead (host : Host) (fuel : Nat) (p : Program) (s : Session) : Outcome × Session :=
  match s.receive p with
  | (.error o, s) => (o, s)
  | (.ok body, s) => s.interpret host fuel body

theorem Session.runTokens_eq_runRead (host : Host) (fuel : Nat) {s : Session} {tokens : List Token}
    {p : Program} (h : Program.ofTokens? tokens s.nextId = some p) :
    s.runTokens host fuel tokens = s.runRead host fuel p := by
  rw [Session.runTokens, Session.accept_eq_receive h]
  rfl

theorem Session.nextId_runRead (host : Host) (fuel : Nat) (p : Program) (s : Session) :
    (s.runRead host fuel p).2.nextId = p.nextId := by
  rw [Session.runRead, Session.receive]
  cases p.faults with
  | cons f fs => rfl
  | nil =>
      simp only [Session.settle]
      cases (Stmt.listFindings false [] p.statements).filterMap Finding.fault? with
      | nil => exact Session.nextId_interpret host fuel _ _
      | cons f fs => rfl

theorem Session.Copy.runRead {k : Copying} {s s' : Session} {p p' : Program} (h : s.Copy k s')
    (hp : p.NewTo s) (hp' : p'.NewTo s') (hcopy : p.Copy k.line p') (host : Host) (fuel : Nat) :
    ∃ same, RunsAlike ⟨same, k.line⟩ (s.runRead host fuel p) (s'.runRead host fuel p') := by
  obtain ⟨⟨same, line⟩, hk, hreceive⟩ := h.receive hp hp' hcopy
  obtain rfl : line = k.line := hk.line
  refine ⟨same, ?_⟩
  unfold Session.runRead
  generalize s.receive p = r, s'.receive p' = r' at hreceive ⊢
  cases hreceive with
  | ok hb h => exact h.interpret host fuel hb
  | error h => exact ⟨rfl, h⟩

theorem RunsAlike.lineless {k : Copying} {r r' : Outcome × Session} (h : RunsAlike k r r') :
    (showing r').lineless = (showing r).lineless := h.shows.relined fun _ => 0

namespace Session.Alike

variable {s s' : Session} {p p' : Program}

/-- Programs that are alike show the same in sessions that are, and leave such sessions behind. -/
theorem runRead (h : s.Alike s') (hp : p.NewTo s) (hp' : p'.NewTo s') (ha : p.Alike p')
    (host : Host) (fuel : Nat) :
    (Lox.showing (s'.runRead host fuel p')).lineless =
        (Lox.showing (s.runRead host fuel p)).lineless ∧
      (s.runRead host fuel p).2.Alike (s'.runRead host fuel p').2 := by
  obtain ⟨t, t', R, R', S, hst, htt, hst', ht, ht'⟩ := h.through
  have hpt := hp.lineless ht
  have hpt' := hp'.lineless ht'
  obtain ⟨R, hout⟩ := hst.runRead hp hpt p.copy_lineless host fuel
  obtain ⟨S, hin⟩ := htt.runRead hpt hpt' ha.copy host fuel
  obtain ⟨R', hout'⟩ := hst'.runRead hp' hpt' p'.copy_lineless host fuel
  have hshow := (hout'.lineless.symm.trans hin.lineless).trans hout.lineless
  refine ⟨hshow, _, _, R, R', S, hout.session, hin.session, hout'.session, ?_, ?_⟩
  · rw [Session.nextId_runRead, Session.nextId_runRead]
    rfl
  · rw [Session.nextId_runRead, Session.nextId_runRead]
    rfl

theorem showing (h : s.Alike s') (o : Outcome) :
    (Lox.showing (o, s')).lineless = (Lox.showing (o, s)).lineless := by
  obtain ⟨t, t', R, R', S, hst, htt, hst', -, -⟩ := h.through
  have hout : RunsAlike ⟨R, fun _ => 0⟩ (o, s) (o.relined fun _ => 0, t) := ⟨rfl, hst⟩
  have hin : RunsAlike (.inPlace S) (o.relined fun _ => 0, t) (o.relined fun _ => 0, t') :=
    ⟨(Outcome.relined_id _).symm, htt⟩
  have hout' : RunsAlike ⟨R', fun _ => 0⟩ (o, s') (o.relined fun _ => 0, t') := ⟨rfl, hst'⟩
  exact (hout'.lineless.symm.trans hin.lineless).trans hout.lineless

/-- So does a source text, whichever of the sessions it is run in. -/
theorem run (h : s.Alike s') (host : Host) (fuel : Nat) (source : String) :
    (Lox.showing (s'.run host fuel source)).lineless =
        (Lox.showing (s.run host fuel source)).lineless ∧
      (s.run host fuel source).2.Alike (s'.run host fuel source).2 := by
  rcases hf : Source.faults source with _ | ⟨f, fs⟩
  · rw [Session.run_eq host fuel hf, Session.run_eq host fuel hf]
    have hread := Program.ofTokens?_relined (fun l => l) (Source.tokens_ne_nil source) s.nextId
      s'.nextId
    rw [show (Source.tokens source).map (Token.relined fun l => l) = Source.tokens source from
      List.map_id _] at hread
    generalize hp : Program.ofTokens? (Source.tokens source) s.nextId = o,
      hp' : Program.ofTokens? (Source.tokens source) s'.nextId = o' at hread
    cases hread with
    | some hcopy =>
        rw [Session.runTokens_eq_runRead host fuel hp, Session.runTokens_eq_runRead host fuel hp']
        exact h.runRead (Program.newTo_of_ofTokens? hp) (Program.newTo_of_ofTokens? hp')
          hcopy.alike host fuel
    | none =>
        have hnone {s : Session} (hp : Program.ofTokens? (Source.tokens source) s.nextId = none) :
            s.runTokens host fuel (Source.tokens source) = (.unfinished, s) := by
          rw [Session.runTokens, Session.accept, Session.read?, hp]
          rfl
        rw [hnone hp, hnone hp']
        exact ⟨h.showing _, h⟩
  · have hfail (s : Session) : s.run host fuel source = (.failed (.lex (f :: fs)), s) := by
      rw [Source.faults] at hf
      rw [Session.run]
      simp only [hf]
    rw [hfail, hfail]
    exact ⟨h.showing _, h⟩

end Session.Alike

/-- What source texts show that are run one after another, apart from lines. -/
def Session.shows : List Run → Session → List Showing
  | [], _ => []
  | r :: runs, s =>
    (showing (s.run r.host r.fuel r.source)).lineless ::
      Session.shows runs (s.run r.host r.fuel r.source).2

theorem Session.Alike.shows {s s' : Session} (h : s.Alike s') (runs : List Run) :
    s'.shows runs = s.shows runs := by
  induction runs generalizing s s' with
  | nil => rfl
  | cons r runs ih =>
      obtain ⟨hshow, hnext⟩ := h.run r.host r.fuel r.source
      rw [Session.shows, Session.shows, hshow, ih hnext]

end Lox
