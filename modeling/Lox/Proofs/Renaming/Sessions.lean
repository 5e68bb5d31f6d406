import Lox.Proofs.Renaming.Faithful
import Lox.Proofs.Renaming.Lockstep
import Lox.Proofs.Renaming.Tokens
import Lox.Proofs.Run.Chronicle

/-!
Local names do not matter. A session that runs a program with another name for a local variable shows
the same as one that runs the program as it was.
-/

namespace Lox

/-! ### One name for another -/

/-- A variable or a parameter of the scope bears the old name. -/
def Renaming.Applies (r : Renaming) (body : List Stmt) : Prop :=
  ∃ roster ∈ Stmt.listRosters [] 0 body, roster.scope = r.scope ∧
    ∃ d ∈ roster.entries, d.isVariable = true ∧ d.name.lexeme = r.old

instance (r : Renaming) (body : List Stmt) : Decidable (r.Applies body) :=
  inferInstanceAs (Decidable (∃ roster ∈ Stmt.listRosters [] 0 body, roster.scope = r.scope ∧
    ∃ d ∈ roster.entries, d.isVariable = true ∧ d.name.lexeme = r.old))

/-- A token stays, unless it is an identifier of the old name. -/
def Renaming.Respells (r : Renaming) (t t' : Token) : Prop :=
  t' = t ∨ t.kind = .identifier ∧ t.lexeme = r.old ∧ t' = { t with lexeme := r.new }

section

variable {r : Renaming} {p : Path} {x y : String}

theorem Renaming.naming_of_ne (hx : x ≠ r.new) :
    r.naming p x = if p = r.scope ∧ x = r.old then r.new else x := by
  rw [Renaming.naming]
  by_cases hp : p = r.scope
  · by_cases ho : x = r.old
    · rw [if_pos hp, if_pos ho, if_pos ⟨hp, ho⟩]
    · rw [if_pos hp, if_neg ho, if_neg hx, if_neg fun h => ho h.2]
  · rw [if_neg hp, if_neg fun h => hp h.1]

theorem Renaming.naming_injective (r : Renaming) (p : Path) (x y : String)
    (h : r.naming p x = r.naming p y) : x = y := by
  unfold Renaming.naming at h
  by_cases hp : p = r.scope
  · simp only [if_pos hp] at h
    grind
  · simpa only [if_neg hp] using h

theorem Renaming.apart (r : Renaming) : r.naming.Apart (· ≠ r.new) where
  injective := r.naming_injective
  apart p q x y hx hy h := by
    rw [naming_of_ne hx, naming_of_ne hy] at h
    grind
  fresh p x y hx hy h := by
    rw [naming_of_ne hx] at h
    grind

/-- The other names of the scope stay: it declares the old name once only. -/
theorem Renaming.Applies.keeps {body : List Stmt} (ha : r.Applies body)
    (hp : Stmt.ListPlaced body)
    (hf : (Stmt.listFindings false [] body).filterMap Finding.fault? = []) :
    ∀ roster ∈ Stmt.listRosters [] 0 body,
      r.naming.Keeps (· ≠ r.new) roster.scope roster.entries := by
  intro roster hr d hd hvar hne
  obtain ⟨roster', hr', hscope, d', hd', hvar', hold⟩ := ha
  rw [naming_of_ne hne, if_neg]
  rintro ⟨hs, hx⟩
  obtain rfl := List.inj_on_of_nodup_map (Stmt.nodup_listRosters [] 0 body) hr hr'
    (hs.trans hscope.symm)
  have hdistinct := Stmt.listRosters_distinct false [] [] 0 body hp hf roster hr
  obtain rfl := Roster.eq_of_lexeme hdistinct hd hd' (hx.trans hold.symm)
  rw [hvar] at hvar'
  cases hvar'

/-- The tokens of the renamed program are those of the program, but for the one name. -/
theorem Naming.Recalls.respells {t t' : Token} (h : r.naming.Recalls t t')
    (hn : t.kind = .identifier → t.lexeme ≠ r.new) : r.Respells t t' := by
  obtain ⟨scope, rfl, hk⟩ := h
  by_cases hkind : t.kind = .identifier
  · cases scope with
    | none => exact .inl rfl
    | some p =>
        rw [Naming.token, Option.elim_some, Renaming.naming_of_ne (hn hkind)]
        split
        · next h => exact .inr ⟨hkind, h.2, rfl⟩
        · exact .inl rfl
  · exact .inl (hk hkind)

end

/-! ### Sessions side by side -/

theorem Marks.of_lies {w : World} {past : Past} {f : Nat} {ps : List Path}
    (hw : ∀ f, w.label f = fun x => x) (h : Lies w.store past f ps) :
    Marks w f (ps.map Naming.id) := by
  induction h with
  | root => exact .root
  | @inside f g p o ps hl _ _ _ _ ih =>
      have := Marks.inside hl ih
      rwa [hw] at this

/-- What a session holds is alike itself, whatever programs the tables of hops tell of besides. -/
theorem Value.Fits.alike {T : List Site} {w : World} {past : Past} {v : Value}
    (h : v.Fits T w.store past) (hw : ∀ f, w.label f = fun x => x)
    (hr : w.store.enclosing? globals = none) (hs : ∀ s ∈ T, s.Sound)
    (hh : ∀ s ∈ T, w.hops[s.id]? = s.depth?) (hh' : ∀ s ∈ T, w.hops'[s.id]? = s.depth?) :
    v.Alike w v := by
  cases v with
  | nil => exact .nil
  | boolean b => exact .boolean b
  | number x => exact .number x
  | string s => exact .string s
  | native n =>
      obtain rfl : n = clock := h
      exact .clock
  | closure c =>
      obtain ⟨ss, ps, p, h⟩ := h
      have hl := Lies.length_eq hr h.covers h.lies
      have hf : Stmt.FunctionMirrors w.hops w.hops' ss (ps.map Naming.id) c.decl c.decl :=
        Naming.apart_id.function ⟨hl, fun _ _ _ _ => trivial⟩ p c.decl c.decl h.placed h.placed
        (by rw [Stmt.functionRenamed_id]) (fun _ _ => trivial) (fun _ _ _ _ _ _ => rfl)
        (fun s hs' => ⟨hh s (h.sites s hs'), hs s (h.sites s hs')⟩)
        (fun s hs' => hh' s (h.sites s (by rwa [Scopes.called_id hl] at hs')))
      exact .closure ⟨rfl, rfl, ss, _, ⟨h.covers, .of_lies hw h.lies⟩, h.settled, hf⟩

/-- What can be seen of two sessions is the same: the result, the lines, the fault of the program
run last, and every global variable. -/
structure Session.LooksLike (s s' : Session) : Prop where
  result : s'.result = s.result
  printed : s'.machine.printed = s.machine.printed
  lastFault : s'.lastFault = s.lastFault
  globals : ∀ x, (s'.global? x).map Value.text = (s.global? x).map Value.text

namespace Twins

variable {t : Twins}

theorem Valid.result (hv : t.Valid) : t.two.result = t.one.result := by
  rw [Machine.result, Machine.result, hv.last]

theorem Valid.global (hv : t.Valid) (x : String) :
    (t.two.store.get? globals x).map Value.text = (t.one.store.get? globals x).map Value.text := by
  have hroot : t.two.store.enclosing? globals = none := (hv.links _).trans hv.root
  have hpos : 0 < t.two.store.size := by rw [hv.size]; exact hv.pos
  have hvalues := hv.values globals x
  rw [hv.outermost] at hvalues
  rw [Store.get?, Store.get?, Store.binder?_globals_eq hroot hpos,
    Store.binder?_globals_eq hv.root hv.pos, Value.Alike.isSome hvalues]
  split
  · rw [Option.bind_some, Option.bind_some]
    exact Value.Alike.texts hvalues
  · rfl

theorem Valid.looksLike (hv : t.Valid) (i j : Nat) (lastFault : Option RuntimeFault) :
    Session.LooksLike ⟨t.one, i, lastFault⟩ ⟨t.two, j, lastFault⟩ :=
  ⟨hv.result, hv.printed, rfl, hv.global⟩

/-- A machine is its own twin, with whatever else its tables of hops say. -/
theorem valid_of_tape {T : List Site} {past : Past} {m : Machine} {h' : Hops}
    (hv : Tape.Valid T ⟨m, past⟩) (hh' : ∀ s ∈ T, h'[s.id]? = s.depth?) :
    Valid ⟨m, { m with hops := h' }, fun _ x => x⟩ where
  root := hv.root
  pos := hv.size
  size := rfl
  links _ := rfl
  injective _ _ _ h := h
  outermost _ := rfl
  values f x := by
    cases hx : m.store.here? f x with
    | none => exact .none
    | some v =>
        exact .some ((hv.values f x v hx).alike (fun _ => rfl) hv.root hv.sound hv.hops hh')
  current := rfl
  callDepth := rfl
  printed := rfl
  last := rfl
  nextClosure := rfl
  steps := rfl

end Twins

/-- Sessions that are twins end alike when they run programs that mirror each other. -/
theorem Session.interpret_alike (host : Host) (fuel : Nat) {s s' : Session} {label : Nat → Label}
    {body body' : List Stmt} (hv : Twins.Valid ⟨s.ready, s'.ready, label⟩)
    (hb : Stmt.ListMirrors s.machine.hops s'.machine.hops [] [] body body') :
    (s'.interpret host fuel body').1 = (s.interpret host fuel body).1 ∧
      (s.interpret host fuel body).2.LooksLike (s'.interpret host fuel body').2 := by
  unfold Session.interpret
  cases Agree.runAll host fuel hv rfl hb with
  | ok u u' t hx hy hv' =>
      simp only [hx, hy]
      exact ⟨congrArg Outcome.done hv'.result, hv'.looksLike _ _ none⟩
  | error e t hx hy hv' =>
      simp only [hx, hy]
      cases e with
      | fault f => exact ⟨rfl, hv'.looksLike _ _ (some f)⟩
      | outOfFuel => exact ⟨rfl, hv'.looksLike _ _ none⟩

/-! ### Programs with another name -/

/-- The tokens are read without a fault, as the given statements up to identities. -/
def ReadsAs (tokens : List Token) (firstId : Nat) (body : List Stmt) : Prop :=
  ∃ p, Program.ofTokens? tokens firstId = some p ∧ p.faults = [] ∧
    Stmt.listUnnumbered p.statements = Stmt.listUnnumbered body

/-- The program can be written with the new name: its tokens are respelled. -/
theorem Renaming.exists_tokens (r : Renaming) {tokens : List Token} {i : Nat} {p : Program}
    (hp : Program.ofTokens? tokens i = some p) (hf : p.faults = [])
    (hn : ∀ t ∈ tokens, t.kind = .identifier → t.lexeme ≠ r.new) :
    ∃ tokens', List.Forall₂ r.Respells tokens tokens' ∧
      ReadsAs tokens' i (r.program p.statements) := by
  have hd := Grammar.derives_of_ofTokens? hp hf
  obtain ⟨ts', hts, hd'⟩ := hd.recalled r.naming
  obtain ⟨tokens', htokens, rfl⟩ := Grammar.upToEnd_recalled hts
  refine ⟨tokens', ?_, Grammar.ofTokens?_of_derives i hd'⟩
  exact ((List.forall₂_and_left _ _).mpr ⟨hn, htokens⟩).imp fun t t' ht => ht.2.respells ht.1

namespace Chronicle

variable {c : Chronicle} {tokens tokens' : List Token} {p p' : Program} {r : Renaming}

/-- A program and the one with the new name, each with the table of hops that it leaves. -/
theorem Valid.mirrors (h : c.Valid) (hp : Program.ofTokens? tokens c.session.nextId = some p)
    (hf : p.faults = [])
    (hs : (Stmt.listFindings false [] p.statements).filterMap Finding.fault? = [])
    (hp' : Program.ofTokens? tokens' c.session.nextId = some p') (hf' : p'.faults = [])
    (hu : Stmt.listUnnumbered p'.statements = Stmt.listUnnumbered (r.program p.statements))
    (ha : r.Applies p.statements) (hn : ∀ t ∈ tokens, t.kind = .identifier → t.lexeme ≠ r.new) :
    Stmt.ListMirrors
      (c.session.machine.hops.recordAll (Stmt.listFindings false [] p.statements))
      (c.session.machine.hops.recordAll (Stmt.listFindings false [] p'.statements))
      [] [] p.statements p'.statements := by
  have hd := Grammar.derives_of_ofTokens? hp hf
  have hplaced := hd.placed
  have hplaced' := (Grammar.derives_of_ofTokens? hp' hf').placed
  refine r.apart.list .nil [] 0 p.statements p'.statements hplaced hplaced' hu (fun t ht => ?_)
    (fun q hq => by cases hq) (ha.keeps hplaced hs)
    (fun q hq => ⟨h.recorded hp hq, Stmt.sound_of_mem hs hq⟩) fun q hq => h.recorded hp' hq
  obtain ⟨hmem, hkind⟩ := hd.named t ht
  exact hn t (List.takeWhile_subset _ hmem) hkind

/-- The names of a scope are changed in the occurrences that the table of hops binds to it. -/
theorem Valid.named_sites (h : c.Valid) (hp : Program.ofTokens? tokens c.session.nextId = some p) :
    (Stmt.listSites [] [] [] 0 (r.program p.statements)).map Site.named =
      (Stmt.listSites [] [] [] 0 p.statements).map fun o => (o.id, r.naming.token
        (((c.session.machine.hops.recordAll
          (Stmt.listFindings false [] p.statements))[o.id]?).bind (o.around[·]?)) o.name) := by
  rw [Renaming.program, Stmt.named_listSites]
  apply List.map_congr_left
  intro o ho
  rw [Site.renamed, Site.scope?, h.recorded hp ho]

end Chronicle

/-- A local variable or a parameter may bear another name, which the program does not use yet. It is
changed in the occurrences that the table of hops binds to the scope; the program can be written so,
and however it is written so, it may be run as before and every run of it from the same session
shows the same. -/
theorem local_names_do_not_matter (runs : List Run) (r : Renaming) {tokens : List Token}
    {body : List Stmt} {s : Session}
    (h : (Session.after runs).accept tokens = (.ok body, s)) (ha : r.Applies body)
    (hn : ∀ t ∈ tokens, t.kind = .identifier → t.lexeme ≠ r.new) :
    (Stmt.listSites [] [] [] 0 (r.program body)).map Site.named =
      (Stmt.listSites [] [] [] 0 body).map (fun o =>
        (o.id, r.naming.token ((s.machine.hops[o.id]?).bind (o.around[·]?)) o.name)) ∧
    (∃ tokens', List.Forall₂ r.Respells tokens tokens' ∧
      ReadsAs tokens' (Session.after runs).nextId (r.program body)) ∧
    ∀ tokens', ReadsAs tokens' (Session.after runs).nextId (r.program body) →
      (∃ body' s', (Session.after runs).accept tokens' = (.ok body', s') ∧
        Stmt.listUnnumbered body' = Stmt.listUnnumbered (r.program body)) ∧
      ∀ host fuel,
        ((Session.after runs).runTokens host fuel tokens').1 =
          ((Session.after runs).runTokens host fuel tokens).1 ∧
        ((Session.after runs).runTokens host fuel tokens).2.LooksLike
          ((Session.after runs).runTokens host fuel tokens').2 := by
  obtain ⟨p, hp, hf, rfl, hs⟩ := Session.accept_ok h
  have hnone : (Stmt.listFindings false [] p.statements).filterMap Finding.fault? = [] :=
    congrArg Prod.fst hs
  have hv := Chronicle.valid_after runs
  rw [← Chronicle.session_after] at h hp hs ⊢
  refine ⟨?_, r.exists_tokens hp hf hn, ?_⟩
  · obtain rfl : (Session.settle p _).2 = s := congrArg Prod.snd hs
    exact hv.named_sites hp
  rintro tokens' ⟨p', hp', hf', hu⟩
  have hb := hv.mirrors hp hf hnone hp' hf' hu ha hn
  have haccept := Session.accept_eq hp hf hnone
  have haccept' := Session.accept_eq hp' hf' (hb.faultless hnone)
  refine ⟨⟨_, _, haccept', hu⟩, fun host fuel => ?_⟩
  unfold Session.runTokens
  rw [haccept, haccept']
  have hfresh := Grammar.fresh_of_ofTokens? hp
  have hfresh' := Grammar.fresh_of_ofTokens? hp'
  have htape := (hv.settle hfresh.1 hfresh.2).tape
  have htape' := (hv.settle hfresh'.1 hfresh'.2).tape
  have hready : Tape.Valid (Chronicle.after runs).sites
      ⟨(Session.settle p { (Chronicle.after runs).session with nextId := p.nextId }).2.ready,
        (Chronicle.after runs).past⟩ := Told.valid_same htape ⟨rfl, rfl, rfl⟩
  exact Session.interpret_alike host fuel (Twins.valid_of_tape hready htape'.hops) hb

/-- A function that returns a variable of the outer block, and behind it a variable of the same name
in the inner block. -/
def laterLocal : List Token :=
  (Source.items ("\x7bvar a = true;" ++
    "\x7bfun f() \x7breturn a;\x7d var a = false; print f();\x7d\x7d")).filterMap
    Source.Item.token?

/-- The later variable is not the one that the function returns, so it may be called otherwise. -/
theorem later_local_does_not_matter :
    ∃ body s, (Session.after []).accept laterLocal = (.ok body, s) ∧
      Renaming.Applies ⟨[1, 0], "a", "b"⟩ body ∧
      (∀ t ∈ laterLocal, t.kind = .identifier → t.lexeme ≠ "b") ∧
      ∃ tokens', List.Forall₂ (Renaming.Respells ⟨[1, 0], "a", "b"⟩) laterLocal tokens' ∧
        ∀ host fuel,
          ((Session.after []).runTokens host fuel tokens').1 =
            ((Session.after []).runTokens host fuel laterLocal).1 ∧
          ((Session.after []).runTokens host fuel laterLocal).2.LooksLike
            ((Session.after []).runTokens host fuel tokens').2 := by
  have haccept : ∃ body ∈ ((Session.after []).accept laterLocal).1.toOption,
      Renaming.Applies ⟨[1, 0], "a", "b"⟩ body := by decide +kernel
  have hn : ∀ t ∈ laterLocal, t.kind = .identifier → t.lexeme ≠ "b" := by decide +kernel
  obtain ⟨body, hbody, ha⟩ := haccept
  have hok : (Session.after []).accept laterLocal =
      (.ok body, ((Session.after []).accept laterLocal).2) := by
    refine Prod.ext ?_ rfl
    cases hr : ((Session.after []).accept laterLocal).1 with
    | error o => rw [hr] at hbody; cases hbody
    | ok body' => rw [hr] at hbody; cases hbody; rfl
  obtain ⟨-, ⟨tokens', hspelled, hread⟩, hsame⟩ :=
    local_names_do_not_matter [] ⟨[1, 0], "a", "b"⟩ hok ha hn
  exact ⟨body, _, hok, ha, hn, tokens', hspelled, (hsame tokens' hread).2⟩

end Lox
