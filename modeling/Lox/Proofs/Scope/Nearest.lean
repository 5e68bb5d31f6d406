import Lox.Proofs.Scope.Exact

/-!
Every occurrence of a variable is settled once, at the nearest declaration of its name that was met
before. Behind a statement the scopes are those before it, save for the names that the statement
declares.
-/

namespace Lox

variable {ms : List Mention} {around : List Enclosure} {ss : Scopes} {name : Token}

/-! ### Hops -/

/-- Whether a finding settles the occurrence with the identity. -/
def Finding.settles (id : Nat) : Finding → Bool
  | .settled i _ _ => i = id
  | .fault _ => false

theorem Mention.filter_settles_findings (id : Nat) (before : List Mention) (m : Mention) :
    (m.findings before).filter (Finding.settles id) =
      if m.id? = some id then [.settled id m.token.lexeme (m.depth? before)] else [] := by
  have hfault : ((m.fault? before).toList.map Finding.fault).filter (Finding.settles id) = [] := by
    cases m.fault? before <;> rfl
  rw [Mention.findings, List.filter_append, hfault, List.nil_append]
  cases hm : m.id? with
  | none => rfl
  | some i =>
      by_cases hi : i = id
      · simp [Finding.settles, hi]
      · simp [Finding.settles, hi]

theorem filter_settles_findingsAfter {id : Nat} {before ms : List Mention}
    (h : id ∉ ms.filterMap Mention.id?) :
    (findingsAfter before ms).filter (Finding.settles id) = [] := by
  induction ms generalizing before with
  | nil => rfl
  | cons m ms ih =>
      have hm : m.id? ≠ some id := fun hm => h (List.mem_filterMap.mpr ⟨m, List.mem_cons_self, hm⟩)
      have hms : id ∉ ms.filterMap Mention.id? := by
        intro hid
        obtain ⟨n, hn, hid⟩ := List.mem_filterMap.mp hid
        exact h (List.mem_filterMap.mpr ⟨n, List.mem_cons_of_mem _ hn, hid⟩)
      rw [findingsAfter, List.filter_append, Mention.filter_settles_findings, if_neg hm, ih hms]
      rfl

/-- Where identities are distinct, the one finding on an occurrence is that where it is met. -/
theorem filter_settles_walk {body : List Stmt} (hn : (Stmt.listIds body).Nodup) {i id : Nat}
    {m : Mention} (hm : (Stmt.walk body)[i]? = some m) (hid : m.id? = some id) :
    (Stmt.listFindings false [] body).filter (Finding.settles id) =
      [.settled id m.token.lexeme (m.depth? ((Stmt.walk body).take i))] := by
  obtain ⟨hi, hget⟩ := List.getElem?_eq_some_iff.mp hm
  have hsplit : Stmt.walk body =
      (Stmt.walk body).take i ++ m :: (Stmt.walk body).drop (i + 1) := by
    rw [← hget, List.getElem_cons_drop, List.take_append_drop]
  have hids : ((Stmt.walk body).filterMap Mention.id?).Nodup := by
    rw [Stmt.walk, Stmt.filterMap_id_listMentions]
    exact hn
  rw [hsplit, List.filterMap_append, List.filterMap_cons_some hid] at hids
  obtain ⟨-, hlater, hdisjoint⟩ := List.nodup_append.mp hids
  have hbefore : id ∉ ((Stmt.walk body).take i).filterMap Mention.id? :=
    fun h => hdisjoint id h id List.mem_cons_self rfl
  have hafter := (List.nodup_cons.mp hlater).1
  rw [Stmt.listFindings_walk]
  conv => lhs; rw [hsplit]
  rw [findingsAfter_append, findingsAfter, List.filter_append, List.filter_append,
    filter_settles_findingsAfter hbefore, filter_settles_findingsAfter hafter,
    Mention.filter_settles_findings, if_pos hid]
  rfl

/-- What the table says of an occurrence depends on the findings that settle it. -/
theorem Hops.getElem?_recordAll {t t' : Hops} {id : Nat} (h : t[id]? = t'[id]?)
    (fs : List Finding) :
    (t.recordAll fs)[id]? = (t'.recordAll (fs.filter (Finding.settles id)))[id]? := by
  induction fs generalizing t t' with
  | nil => exact h
  | cons f fs ih =>
      rw [List.filter_cons]
      split
      · next hf =>
        refine ih ?_
        rcases f with ⟨i, _, _ | d⟩ | _
        · exact h
        · obtain rfl : i = id := of_decide_eq_true hf
          simp [Finding.record]
        · cases hf
      · next hf =>
        refine ih ?_
        rcases f with ⟨i, _, _ | d⟩ | _
        · exact h
        · have hne : i ≠ id := fun hi => hf (decide_eq_true hi)
          simp [Finding.record, Std.TreeMap.getElem?_insert, hne, h]
        · exact h

/-! ### What a statement leaves -/

/-- The name is declared where nothing more than this is around. -/
def DeclaredAmid (ms : List Mention) (name : String) (around : List Enclosure) : Prop :=
  ∃ m ∈ ms, m.role = .declared ∧ m.token.lexeme = name ∧ m.around = around

instance (ms : List Mention) (name : String) (around : List Enclosure) :
    Decidable (DeclaredAmid ms name around) :=
  inferInstanceAs (Decidable (∃ m ∈ ms, _ ∧ _ ∧ _))

/-- The statement declares the name, outside the blocks and bodies that are parts of it. -/
def Stmt.Declares (s : Stmt) (name : String) : Prop := DeclaredAmid (s.mentions [] []) name []

instance (s : Stmt) (name : String) : Decidable (s.Declares name) :=
  inferInstanceAs (Decidable (DeclaredAmid _ _ _))

section

variable {x : String}

theorem declaredAmid_append {ns : List Mention} :
    DeclaredAmid (ms ++ ns) x around ↔ DeclaredAmid ms x around ∨ DeclaredAmid ns x around := by
  simp only [DeclaredAmid, List.mem_append, or_and_right, exists_or]

theorem declaredAmid_cons :
    DeclaredAmid (⟨name, .declared, around⟩ :: ms) x around ↔
      name.lexeme = x ∨ DeclaredAmid ms x around := by
  simp [DeclaredAmid]

theorem not_declaredAmid_plain (h : ∀ m ∈ ms, m.Plain around) : ¬DeclaredAmid ms x around :=
  fun ⟨m, hm, hrole, _⟩ => (h m hm).role hrole

/-- A block or a body keeps what is declared in it. -/
theorem not_declaredAmid_inside (h : ∀ m ∈ ms, ∃ e path, m.Inside (e :: around) path) :
    ¬DeclaredAmid ms x around := by
  rintro ⟨m, hm, -, -, haround⟩
  obtain ⟨e, path, inner, hinner, -⟩ := h m hm
  have hlength := congrArg List.length (haround.symm.trans hinner)
  simp only [List.length_append, List.length_cons] at hlength
  omega

end

theorem Scopes.here?_define (h : ss ≠ []) (x name : Token) :
    ((ss.declare x).define x).here? name =
      if x.lexeme = name.lexeme then some .defined else ss.here? name := by
  obtain ⟨s, ss, rfl⟩ := List.exists_cons_of_ne_nil h
  simp only [Scopes.declare, Scopes.define, Scopes.mark, Scopes.here?, List.head?_cons,
    Option.bind_some, Scope.status?_cons, eq_comm (a := x.lexeme)]
  split <;> rfl

theorem Scopes.length_after (ss : Scopes) : (s : Stmt) → (ss.after s).length = ss.length
  | .var .. | .function _ | .classDecl .. => by simp [Scopes.after, Scopes.declare, Scopes.define]
  | .conditional _ yes none => Scopes.length_after ss yes
  | .conditional _ yes (some no) =>
      (Scopes.length_after (ss.after yes) no).trans (Scopes.length_after ss yes)
  | .whileLoop _ body => Scopes.length_after ss body
  | .expression _ | .print _ | .block _ | .returning .. => rfl

theorem Scopes.tail_after (ss : Scopes) : (s : Stmt) → (ss.after s).tail = ss.tail
  | .var .. | .function _ | .classDecl .. => by simp [Scopes.after, Scopes.declare, Scopes.define]
  | .conditional _ yes none => Scopes.tail_after ss yes
  | .conditional _ yes (some no) =>
      (Scopes.tail_after (ss.after yes) no).trans (Scopes.tail_after ss yes)
  | .whileLoop _ body => Scopes.tail_after ss body
  | .expression _ | .print _ | .block _ | .returning .. => rfl

theorem Scopes.after_ne_nil (h : ss ≠ []) (s : Stmt) : ss.after s ≠ [] :=
  List.ne_nil_of_length_pos (ss.length_after s ▸ List.length_pos_iff.mpr h)

/-- What a statement declares stands in the innermost scope behind it, and so does what stood there
before. -/
theorem Scopes.here?_after (around : List Enclosure) (name : Token) (s : Stmt) (path : Path)
    {ss : Scopes} (hss : ss ≠ []) : (ss.after s).here? name =
      if DeclaredAmid (s.mentions around path) name.lexeme around then some .defined
      else ss.here? name := by
  cases s with
  | expression e | print e =>
      exact (if_neg (not_declaredAmid_plain (Expr.plain_mentions around none e))).symm
  | returning keyword value =>
      have hkeyword := plain_returning keyword around
      cases value with
      | none => exact (if_neg (not_declaredAmid_plain hkeyword)).symm
      | some e =>
          have he := List.forall_mem_cons.mpr
            ⟨hkeyword _ List.mem_cons_self, Expr.plain_mentions around none e⟩
          exact (if_neg (not_declaredAmid_plain he)).symm
  | var x value =>
      cases value with
      | none =>
          have hd : DeclaredAmid [⟨x, .declared, around⟩] name.lexeme around ↔
              x.lexeme = name.lexeme := by simp [DeclaredAmid]
          simp only [Scopes.after, Stmt.mentions, hd, Scopes.here?_define hss]
      | some e =>
          have he := not_declaredAmid_plain (x := name.lexeme)
            (Expr.plain_mentions around (some x) e)
          simp only [Scopes.after, Stmt.mentions, declaredAmid_cons, he, or_false,
            Scopes.here?_define hss]
  | block body =>
      refine (if_neg (not_declaredAmid_inside fun m hm => ⟨.block path, path, ?_⟩)).symm
      exact Stmt.inside_listMentions (.block path :: around) path 0 body m hm
  | conditional c yes no =>
      have hc := not_declaredAmid_plain (x := name.lexeme) (Expr.plain_mentions around none c)
      have hyes := Scopes.here?_after around name yes (0 :: path) hss
      cases no with
      | none =>
          simp only [Scopes.after, Stmt.mentions, declaredAmid_append, hc, false_or, hyes]
      | some no =>
          have hno := Scopes.here?_after around name no (1 :: path)
            (Scopes.after_ne_nil hss yes)
          simp only [Scopes.after, Stmt.mentions, declaredAmid_append, hc, false_or, hno, hyes]
          split <;> split <;> simp_all
  | whileLoop c body =>
      have hc := not_declaredAmid_plain (x := name.lexeme) (Expr.plain_mentions around none c)
      have hbody := Scopes.here?_after around name body (0 :: path) hss
      simp only [Scopes.after, Stmt.mentions, declaredAmid_append, hc, false_or, hbody]
  | function decl =>
      have hbody : ¬DeclaredAmid (Stmt.functionMentions around path decl) name.lexeme around :=
        not_declaredAmid_inside fun m hm =>
          ⟨.body path, path, Stmt.inside_functionMentions around path decl m hm⟩
      simp only [Scopes.after, Stmt.mentions, declaredAmid_cons, hbody, or_false,
        Scopes.here?_define hss]
  | classDecl x methods =>
      have hbodies :
          ¬DeclaredAmid (Stmt.methodMentions around path 0 methods) name.lexeme around := by
        refine not_declaredAmid_inside fun m hm => ?_
        obtain ⟨j, hj⟩ := Stmt.inside_methodMentions around path 0 methods m hm
        exact ⟨.body (j :: path), j :: path, hj⟩
      simp only [Scopes.after, Stmt.mentions, declaredAmid_cons, hbodies, or_false,
        Scopes.here?_define hss]

/-! ### Nearest declarations -/

/-- Where identities are distinct, the walk settles every occurrence once, and records it as many
blocks and bodies out as the nearest one is in which its name was declared before; if there is none,
nothing is recorded. Behind a statement the scopes are those before it, save that the innermost one
has the names that the statement declares. -/
theorem hops_lead_to_nearest_declaration (s : Session) (p : Program)
    (hn : (Stmt.listIds p.statements).Nodup) :
    (Stmt.walk p.statements).filterMap Mention.id? = Stmt.listIds p.statements ∧
    (∀ i id (m : Mention), (Stmt.walk p.statements)[i]? = some m → m.id? = some id →
      ∃ depth, (∀ d, depth = some d ↔ m.FoundAt ((Stmt.walk p.statements).take i) d) ∧
        (Stmt.listFindings false [] p.statements).filter (Finding.settles id) =
          [.settled id m.token.lexeme depth] ∧
        (s.settle p).2.machine.hops[id]? = depth.or s.machine.hops[id]?) ∧
    ∀ (ss : Scopes) (t : Stmt), (ss.after t).length = ss.length ∧ (ss.after t).tail = ss.tail ∧
      ∀ name : Token, (ss.after t).here? name =
        if ss ≠ [] ∧ t.Declares name.lexeme then some .defined else ss.here? name := by
  refine ⟨Stmt.filterMap_id_listMentions [] [] 0 _, fun i id m hm hid => ?_, fun ss t =>
    ⟨ss.length_after t, ss.tail_after t, fun name => ?_⟩⟩
  · have hone := filter_settles_walk hn hm hid
    refine ⟨_, fun d => Mention.depth?_eq_some_iff, hone, ?_⟩
    have hrecord := @Hops.getElem?_recordAll s.machine.hops s.machine.hops id rfl
      (Stmt.listFindings false [] p.statements)
    rw [hone] at hrecord
    refine hrecord.trans ?_
    cases m.depth? ((Stmt.walk p.statements).take i) with
    | none => rfl
    | some d => simp [Hops.recordAll, Finding.record]
  · by_cases hss : ss = []
    · subst hss
      simp [Scopes.after_nil]
    · simp only [Scopes.here?_after [] name t [] hss, Stmt.Declares, ne_eq, hss, not_false_eq_true,
        true_and]

/-- A block with a variable `a`, in it a read of `a`, and behind that read another variable `a`
whose initial value is read from itself. -/
def twiceDeclared : Program :=
  let a : Token := ⟨.identifier, "a", 1⟩
  let inner : List Stmt := [.expression (.read 0 a), .var a (some (.read 1 a))]
  ⟨[.block [.var a none, .block inner]], [], 2⟩

/-- The first read means the outer variable and the second one the inner variable. -/
theorem twiceDeclared_hops :
    (Stmt.listIds twiceDeclared.statements).Nodup ∧
      (Session.start.settle twiceDeclared).2.machine.hops[0]? = some 1 ∧
      (Session.start.settle twiceDeclared).2.machine.hops[1]? = some 0 := by
  have hn : (Stmt.listIds twiceDeclared.statements).Nodup := by decide
  obtain ⟨-, hops, -⟩ := hops_lead_to_nearest_declaration Session.start twiceDeclared hn
  obtain ⟨depth, hdepth, -, hrecorded⟩ := hops 1 0 _ rfl rfl
  obtain ⟨depth', hdepth', -, hrecorded'⟩ := hops 3 1 _ rfl rfl
  refine ⟨hn, ?_, ?_⟩
  · rw [hrecorded, (hdepth 1).mpr (Mention.depth?_eq_some_iff.mp (by decide))]
    rfl
  · rw [hrecorded', (hdepth' 0).mpr (Mention.depth?_eq_some_iff.mp (by decide))]
    rfl

end Lox
