import Lox.Proofs.Grammar.Raw
import Lox.Proofs.Grammar.Soundness
import Lox.Proofs.Tree.Identity

/-!
The grammar with lists of any length and with anything to the left of an equal sign, as a relation
between tokens and trees as they are written. Whatever derives from the strict grammar derives from
this one too, as a tree in which nothing is faulty.
-/

namespace Lox.Grammar

namespace Raw

def join : Binary → Expr → Token → Expr → Expr
  | .disjunction | .conjunction => .logical
  | _ => .binary

inductive Derives : Nat → Form → List Token → Expr → Prop
  | expression {n : Nat} {ts : List Token} {e : Expr} (h : Derives n .assignment ts e) :
      Derives (n + 1) .expression ts e
  | assign {n : Nat} {ts us : List Token} {target e : Expr} {equal : Token}
      (ht : Derives (n + 1) (.binary .disjunction) ts target)
      (he : equal.kind = .symbol .equal) (h : Derives n .assignment us e) :
      Derives (n + 1) .assignment (ts ++ equal :: us) (.assign target equal e)
  | join {n : Nat} {ts us : List Token} {l r : Expr} {b : Binary} {op : Token}
      (hl : Derives n (.binary b) ts l) (ho : op.kind ∈ b.operators)
      (hr : Derives n b.operand us r) : Derives n (.binary b) (ts ++ op :: us) (join b l op r)
  | unary {n : Nat} {ts : List Token} {e : Expr} {op : Token}
      (ho : op.kind = .symbol .bang ∨ op.kind = .symbol .minus) (h : Derives n .unary ts e) :
      Derives (n + 1) .unary (op :: ts) (.unary op e)
  | call {n : Nat} {ts us : List Token} {callee : Expr} {args : List (List Token × Expr)}
      {lparen rparen : Token} (hc : Derives n .call ts callee)
      (hl : lparen.kind = .symbol .leftParen) (hs : Separated (args.map Prod.fst) us)
      (ha : ∀ a ∈ args, Derives n .expression a.1 a.2) (hr : rparen.kind = .symbol .rightParen) :
      Derives n .call (ts ++ lparen :: (us ++ [rparen])) (.call callee rparen (args.map Prod.snd))
  | alone {n : Nat} {ts : List Token} {e : Expr} {f g : Form} (hf : f.tighter? = some g)
      (h : Derives n g ts e) : Derives n f ts e
  | literal {n : Nat} {t : Token} {l : Literal} (h : Denotes t.kind l) :
      Derives n .primary [t] (.literal t l)
  | read {n : Nat} {name : Token} (hn : name.kind = .identifier) :
      Derives n .primary [name] (.read name)
  | grouping {n : Nat} {ts : List Token} {e : Expr} {lparen rparen : Token}
      (hl : lparen.kind = .symbol .leftParen) (h : Derives n .expression ts e)
      (hr : rparen.kind = .symbol .rightParen) :
      Derives n .primary (lparen :: (ts ++ [rparen])) (.grouping lparen e)

/-- An expression that may be left out. -/
inductive Optionally (n : Nat) : List Token → Option Expr → Prop
  | none : Optionally n [] none
  | some {ts : List Token} {e : Expr} (h : Derives n .expression ts e) : Optionally n ts (some e)

inductive Initializer (n : Nat) : List Token → Option Expr → Prop
  | none : Initializer n [] none
  | some {ts : List Token} {e : Expr} {equal : Token} (he : equal.kind = .symbol .equal)
      (h : Derives n .expression ts e) : Initializer n (equal :: ts) (some e)

inductive VarDerives (n : Nat) : List Token → Stmt → Prop
  | intro {ts : List Token} {initial : Option Expr} {kw name semicolon : Token}
      (hk : kw.kind = .keyword .kwVar) (hn : name.kind = .identifier)
      (hi : Initializer n ts initial) (hs : semicolon.kind = .symbol .semicolon) :
      VarDerives n (kw :: name :: (ts ++ [semicolon])) (.var name initial)

inductive ExpressionDerives (n : Nat) : List Token → Stmt → Prop
  | intro {ts : List Token} {e : Expr} {semicolon : Token} (h : Derives n .expression ts e)
      (hs : semicolon.kind = .symbol .semicolon) :
      ExpressionDerives n (ts ++ [semicolon]) (.expression e)

/-- The first clause of a loop with clauses. -/
inductive ClauseDerives (n : Nat) : List Token → Option Stmt → Prop
  | none {semicolon : Token} (hs : semicolon.kind = .symbol .semicolon) :
      ClauseDerives n [semicolon] none
  | var {ts : List Token} {s : Stmt} (h : VarDerives n ts s) : ClauseDerives n ts (some s)
  | expression {ts : List Token} {s : Stmt} (h : ExpressionDerives n ts s) :
      ClauseDerives n ts (some s)

mutual

/-- A statement, told apart by whether an `else` behind it would belong to it. -/
inductive StatementDerives : Nat → Bool → List Token → Stmt → Prop
  | expression {n : Nat} {ts : List Token} {s : Stmt} (h : ExpressionDerives n ts s) :
      StatementDerives (n + 1) false ts s
  | print {n : Nat} {ts : List Token} {e : Expr} {kw semicolon : Token}
      (hk : kw.kind = .keyword .kwPrint) (h : Derives n .expression ts e)
      (hs : semicolon.kind = .symbol .semicolon) :
      StatementDerives (n + 1) false (kw :: (ts ++ [semicolon])) (.print e)
  | returning {n : Nat} {ts : List Token} {value : Option Expr} {kw semicolon : Token}
      (hk : kw.kind = .keyword .kwReturn) (h : Optionally n ts value)
      (hs : semicolon.kind = .symbol .semicolon) :
      StatementDerives (n + 1) false (kw :: (ts ++ [semicolon])) (.returning kw value)
  | block {n : Nat} {ts : List Token} {body : List Stmt} {lbrace : Token}
      (hl : lbrace.kind = .symbol .leftBrace) (h : BlockDerives n ts body) :
      StatementDerives (n + 1) false (lbrace :: ts) (.block body)
  | conditional {n : Nat} {o : Bool} {ts us : List Token} {c : Expr} {yes : Stmt}
      {kw lparen rparen : Token} (hk : kw.kind = .keyword .kwIf)
      (hl : lparen.kind = .symbol .leftParen) (hc : Derives n .expression ts c)
      (hr : rparen.kind = .symbol .rightParen) (hy : StatementDerives n o us yes) :
      StatementDerives (n + 1) true (kw :: lparen :: (ts ++ rparen :: us)) (.conditional c yes none)
  | alternative {n : Nat} {o : Bool} {ts us vs : List Token} {c : Expr} {yes no : Stmt}
      {kw lparen rparen other : Token} (hk : kw.kind = .keyword .kwIf)
      (hl : lparen.kind = .symbol .leftParen) (hc : Derives n .expression ts c)
      (hr : rparen.kind = .symbol .rightParen) (hy : StatementDerives n false us yes)
      (ho : other.kind = .keyword .kwElse) (hn : StatementDerives n o vs no) :
      StatementDerives (n + 1) o (kw :: lparen :: (ts ++ rparen :: (us ++ other :: vs)))
        (.conditional c yes (some no))
  | whileLoop {n : Nat} {o : Bool} {ts us : List Token} {c : Expr} {body : Stmt}
      {kw lparen rparen : Token} (hk : kw.kind = .keyword .kwWhile)
      (hl : lparen.kind = .symbol .leftParen) (hc : Derives n .expression ts c)
      (hr : rparen.kind = .symbol .rightParen) (hb : StatementDerives n o us body) :
      StatementDerives (n + 1) o (kw :: lparen :: (ts ++ rparen :: us)) (.whileLoop c body)
  | forLoop {n : Nat} {o : Bool} {ts us vs ws : List Token} {initial : Option Stmt}
      {condition increment : Option Expr} {body : Stmt} {kw lparen semicolon rparen : Token}
      (hk : kw.kind = .keyword .kwFor) (hl : lparen.kind = .symbol .leftParen)
      (hi : ClauseDerives n ts initial) (hc : Optionally n us condition)
      (hs : semicolon.kind = .symbol .semicolon) (hn : Optionally n vs increment)
      (hr : rparen.kind = .symbol .rightParen) (hb : StatementDerives n o ws body) :
      StatementDerives (n + 1) o
        (kw :: lparen :: (ts ++ (us ++ semicolon :: (vs ++ rparen :: ws))))
        (.forLoop initial condition increment body)

/-- A block behind its opening brace. -/
inductive BlockDerives : Nat → List Token → List Stmt → Prop
  | intro {n : Nat} {parts : List (List Token × Stmt)} {rbrace : Token}
      (hp : ∀ p ∈ parts, DeclarationDerives n p.1 p.2) (hr : rbrace.kind = .symbol .rightBrace) :
      BlockDerives (n + 1) ((parts.map Prod.fst).flatten ++ [rbrace]) (parts.map Prod.snd)

inductive FunctionDerives : Nat → List Token → Function → Prop
  | intro {n : Nat} {ts us : List Token} {params : List Token} {body : List Stmt}
      {name lparen rparen lbrace : Token} (hn : name.kind = .identifier)
      (hl : lparen.kind = .symbol .leftParen) (hs : Separated (params.map ([·])) ts)
      (hp : ∀ p ∈ params, p.kind = .identifier) (hr : rparen.kind = .symbol .rightParen)
      (hb : lbrace.kind = .symbol .leftBrace) (h : BlockDerives n us body) :
      FunctionDerives n (name :: lparen :: (ts ++ rparen :: lbrace :: us)) ⟨name, params, body⟩

inductive DeclarationDerives : Nat → List Token → Stmt → Prop
  | klass {n : Nat} {methods : List (List Token × Function)} {kw name lbrace rbrace : Token}
      (hk : kw.kind = .keyword .kwClass) (hn : name.kind = .identifier)
      (hl : lbrace.kind = .symbol .leftBrace) (hm : ∀ m ∈ methods, FunctionDerives n m.1 m.2)
      (hr : rbrace.kind = .symbol .rightBrace) :
      DeclarationDerives n
        (kw :: name :: lbrace :: ((methods.map Prod.fst).flatten ++ [rbrace]))
        (.classDecl name (methods.map Prod.snd))
  | function {n : Nat} {ts : List Token} {f : Function} {kw : Token}
      (hk : kw.kind = .keyword .kwFun) (h : FunctionDerives n ts f) :
      DeclarationDerives n (kw :: ts) (.function f)
  | var {n : Nat} {ts : List Token} {s : Stmt} (h : VarDerives n ts s) : DeclarationDerives n ts s
  | statement {n : Nat} {o : Bool} {ts : List Token} {s : Stmt} (h : StatementDerives n o ts s) :
      DeclarationDerives n ts s

end

def ProgramDerives (n : Nat) (ts : List Token) (body : List Stmt) : Prop :=
  ∃ parts : List (List Token × Stmt), (∀ p ∈ parts, DeclarationDerives n p.1 p.2) ∧
    ts = (parts.map Prod.fst).flatten ∧ body = parts.map Prod.snd

/-! ### Equations -/

theorem Expr.listRepaired_eq_map (es : List Expr) :
    Expr.listRepaired es = es.map Expr.repaired := by
  induction es with
  | nil => rfl
  | cons e es ih => rw [Expr.listRepaired, ih, List.map_cons]

theorem Stmt.listRepaired_eq_map (ss : List Stmt) :
    Stmt.listRepaired ss = ss.map Stmt.repaired := by
  induction ss with
  | nil => rfl
  | cons s ss ih => rw [Stmt.listRepaired, ih, List.map_cons]

theorem Stmt.methodsRepaired_eq_map (fs : List Function) :
    Stmt.methodsRepaired fs = fs.map Stmt.functionRepaired := by
  induction fs with
  | nil => rfl
  | cons f fs ih => rw [Stmt.methodsRepaired, ih, List.map_cons]

theorem Stmt.listFaults_eq_flatMap (ss : List Stmt) :
    Stmt.listFaults ss = ss.flatMap Stmt.faults := by
  induction ss with
  | nil => rfl
  | cons s ss ih => rw [Stmt.listFaults, ih, List.flatMap_cons]

theorem Stmt.methodsFaults_eq_flatMap (fs : List Function) :
    Stmt.methodsFaults fs = fs.flatMap Stmt.functionFaults := by
  induction fs with
  | nil => rfl
  | cons f fs ih => rw [Stmt.methodsFaults, ih, List.flatMap_cons]

theorem repaired_forLoop (initial : Option Stmt) (condition increment : Option Expr) (body : Stmt) :
    (Stmt.forLoop initial condition increment body).repaired =
      Grammar.forLoop (initial.map Stmt.repaired) (condition.map Expr.repaired)
        (increment.map Expr.repaired) body.repaired := by
  cases initial <;> simp only [Stmt.repaired, Option.map_none, Option.map_some]

theorem faults_forLoop (initial : Option Stmt) (condition increment : Option Expr) (body : Stmt) :
    (Stmt.forLoop initial condition increment body).faults = initial.elim [] Stmt.faults ++
      (optionFaults condition ++ (optionFaults increment ++ body.faults)) := by
  cases initial <;> simp only [Stmt.faults, Option.elim_none, Option.elim_some, List.nil_append]

theorem repaired_join (b : Binary) (l : Expr) (op : Token) (r : Expr) :
    (join b l op r).repaired = b.join l.repaired op r.repaired := by
  cases b <;> simp only [join, Binary.join, Expr.repaired]

theorem faults_join (b : Binary) (l : Expr) (op : Token) (r : Expr) :
    (join b l op r).faults = l.faults ++ r.faults := by
  cases b <;> simp only [join, Expr.faults]

theorem Expr.eq_read : {r : Expr} → r.isName = true → ∃ name, r = .read name
  | .read name, _ => ⟨name, rfl⟩

theorem repaired_assign {target : Expr} (h : target.isName = false) (equal : Token) (value : Expr) :
    (Expr.assign target equal value).repaired = target.repaired := by
  cases target <;> first | rfl | cases h

/-- Only a name is repaired to a name. -/
theorem Expr.repaired_ne_read : (r : Expr) → r.isName = false → ∀ id name,
    r.repaired ≠ .read id name
  | .assign target equal value, _, id, name => by
      cases ht : target.isName with
      | true =>
          obtain ⟨_, rfl⟩ := Expr.eq_read ht
          rw [Expr.repaired]
          exact nofun
      | false =>
          rw [repaired_assign ht]
          exact Expr.repaired_ne_read target ht id name
  | .literal _ _, _, _, _ | .grouping _ _, _, _, _ | .unary _ _, _, _, _ | .binary _ _ _, _, _, _
  | .logical _ _ _, _, _, _ | .call _ _ _, _, _, _ => by
      rw [Expr.repaired]
      exact nofun

theorem overflows_eq_nil {what : Listed} {k : Nat} {entries : List Token}
    (h : k + entries.length ≤ maxArity) : overflows what k entries = [] := by
  induction entries generalizing k with
  | nil => rfl
  | cons p ps ih =>
      rw [List.length_cons] at h
      rw [overflows, overflow, if_neg (by omega), ih (by omega)]
      rfl

theorem Expr.listFaults_eq_nil {k : Nat} {es : List Expr} (hf : ∀ e ∈ es, e.faults = [])
    (h : k + es.length ≤ maxArity) : Expr.listFaults k es = [] := by
  induction es generalizing k with
  | nil => rfl
  | cons e es ih =>
      rw [List.length_cons] at h
      rw [Expr.listFaults, overflow, if_neg (by omega), hf e List.mem_cons_self,
        ih (fun d hd => hf d (List.mem_cons_of_mem e hd)) (by omega)]
      rfl

end Raw

/-! ### The strict grammar within the relaxed one -/

theorem exists_choice {α β : Type} [Inhabited β] {R : α → β → Prop} {l : List α}
    (h : ∀ a ∈ l, ∃ b, R a b) : ∃ g : α → β, ∀ a ∈ l, R a (g a) := by
  have hb (a : α) : ∃ b, a ∈ l → R a b := by
    by_cases ha : a ∈ l
    · obtain ⟨b, hb⟩ := h a ha
      exact ⟨b, fun _ => hb⟩
    · exact ⟨default, fun h => absurd h ha⟩
  exact Classical.skolem.mp hb

variable {n : Nat} {ts : List Token}

/-- A call may stand wherever operands joined by operators may. -/
theorem Raw.Derives.operand {e : Raw.Expr} (h : Raw.Derives n .call ts e) :
    Raw.Derives n (.binary .disjunction) ts e :=
  .alone rfl <| .alone rfl <| .alone rfl <| .alone rfl <| .alone rfl <| .alone rfl <| .alone rfl h

theorem unnumbered_join (b : Binary) (l : Expr) (op : Token) (r : Expr) :
    (b.join l op r).unnumbered = b.join l.unnumbered op r.unnumbered := by
  cases b <;> rfl

theorem Derives.raw {f : Form} {e : Expr} (h : Derives n f ts e) :
    ∃ r, Raw.Derives n f ts r ∧ r.repaired = e.unnumbered ∧ r.faults = [] := by
  induction h with
  | expression _ ih =>
      obtain ⟨r, hr, he, hf⟩ := ih
      exact ⟨r, .expression hr, he, hf⟩
  | @assign n ts e name equal id hn he _ ih =>
      obtain ⟨r, hr, hre, hf⟩ := ih
      refine ⟨.assign (.read name) equal r,
        .assign (Raw.Derives.operand (.alone rfl (.read hn))) he hr, ?_, ?_⟩
      · rw [Raw.Expr.repaired, Expr.unnumbered, hre]
      · simp [Raw.Expr.faults, Raw.Expr.isName, hf]
  | @join n ts us l r b op _ ho _ ihl ihr =>
      obtain ⟨l', hl, hle, hlf⟩ := ihl
      obtain ⟨r', hr, hre, hrf⟩ := ihr
      refine ⟨Raw.join b l' op r', .join hl ho hr, ?_, ?_⟩
      · rw [Raw.repaired_join, unnumbered_join, hle, hre]
      · rw [Raw.faults_join, hlf, hrf]
        rfl
  | unary ho _ ih =>
      obtain ⟨r, hr, he, hf⟩ := ih
      refine ⟨.unary _ r, .unary ho hr, ?_, hf⟩
      rw [Raw.Expr.repaired, Expr.unnumbered, he]
  | @call n ts us callee args lparen rparen _ hl hs _ hm hr ihc iha =>
      obtain ⟨c, hc, hce, hcf⟩ := ihc
      obtain ⟨g, hg⟩ := exists_choice iha
      let args' := args.map fun a => (a.1, g a)
      have hargs' (r) (h : r ∈ args'.map Prod.snd) : r.faults = [] := by
        simp only [args', List.map_map, List.mem_map, Function.comp_apply] at h
        obtain ⟨a, ha, rfl⟩ := h
        exact (hg a ha).2.2
      refine ⟨.call c rparen (args'.map Prod.snd), .call hc hl ?_ ?_ hr, ?_, ?_⟩
      · simpa [args', Function.comp_def] using hs
      · simp only [args', List.mem_map]
        rintro _ ⟨a, ha, rfl⟩
        exact (hg a ha).1
      · rw [Raw.Expr.repaired, Expr.unnumbered, hce, Raw.Expr.listRepaired_eq_map,
          Expr.listUnnumbered_eq_map]
        simp only [args', List.map_map]
        exact congrArg _ (List.map_congr_left fun a ha => (hg a ha).2.1)
      · rw [Raw.Expr.faults, hcf, Raw.Expr.listFaults_eq_nil hargs' (by simpa [args'] using hm)]
        rfl
  | alone hf _ ih =>
      obtain ⟨r, hr, he⟩ := ih
      exact ⟨r, .alone hf hr, he⟩
  | literal h => exact ⟨.literal _ _, .literal h, rfl, rfl⟩
  | read id hn => exact ⟨.read _, .read hn, rfl, rfl⟩
  | grouping hl _ hr ih =>
      obtain ⟨r, hd, he, hf⟩ := ih
      refine ⟨.grouping _ r, .grouping hl hd hr, ?_, hf⟩
      rw [Raw.Expr.repaired, Expr.unnumbered, he]

theorem Optionally.raw {e : Option Expr} (h : Optionally n ts e) : ∃ r, Raw.Optionally n ts r ∧
    r.map Raw.Expr.repaired = e.map Expr.unnumbered ∧ Raw.optionFaults r = [] := by
  cases h with
  | none => exact ⟨.none, .none, rfl, rfl⟩
  | some h =>
      obtain ⟨r, hr, he, hf⟩ := h.raw
      exact ⟨.some r, .some hr, congrArg Option.some he, hf⟩

theorem VarDerives.raw {s : Stmt} (h : VarDerives n ts s) :
    ∃ r, Raw.VarDerives n ts r ∧ r.repaired = s.unnumbered ∧ r.faults = [] := by
  cases h with
  | @intro _ initial _ name _ hk hn hi hs =>
  cases hi with
  | none => exact ⟨.var name none, .intro hk hn .none hs, rfl, rfl⟩
  | some he h =>
      obtain ⟨r, hr, hre, hf⟩ := h.raw
      refine ⟨.var name (some r), .intro hk hn (.some he hr) hs, ?_, hf⟩
      rw [Raw.Stmt.repaired, Stmt.unnumbered, Option.map_some, hre]

theorem ExpressionDerives.raw {s : Stmt} (h : ExpressionDerives n ts s) :
    ∃ r, Raw.ExpressionDerives n ts r ∧ r.repaired = s.unnumbered ∧ r.faults = [] := by
  cases h with
  | intro h hs =>
  obtain ⟨r, hr, he, hf⟩ := h.raw
  refine ⟨.expression r, .intro hr hs, ?_, hf⟩
  rw [Raw.Stmt.repaired, Stmt.unnumbered, he]

theorem ClauseDerives.raw {s : Option Stmt} (h : ClauseDerives n ts s) :
    ∃ r, Raw.ClauseDerives n ts r ∧ r.map Raw.Stmt.repaired = s.map Stmt.unnumbered ∧
      r.elim [] Raw.Stmt.faults = [] := by
  cases h with
  | none hs => exact ⟨.none, .none hs, rfl, rfl⟩
  | var h =>
      obtain ⟨r, hr, hre, hf⟩ := h.raw
      exact ⟨some r, .var hr, congrArg some hre, hf⟩
  | expression h =>
      obtain ⟨r, hr, hre, hf⟩ := h.raw
      exact ⟨some r, .expression hr, congrArg some hre, hf⟩

theorem unnumbered_forLoop (initial : Option Stmt) (condition increment : Option Expr)
    (body : Stmt) : (forLoop initial condition increment body).unnumbered =
      forLoop (initial.map Stmt.unnumbered) (condition.map Expr.unnumbered)
        (increment.map Expr.unnumbered) body.unnumbered := by
  cases initial <;> cases condition <;> cases increment <;> rfl

/-- Parts that derive one by one from the strict grammar, in a row. -/
theorem exists_row {α β γ : Type} [Inhabited β] {D : List Token → β → Prop} {v : α → γ}
    {w : β → γ} {faults : β → List (Fault SyntaxCause)} {parts : List (List Token × α)}
    (h : ∀ p ∈ parts, ∃ r, D p.1 r ∧ w r = v p.2 ∧ faults r = []) :
    ∃ row : List (List Token × β), row.map Prod.fst = parts.map Prod.fst ∧
      (∀ p ∈ row, D p.1 p.2) ∧ (row.map Prod.snd).map w = (parts.map Prod.snd).map v ∧
      (row.map Prod.snd).flatMap faults = [] := by
  obtain ⟨g, hg⟩ := exists_choice h
  refine ⟨parts.map fun p => (p.1, g p), ?_, ?_, ?_, ?_⟩
  · simp [Function.comp_def]
  · simp only [List.mem_map]
    rintro _ ⟨p, hp, rfl⟩
    exact (hg p hp).1
  · simp only [List.map_map]
    exact List.map_congr_left fun p hp => (hg p hp).2.1
  · simp only [List.map_map, List.flatMap_eq_nil_iff, List.mem_map]
    rintro _ ⟨p, hp, rfl⟩
    exact (hg p hp).2.2

mutual

theorem StatementDerives.raw : {n : Nat} → {o : Bool} → {ts : List Token} → {s : Stmt} →
    StatementDerives n o ts s →
    ∃ r, Raw.StatementDerives n o ts r ∧ r.repaired = s.unnumbered ∧ r.faults = []
  | _, _, _, _, .expression h => by
      obtain ⟨r, hr, he, hf⟩ := h.raw
      exact ⟨r, .expression hr, he, hf⟩
  | _, _, _, _, .print hk h hs => by
      obtain ⟨r, hr, he, hf⟩ := h.raw
      refine ⟨.print r, .print hk hr hs, ?_, hf⟩
      rw [Raw.Stmt.repaired, Stmt.unnumbered, he]
  | _, _, _, _, @StatementDerives.returning _ _ value _ _ hk h hs => by
      obtain ⟨r, hr, he, hf⟩ := h.raw
      refine ⟨.returning _ r, .returning hk hr hs, ?_, hf⟩
      rw [Raw.Stmt.repaired, he]
      cases value <;> rfl
  | _, _, _, _, .block hl h => by
      obtain ⟨r, hr, he, hf⟩ := h.raw
      refine ⟨.block r, .block hl hr, ?_, hf⟩
      rw [Raw.Stmt.repaired, Stmt.unnumbered, he]
  | _, _, _, _, .conditional hk hl hc hr hy => by
      obtain ⟨c, hcr, hce, hcf⟩ := hc.raw
      obtain ⟨y, hyr, hye, hyf⟩ := hy.raw
      refine ⟨.conditional c y none, .conditional hk hl hcr hr hyr, ?_, ?_⟩
      · rw [Raw.Stmt.repaired, Stmt.unnumbered, hce, hye]
      · rw [Raw.Stmt.faults, hcf, hyf]
        rfl
  | _, _, _, _, .alternative hk hl hc hr hy ho hn => by
      obtain ⟨c, hcr, hce, hcf⟩ := hc.raw
      obtain ⟨y, hyr, hye, hyf⟩ := hy.raw
      obtain ⟨m, hmr, hme, hmf⟩ := hn.raw
      refine ⟨.conditional c y (some m), .alternative hk hl hcr hr hyr ho hmr, ?_, ?_⟩
      · rw [Raw.Stmt.repaired, Stmt.unnumbered, hce, hye, hme]
      · rw [Raw.Stmt.faults, hcf, hyf, hmf]
        rfl
  | _, _, _, _, .whileLoop hk hl hc hr hb => by
      obtain ⟨c, hcr, hce, hcf⟩ := hc.raw
      obtain ⟨b, hbr, hbe, hbf⟩ := hb.raw
      refine ⟨.whileLoop c b, .whileLoop hk hl hcr hr hbr, ?_, ?_⟩
      · rw [Raw.Stmt.repaired, Stmt.unnumbered, hce, hbe]
      · rw [Raw.Stmt.faults, hcf, hbf]
        rfl
  | _, _, _, _, .forLoop hk hl hi hc hs hn hr hb => by
      obtain ⟨i, hir, hie, hif⟩ := hi.raw
      obtain ⟨c, hcr, hce, hcf⟩ := hc.raw
      obtain ⟨m, hmr, hme, hmf⟩ := hn.raw
      obtain ⟨b, hbr, hbe, hbf⟩ := hb.raw
      refine ⟨.forLoop i c m b, .forLoop hk hl hir hcr hs hmr hr hbr, ?_, ?_⟩
      · rw [Raw.repaired_forLoop, ← forLoop_eq, unnumbered_forLoop, hie, hce, hme, hbe]
      · rw [Raw.faults_forLoop, hif, hcf, hmf, hbf]
        rfl

theorem BlockDerives.raw : {n : Nat} → {ts : List Token} → {body : List Stmt} →
    BlockDerives n ts body → ∃ r, Raw.BlockDerives n ts r ∧
      Raw.Stmt.listRepaired r = Stmt.listUnnumbered body ∧ Raw.Stmt.listFaults r = []
  | _, _, _, @BlockDerives.intro n _ _ hp hr => by
      obtain ⟨row, hts, hd, he, hf⟩ := exists_row (v := Stmt.unnumbered)
        (D := fun ts r => Raw.DeclarationDerives n ts r) fun p hp' => (hp p hp').raw
      rw [← hts]
      refine ⟨_, .intro hd hr, ?_, ?_⟩
      · rw [Raw.Stmt.listRepaired_eq_map, Stmt.listUnnumbered_eq_map, he]
      · rw [Raw.Stmt.listFaults_eq_flatMap, hf]

theorem FunctionDerives.raw : {n : Nat} → {ts : List Token} → {f : Function} →
    FunctionDerives n ts f → ∃ r, Raw.FunctionDerives n ts r ∧
      Raw.Stmt.functionRepaired r = Stmt.functionUnnumbered f ∧ Raw.Stmt.functionFaults r = []
  | _, _, _, @FunctionDerives.intro _ _ _ params _ _ _ _ _ hn hl hs hp hm hr hb h => by
      obtain ⟨r, hd, he, hf⟩ := h.raw
      refine ⟨⟨_, params, r⟩, .intro hn hl hs hp hr hb hd, ?_, ?_⟩
      · rw [Raw.Stmt.functionRepaired, Stmt.functionUnnumbered, he]
      · rw [Raw.Stmt.functionFaults, hf, Raw.overflows_eq_nil (by rwa [Nat.zero_add])]
        rfl

theorem DeclarationDerives.raw : {n : Nat} → {ts : List Token} → {s : Stmt} →
    DeclarationDerives n ts s →
    ∃ r, Raw.DeclarationDerives n ts r ∧ r.repaired = s.unnumbered ∧ r.faults = []
  | _, _, _, @DeclarationDerives.klass n _ _ _ _ _ hk hn hl hm hr => by
      obtain ⟨row, hts, hd, he, hf⟩ := exists_row (v := Stmt.functionUnnumbered)
        (D := fun ts r => Raw.FunctionDerives n ts r) fun m hm' => (hm m hm').raw
      rw [← hts]
      refine ⟨_, .klass hk hn hl hd hr, ?_, ?_⟩
      · rw [Raw.Stmt.repaired, Stmt.unnumbered, Raw.Stmt.methodsRepaired_eq_map,
          Stmt.methodsUnnumbered_eq_map, he]
      · rw [Raw.Stmt.faults, Raw.Stmt.methodsFaults_eq_flatMap, hf]
  | _, _, _, .function hk h => by
      obtain ⟨r, hr, he, hf⟩ := h.raw
      refine ⟨.function r, .function hk hr, ?_, hf⟩
      rw [Raw.Stmt.repaired, Stmt.unnumbered, he]
  | _, _, _, .var h => by
      obtain ⟨r, hr, he, hf⟩ := h.raw
      exact ⟨r, .var hr, he, hf⟩
  | _, _, _, .statement h => by
      obtain ⟨r, hr, he, hf⟩ := h.raw
      exact ⟨r, .statement hr, he, hf⟩

end

theorem ProgramDerives.raw {body : List Stmt} (h : ProgramDerives n ts body) :
    ∃ r, Raw.ProgramDerives n ts r ∧ Raw.Stmt.listRepaired r = Stmt.listUnnumbered body ∧
      Raw.Stmt.listFaults r = [] := by
  obtain ⟨parts, hp, rfl, rfl⟩ := h
  obtain ⟨row, hts, hd, he, hf⟩ := exists_row (v := Stmt.unnumbered)
    (D := fun ts r => Raw.DeclarationDerives n ts r) fun p hp' => (hp p hp').raw
  refine ⟨_, ⟨row, hd, congrArg List.flatten hts.symm, rfl⟩, ?_, ?_⟩
  · rw [Raw.Stmt.listRepaired_eq_map, Stmt.listUnnumbered_eq_map, he]
  · rw [Raw.Stmt.listFaults_eq_flatMap, hf]

end Lox.Grammar
