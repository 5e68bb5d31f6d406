import Lox.Proofs.Scope.Site

/-!
What is met on a walk through a program: declarations, reads and assignments of variables, and
returns, each with the blocks and bodies around it. From what was met before it follows whether one
of them is at fault and how far out a variable is declared; no scopes are kept on the way.
-/

namespace Lox

/-- A block, or the body of a function or a method together with its parameters. -/
inductive Enclosure
  | block (place : Path)
  | body (place : Path)
  deriving DecidableEq

namespace Enclosure

def place : Enclosure → Path
  | block p => p
  | body p => p

def isBody : Enclosure → Bool
  | block _ => false
  | body _ => true

end Enclosure

/-- What a name or a keyword is met for. A read that helps to find the initial value of a variable
comes with the name of that variable. -/
inductive Role
  | declared
  | read (id : Nat) (initializes : Option Token)
  | assigned (id : Nat)
  | returning
  deriving DecidableEq

/-- A name or a keyword, and what is around it, innermost first. -/
structure Mention where
  token : Token
  role : Role
  around : List Enclosure

namespace Mention

/-- A name belongs to the innermost block or body around its declaration. -/
def Declares (m : Mention) (name : String) (e : Enclosure) : Prop :=
  m.role = .declared ∧ m.token.lexeme = name ∧ m.around.head? = some e

instance (m : Mention) (name : String) (e : Enclosure) : Decidable (m.Declares name e) :=
  inferInstanceAs (Decidable (_ ∧ _ ∧ _))

def id? (m : Mention) : Option Nat :=
  match m.role with
  | .read id _ | .assigned id => some id
  | .declared | .returning => none

end Mention

/-- The name is declared in the block or body by what was met. -/
def DeclaredIn (before : List Mention) (name : String) (e : Enclosure) : Prop :=
  ∃ m ∈ before, m.Declares name e

instance (before : List Mention) (name : String) (e : Enclosure) :
    Decidable (DeclaredIn before name e) :=
  inferInstanceAs (Decidable (∃ m ∈ before, _))

namespace Mention

/-- What is wrong with what is met, if anything is: a name that its scope has already, a read inside
the initial value of the local variable that it reads, a return outside functions and methods. -/
def fault? (before : List Mention) (m : Mention) : Option (Fault ScopeCause) :=
  match m.role with
  | .declared =>
    if ∃ e ∈ m.around.head?, DeclaredIn before m.token.lexeme e then
      some ⟨m.token.line, .redeclared m.token.lexeme⟩
    else none
  | .read _ initializes =>
    if m.around ≠ [] ∧ ∃ name ∈ initializes, name.lexeme = m.token.lexeme then
      some ⟨m.token.line, .ownInitializer m.token.lexeme⟩
    else none
  | .assigned _ => none
  | .returning =>
    if ∃ e ∈ m.around, e.isBody then none else some ⟨m.token.line, .returnOutside⟩

/-- The variable of an occurrence is declared `d` blocks and bodies out and no further in. -/
def FoundAt (before : List Mention) (m : Mention) (d : Nat) : Prop :=
  (∃ e, m.around[d]? = some e ∧ DeclaredIn before m.token.lexeme e) ∧
    ∀ k < d, ∀ e, m.around[k]? = some e → ¬DeclaredIn before m.token.lexeme e

def depth? (before : List Mention) (m : Mention) : Option Nat :=
  m.around.findIdx? fun e => DeclaredIn before m.token.lexeme e

theorem depth?_eq_some_iff {before : List Mention} {m : Mention} {d : Nat} :
    m.depth? before = some d ↔ m.FoundAt before d := by
  rw [depth?, FoundAt, List.findIdx?_eq_some_iff_getElem]
  constructor
  · rintro ⟨hd, hdecl, hless⟩
    refine ⟨⟨m.around[d], List.getElem?_eq_getElem hd, of_decide_eq_true hdecl⟩,
      fun k hk e he => ?_⟩
    obtain ⟨hk', rfl⟩ := List.getElem?_eq_some_iff.mp he
    simpa using hless k hk
  · rintro ⟨⟨e, he, hdecl⟩, hless⟩
    obtain ⟨hd, rfl⟩ := List.getElem?_eq_some_iff.mp he
    refine ⟨hd, decide_eq_true hdecl, fun k hk => ?_⟩
    simpa using hless k hk m.around[k] (List.getElem?_eq_getElem _)

/-- What there is to find where something is met: a fault, and how far out a variable is. -/
def findings (before : List Mention) (m : Mention) : List Finding :=
  (m.fault? before).toList.map .fault ++
    m.id?.toList.map fun id => .settled id m.token.lexeme (m.depth? before)

end Mention

/-! ### The walk -/

mutual

def Expr.mentions (around : List Enclosure) (initializes : Option Token) : Expr → List Mention
  | .literal _ => []
  | .grouping e => e.mentions around initializes
  | .unary _ e => e.mentions around initializes
  | .binary l _ r => l.mentions around initializes ++ r.mentions around initializes
  | .logical l _ r => l.mentions around initializes ++ r.mentions around initializes
  | .read id name => [⟨name, .read id initializes, around⟩]
  | .assign id name e => e.mentions around initializes ++ [⟨name, .assigned id, around⟩]
  | .call callee _ args =>
    callee.mentions around initializes ++ Expr.listMentions around initializes args

def Expr.listMentions (around : List Enclosure) (initializes : Option Token) :
    List Expr → List Mention
  | [] => []
  | e :: es => e.mentions around initializes ++ Expr.listMentions around initializes es

end

mutual

/-- What is met in the statement at a place. -/
def Stmt.mentions (around : List Enclosure) (path : Path) : Stmt → List Mention
  | .expression e => e.mentions around none
  | .print e => e.mentions around none
  | .var name none => [⟨name, .declared, around⟩]
  | .var name (some e) => ⟨name, .declared, around⟩ :: e.mentions around (some name)
  | .block body => Stmt.listMentions (.block path :: around) path 0 body
  | .conditional c yes none => c.mentions around none ++ yes.mentions around (0 :: path)
  | .conditional c yes (some no) =>
    c.mentions around none ++ yes.mentions around (0 :: path) ++ no.mentions around (1 :: path)
  | .whileLoop c body => c.mentions around none ++ body.mentions around (0 :: path)
  | .function decl => ⟨decl.name, .declared, around⟩ :: Stmt.functionMentions around path decl
  | .returning keyword none => [⟨keyword, .returning, around⟩]
  | .returning keyword (some e) => ⟨keyword, .returning, around⟩ :: e.mentions around none
  | .classDecl name methods =>
    ⟨name, .declared, around⟩ :: Stmt.methodMentions around path 0 methods

def Stmt.listMentions (around : List Enclosure) (path : Path) (i : Nat) :
    List Stmt → List Mention
  | [] => []
  | s :: rest => s.mentions around (i :: path) ++ Stmt.listMentions around path (i + 1) rest

/-- The parameters belong to the body. -/
def Stmt.functionMentions (around : List Enclosure) (path : Path) : Function → List Mention
  | ⟨_, params, body⟩ =>
    params.map (⟨·, .declared, .body path :: around⟩) ++
      Stmt.listMentions (.body path :: around) path 0 body

def Stmt.methodMentions (around : List Enclosure) (path : Path) (i : Nat) :
    List Function → List Mention
  | [] => []
  | f :: fs =>
    Stmt.functionMentions around (i :: path) f ++ Stmt.methodMentions around path (i + 1) fs

end

/-- What is met on the walk through a program. -/
def Stmt.walk (body : List Stmt) : List Mention := Stmt.listMentions [] [] 0 body

/-! ### What mentions say of the tree -/

mutual

theorem Expr.filterMap_id_mentions (around : List Enclosure) (initializes : Option Token) :
    (e : Expr) → (e.mentions around initializes).filterMap Mention.id? = e.ids
  | .literal _ => rfl
  | .grouping e | .unary _ e => Expr.filterMap_id_mentions around initializes e
  | .binary l _ r | .logical l _ r => by
      simp only [Expr.mentions, Expr.ids, List.filterMap_append,
        Expr.filterMap_id_mentions around initializes l,
        Expr.filterMap_id_mentions around initializes r]
  | .read _ _ => rfl
  | .assign _ _ e => by
      simp only [Expr.mentions, Expr.ids, List.filterMap_append,
        Expr.filterMap_id_mentions around initializes e]
      rfl
  | .call callee _ args => by
      simp only [Expr.mentions, Expr.ids, List.filterMap_append,
        Expr.filterMap_id_mentions around initializes callee,
        Expr.filterMap_id_listMentions around initializes args]

theorem Expr.filterMap_id_listMentions (around : List Enclosure) (initializes : Option Token) :
    (es : List Expr) →
      (Expr.listMentions around initializes es).filterMap Mention.id? = Expr.listIds es
  | [] => rfl
  | e :: es => by
      simp only [Expr.listMentions, Expr.listIds, List.filterMap_append,
        Expr.filterMap_id_mentions around initializes e,
        Expr.filterMap_id_listMentions around initializes es]

end

mutual

theorem Stmt.filterMap_id_mentions (around : List Enclosure) (path : Path) :
    (s : Stmt) → (s.mentions around path).filterMap Mention.id? = s.ids
  | .expression e | .print e | .returning _ (some e) => Expr.filterMap_id_mentions around none e
  | .var _ none | .returning _ none => rfl
  | .var name (some e) => Expr.filterMap_id_mentions around (some name) e
  | .block body => Stmt.filterMap_id_listMentions (.block path :: around) path 0 body
  | .conditional c yes none => by
      simp only [Stmt.mentions, Stmt.ids, List.filterMap_append,
        Expr.filterMap_id_mentions around none c, Stmt.filterMap_id_mentions around (0 :: path) yes]
  | .conditional c yes (some no) => by
      simp only [Stmt.mentions, Stmt.ids, List.filterMap_append,
        Expr.filterMap_id_mentions around none c, Stmt.filterMap_id_mentions around (0 :: path) yes,
        Stmt.filterMap_id_mentions around (1 :: path) no]
  | .whileLoop c body => by
      simp only [Stmt.mentions, Stmt.ids, List.filterMap_append,
        Expr.filterMap_id_mentions around none c,
        Stmt.filterMap_id_mentions around (0 :: path) body]
  | .function decl => Stmt.filterMap_id_functionMentions around path decl
  | .classDecl _ methods => Stmt.filterMap_id_methodMentions around path 0 methods

theorem Stmt.filterMap_id_listMentions (around : List Enclosure) (path : Path) (i : Nat) :
    (body : List Stmt) →
      (Stmt.listMentions around path i body).filterMap Mention.id? = Stmt.listIds body
  | [] => rfl
  | s :: rest => by
      simp only [Stmt.listMentions, Stmt.listIds, List.filterMap_append,
        Stmt.filterMap_id_mentions around (i :: path) s,
        Stmt.filterMap_id_listMentions around path (i + 1) rest]

theorem Stmt.filterMap_id_functionMentions (around : List Enclosure) (path : Path) :
    (f : Function) →
      (Stmt.functionMentions around path f).filterMap Mention.id? = Stmt.functionIds f
  | ⟨_, params, body⟩ => by
      have hparams : (params.map (⟨·, .declared, .body path :: around⟩ : Token → Mention)).filterMap
          Mention.id? = [] := by
        rw [List.filterMap_map]
        exact List.filterMap_eq_nil_iff.mpr fun _ _ => rfl
      rw [Stmt.functionMentions, List.filterMap_append, hparams, List.nil_append]
      exact Stmt.filterMap_id_listMentions (.body path :: around) path 0 body

theorem Stmt.filterMap_id_methodMentions (around : List Enclosure) (path : Path) (i : Nat) :
    (fs : List Function) →
      (Stmt.methodMentions around path i fs).filterMap Mention.id? = Stmt.methodIds fs
  | [] => rfl
  | f :: fs => by
      simp only [Stmt.methodMentions, Stmt.methodIds, List.filterMap_append,
        Stmt.filterMap_id_functionMentions around (i :: path) f,
        Stmt.filterMap_id_methodMentions around path (i + 1) fs]

end

/-- What is met in an expression declares nothing, and stands where the expression stands. -/
structure Mention.Plain (around : List Enclosure) (m : Mention) : Prop where
  around : m.around = around
  role : m.role ≠ .declared

mutual

theorem Expr.plain_mentions (around : List Enclosure) (initializes : Option Token) :
    (e : Expr) → ∀ m ∈ e.mentions around initializes, m.Plain around
  | .literal _ => fun _ hm => by cases hm
  | .grouping e | .unary _ e => Expr.plain_mentions around initializes e
  | .binary l _ r | .logical l _ r => fun m hm =>
      (List.mem_append.mp hm).elim (Expr.plain_mentions around initializes l m)
        (Expr.plain_mentions around initializes r m)
  | .read _ _ => fun m hm => by
      obtain rfl := List.mem_singleton.mp hm
      exact ⟨rfl, nofun⟩
  | .assign _ _ e => fun m hm => by
      rcases List.mem_append.mp hm with hm | hm
      · exact Expr.plain_mentions around initializes e m hm
      · obtain rfl := List.mem_singleton.mp hm
        exact ⟨rfl, nofun⟩
  | .call callee _ args => fun m hm =>
      (List.mem_append.mp hm).elim (Expr.plain_mentions around initializes callee m)
        (Expr.plain_listMentions around initializes args m)

theorem Expr.plain_listMentions (around : List Enclosure) (initializes : Option Token) :
    (es : List Expr) → ∀ m ∈ Expr.listMentions around initializes es, m.Plain around
  | [] => fun _ hm => by cases hm
  | e :: es => fun m hm =>
      (List.mem_append.mp hm).elim (Expr.plain_mentions around initializes e m)
        (Expr.plain_listMentions around initializes es m)

end

/-- What is met in the statement at a place stands in what is around the statement, and else only in
blocks and bodies at that place or further in. -/
def Mention.Inside (around : List Enclosure) (path : Path) (m : Mention) : Prop :=
  ∃ inner, m.around = inner ++ around ∧ ∀ e ∈ inner, path <:+ e.place

namespace Mention.Inside

variable {m : Mention} {around : List Enclosure} {path path' : Path} {e : Enclosure}

theorem here (h : m.around = around) : m.Inside around path := ⟨[], h, nofun⟩

theorem outward (h : m.Inside around path') (hp : path <:+ path') : m.Inside around path := by
  obtain ⟨inner, hm, hi⟩ := h
  exact ⟨inner, hm, fun e he => hp.trans (hi e he)⟩

/-- What is met in a block or a body at a place is met at that place. -/
theorem leave (h : m.Inside (e :: around) path) (he : path <:+ e.place) : m.Inside around path := by
  obtain ⟨inner, hm, hi⟩ := h
  refine ⟨inner ++ [e], by simpa using hm, fun e' he' => ?_⟩
  rcases List.mem_append.mp he' with he' | he'
  · exact hi e' he'
  · obtain rfl := List.mem_singleton.mp he'
    exact he

end Mention.Inside

theorem Expr.inside_mentions {around : List Enclosure} {path : Path} {initializes : Option Token}
    {e : Expr} : ∀ m ∈ e.mentions around initializes, m.Inside around path :=
  fun m hm => .here (Expr.plain_mentions around initializes e m hm).around

mutual

theorem Stmt.inside_mentions (around : List Enclosure) (path : Path) :
    (s : Stmt) → ∀ m ∈ s.mentions around path, m.Inside around path
  | .expression _ | .print _ => Expr.inside_mentions
  | .var _ none | .returning _ none => fun m hm => by
      obtain rfl := List.mem_singleton.mp hm
      exact .here rfl
  | .var _ (some _) | .returning _ (some _) => fun m hm => by
      rcases List.mem_cons.mp hm with rfl | hm
      · exact .here rfl
      · exact Expr.inside_mentions m hm
  | .block body => fun m hm =>
      (Stmt.inside_listMentions (.block path :: around) path 0 body m hm).leave List.suffix_rfl
  | .conditional c yes none => fun m hm => by
      rcases List.mem_append.mp hm with hm | hm
      · exact Expr.inside_mentions m hm
      · exact (Stmt.inside_mentions around (0 :: path) yes m hm).outward (List.suffix_cons 0 path)
  | .conditional c yes (some no) => fun m hm => by
      rcases List.mem_append.mp hm with hm | hm
      · rcases List.mem_append.mp hm with hm | hm
        · exact Expr.inside_mentions m hm
        · exact (Stmt.inside_mentions around (0 :: path) yes m hm).outward (List.suffix_cons 0 path)
      · exact (Stmt.inside_mentions around (1 :: path) no m hm).outward (List.suffix_cons 1 path)
  | .whileLoop c body => fun m hm => by
      rcases List.mem_append.mp hm with hm | hm
      · exact Expr.inside_mentions m hm
      · exact (Stmt.inside_mentions around (0 :: path) body m hm).outward (List.suffix_cons 0 path)
  | .function decl => fun m hm => by
      rcases List.mem_cons.mp hm with rfl | hm
      · exact .here rfl
      · exact (Stmt.inside_functionMentions around path decl m hm).leave List.suffix_rfl
  | .classDecl _ methods => fun m hm => by
      rcases List.mem_cons.mp hm with rfl | hm
      · exact .here rfl
      · obtain ⟨j, h⟩ := Stmt.inside_methodMentions around path 0 methods m hm
        exact (h.leave List.suffix_rfl).outward (List.suffix_cons j path)

theorem Stmt.inside_listMentions (around : List Enclosure) (path : Path) (i : Nat) :
    (body : List Stmt) → ∀ m ∈ Stmt.listMentions around path i body, m.Inside around path
  | [] => fun _ hm => by cases hm
  | s :: rest => fun m hm => by
      rcases List.mem_append.mp hm with hm | hm
      · exact (Stmt.inside_mentions around (i :: path) s m hm).outward (List.suffix_cons i path)
      · exact Stmt.inside_listMentions around path (i + 1) rest m hm

theorem Stmt.inside_functionMentions (around : List Enclosure) (path : Path) :
    (f : Function) →
      ∀ m ∈ Stmt.functionMentions around path f, m.Inside (.body path :: around) path
  | ⟨_, params, body⟩ => fun m hm => by
      rcases List.mem_append.mp hm with hm | hm
      · obtain ⟨p, -, rfl⟩ := List.mem_map.mp hm
        exact .here rfl
      · exact Stmt.inside_listMentions (.body path :: around) path 0 body m hm

theorem Stmt.inside_methodMentions (around : List Enclosure) (path : Path) (i : Nat) :
    (fs : List Function) → ∀ m ∈ Stmt.methodMentions around path i fs,
      ∃ j, m.Inside (.body (j :: path) :: around) (j :: path)
  | [] => fun _ hm => by cases hm
  | f :: fs => fun m hm => by
      rcases List.mem_append.mp hm with hm | hm
      · exact ⟨i, Stmt.inside_functionMentions around (i :: path) f m hm⟩
      · exact Stmt.inside_methodMentions around path (i + 1) fs m hm

end

end Lox
