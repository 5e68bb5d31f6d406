import Lox.Proofs.Run.Chronicle

/-!
The moments of a run. A run does one task after another: it evaluates an expression, executes a
statement, calls a function. Doing a task with one unit of fuel more has other tasks done, and
`Task.Asks` says which, one rule for each place where the evaluator calls itself.
-/

namespace Lox

inductive Task
  | eval (e : Expr)
  | evalAll (es : List Expr)
  | apply (c : Callable) (args : List Value) (line : Nat)
  | exec (s : Stmt)
  | execAll (body : List Stmt)

/-- The machine as a run leaves it, however the run ends. -/
def Eval.leaves {α : Type} (x : Eval α) (m : Machine) : Machine :=
  match x m with
  | .ok _ m' => m'
  | .error _ m' => m'

/-- The name that a statement declares itself, if it gets so far. -/
def Stmt.declares? : Stmt → Option String
  | .var name _ => some name.lexeme
  | .function decl => some decl.name.lexeme
  | _ => none

namespace Task

def leaves (host : Host) (fuel : Nat) : Task → Machine → Machine
  | .eval e => Eval.leaves (Lox.eval host fuel e)
  | .evalAll es => Eval.leaves (Lox.evalAll host fuel es)
  | .apply c args line => Eval.leaves (Lox.apply host fuel c args line)
  | .exec s => Eval.leaves (Lox.exec host fuel s)
  | .execAll body => Eval.leaves (Lox.execAll host fuel body)

def isExpression : Task → Bool
  | .eval _ | .evalAll _ => true
  | _ => false

def isCall : Task → Bool
  | .apply .. => true
  | _ => false

/-- The tasks that have a scope of their own for whatever is declared on the way. -/
def isScoped : Task → Bool
  | .exec (.block _) | .exec (.conditional ..) | .exec (.whileLoop ..) | .apply .. => true
  | _ => false

/-- The tasks that may declare a name in the frame in which they are done. -/
def isOpen : Task → Bool
  | .exec s => s.isDeclaration
  | .execAll _ => true
  | _ => false

/-- Doing a task with `fuel + 1` in one machine has another one done with `fuel` in another. -/
inductive Asks (host : Host) (fuel : Nat) : Task → Machine → Task → Machine → Prop
  | inner {e m} : Asks host fuel (.eval (.grouping e)) m (.eval e) m
  | operand {op e m} : Asks host fuel (.eval (.unary op e)) m (.eval e) m
  | left {l op r m} : Asks host fuel (.eval (.binary l op r)) m (.eval l) m
  | right {l op r m v n} (h : Lox.eval host fuel l m = .ok v n) :
      Asks host fuel (.eval (.binary l op r)) m (.eval r) n
  | first {l op r m} : Asks host fuel (.eval (.logical l op r)) m (.eval l) m
  | second {l op r m v n} (h : Lox.eval host fuel l m = .ok v n) (hd : decides op v = false) :
      Asks host fuel (.eval (.logical l op r)) m (.eval r) n
  | assigned {id name e m} : Asks host fuel (.eval (.assign id name e)) m (.eval e) m
  | callee {e paren args m} : Asks host fuel (.eval (.call e paren args)) m (.eval e) m
  | arguments {e paren args m v n} (h : Lox.eval host fuel e m = .ok v n) :
      Asks host fuel (.eval (.call e paren args)) m (.evalAll args) n
  | call {e paren args m v n vs n' c} (h : Lox.eval host fuel e m = .ok v n)
      (hs : Lox.evalAll host fuel args n = .ok vs n')
      (hc : calleeOf paren.line v vs.length = .ok c) (hd : n'.callDepth < maxCallDepth) :
      Asks host fuel (.eval (.call e paren args)) m (.apply c vs paren.line)
        { n' with callDepth := n'.callDepth + 1 }
  | argument {e es m} : Asks host fuel (.evalAll (e :: es)) m (.eval e) m
  | others {e es m v n} (h : Lox.eval host fuel e m = .ok v n) :
      Asks host fuel (.evalAll (e :: es)) m (.evalAll es) n
  | body {c args line m frame n} (h : openCall c args m = .ok frame n) :
      Asks host fuel (.apply (.closure c) args line) m (.execAll c.decl.body)
        { n with current := frame }
  | expression {e m} : Asks host fuel (.exec (.expression e)) m (.eval e) m
  | print {e m} : Asks host fuel (.exec (.print e)) m (.eval e) m
  | initial {name e m} : Asks host fuel (.exec (.var name (some e))) m (.eval e) m
  | block {body m frame n} (h : openFrame m.current m = .ok frame n) :
      Asks host fuel (.exec (.block body)) m (.execAll body) { n with current := frame }
  | condition {e yes no m} : Asks host fuel (.exec (.conditional e yes no)) m (.eval e) m
  | yes {e yes no m v n n'} (h : Lox.eval host fuel e m = .ok v n) (hs : see v n = .ok () n')
      (ht : v.truthy = true) : Asks host fuel (.exec (.conditional e yes no)) m (.exec yes) n'
  | no {e yes no m v n n'} (h : Lox.eval host fuel e m = .ok v n) (hs : see v n = .ok () n')
      (ht : v.truthy = false) :
      Asks host fuel (.exec (.conditional e yes (some no))) m (.exec no) n'
  | test {e body m} : Asks host fuel (.exec (.whileLoop e body)) m (.eval e) m
  | round {e body m v n n'} (h : Lox.eval host fuel e m = .ok v n) (hs : see v n = .ok () n')
      (ht : v.truthy = true) : Asks host fuel (.exec (.whileLoop e body)) m (.exec body) n'
  | again {e body m v n n' n''} (h : Lox.eval host fuel e m = .ok v n) (hs : see v n = .ok () n')
      (ht : v.truthy = true) (hb : Lox.exec host fuel body n' = .ok .normal n'') :
      Asks host fuel (.exec (.whileLoop e body)) m (.exec (.whileLoop e body)) n''
  | result {keyword e m} : Asks host fuel (.exec (.returning keyword (some e))) m (.eval e) m
  | statement {s ss m} : Asks host fuel (.execAll (s :: ss)) m (.exec s) m
  | rest {s ss m n} (h : Lox.exec host fuel s m = .ok .normal n) :
      Asks host fuel (.execAll (s :: ss)) m (.execAll ss) n

/-- What is done, and in which machine, in the course of doing a task. -/
inductive Within (host : Host) (fuel : Nat) (task : Task) (m : Machine) :
    Nat → Task → Machine → Prop
  | self : Within host fuel task m fuel task m
  | part {fuel' task' m' task'' m''} (h : Within host fuel task m (fuel' + 1) task' m')
      (ha : Asks host fuel' task' m' task'' m'') : Within host fuel task m fuel' task'' m''

end Task

/-- What a run does, and in which machine, when a session runs a source text: the statements of the
program, one after another, and whatever they ask for. -/
inductive Run.Does (r : Run) (s : Session) : Nat → Task → Machine → Prop
  | statement {front stmt back s' m} (hf : Source.faults r.source = [])
      (ha : s.accept (Source.tokens r.source) = (.ok (front ++ stmt :: back), s'))
      (hm : runAll r.host r.fuel front s'.ready = .ok () m) : Does r s r.fuel (.exec stmt) m
  | part {fuel task m task' m'} (h : Does r s (fuel + 1) task m)
      (ha : Task.Asks r.host fuel task m task' m') : Does r s fuel task' m'

end Lox
