import Lox.Machine.State

/-!
Running programs. Every step of a run takes one unit of fuel, so that a run is a finite object even
when the program would never end: it then stops for want of fuel.
-/

namespace Lox

variable (host : Host)

mutual

def eval : (fuel : Nat) → Expr → Eval Value
  | 0, _ => throw .outOfFuel
  | fuel + 1, e =>
    match e with
    | .literal l => return .ofLiteral l
    | .grouping e => eval fuel e
    | .unary op e => do
      let v ← eval fuel e
      orRaise (applyUnary op v)
    | .binary l op r => do
      let v ← eval fuel l
      let w ← eval fuel r
      orRaise (applyBinary op v w)
    | .logical l op r => do
      let v ← eval fuel l
      if decides op v then return v else eval fuel r
    | .read id name => readVariable id name
    | .assign id name e => do
      let v ← eval fuel e
      assignVariable id name v
      return v
    | .call callee paren args => do
      let v ← eval fuel callee
      let vs ← evalAll fuel args
      let c ← orRaise (calleeOf paren.line v vs.length)
      asCall paren.line (apply fuel c vs paren.line)

def evalAll : (fuel : Nat) → List Expr → Eval (List Value)
  | 0, _ => throw .outOfFuel
  | _ + 1, [] => return []
  | fuel + 1, e :: es => do
    let v ← eval fuel e
    let vs ← evalAll fuel es
    return v :: vs

/-- Runs a function on arguments whose number nobody checks any more. -/
def apply : (fuel : Nat) → Callable → List Value → (line : Nat) → Eval Value
  | 0, _, _, _ => throw .outOfFuel
  | _ + 1, .native n, args, line => callNative host n args line
  | fuel + 1, .closure c, args, _ => do
    let frame ← openCall c args
    match ← within frame (execAll fuel c.decl.body) with
    | .returned v => return v
    | .normal => return .nil

def exec : (fuel : Nat) → Stmt → Eval Flow
  | 0, _ => throw .outOfFuel
  | fuel + 1, s =>
    match s with
    | .expression e => do
      let v ← eval fuel e
      see v
      return .normal
    | .print e => do
      let v ← eval fuel e
      printLine v
      return .normal
    | .var name none => do
      defineHere name.lexeme .nil
      return .normal
    | .var name (some e) => do
      let v ← eval fuel e
      see v
      defineHere name.lexeme v
      return .normal
    | .block body => do
      let frame ← openFrame (← get).current
      within frame (execAll fuel body)
    | .conditional c yes no => do
      let v ← eval fuel c
      see v
      if v.truthy then exec fuel yes
      else
        match no with
        | some no => exec fuel no
        | none => return .normal
    | .whileLoop c body => do
      let v ← eval fuel c
      see v
      if v.truthy then
        match ← exec fuel body with
        | .returned v => return .returned v
        | .normal => exec fuel s
      else return .normal
    | .function decl => do
      declareFunction decl
      return .normal
    | .returning _ none => return .returned .nil
    | .returning _ (some e) => do
      let v ← eval fuel e
      see v
      return .returned v
    | .classDecl name _ => raise name.line (.classUnsupported name.lexeme)

def execAll : (fuel : Nat) → List Stmt → Eval Flow
  | 0, _ => throw .outOfFuel
  | _ + 1, [] => return .normal
  | fuel + 1, s :: ss => do
    match ← exec fuel s with
    | .returned v => return .returned v
    | .normal => execAll fuel ss

end

/-- Runs the statements of a program, with no heed to where one of them returns. -/
def runAll (fuel : Nat) : List Stmt → Eval Unit
  | [] => return ()
  | s :: ss => do
    let _ ← exec host fuel s
    runAll fuel ss

end Lox
