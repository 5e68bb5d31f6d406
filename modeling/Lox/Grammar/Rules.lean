import Lox.Grammar.Rule

/-!
The rules of the grammar, from the operators that bind tightest up to declarations.

A rule that may hold another of its own sort takes the rules one level further in as an argument,
`inner`. `rules` ties the knot: it stacks as many levels as may be open at once.

    program     → declaration* ;
    declaration → "class" IDENT "{" function* "}" | "fun" function | varRest | statement ;
    function    → IDENT "(" ( IDENT ( "," IDENT )* )? ")" block ;
    varRest     → "var" IDENT ( "=" expression )? ";" ;
    statement   → "print" expression ";" | "return" expression? ";" | block
                | "if" "(" expression ")" statement ( "else" statement )?
                | "while" "(" expression ")" statement
                | "for" "(" ( varRest | expression ";" | ";" ) expression? ";" expression? ")" statement
                | expression ";" ;
    block       → "{" declaration* "}" ;
    expression  → disjunction ( "=" expression )? ;
    disjunction → conjunction ( "or" conjunction )* ;
    conjunction → equality ( "and" equality )* ;
    equality    → comparison ( ( "!=" | "==" ) comparison )* ;
    comparison  → term ( ( ">" | ">=" | "<" | "<=" ) term )* ;
    term        → factor ( ( "-" | "+" ) factor )* ;
    factor      → operand ( ( "/" | "*" ) operand )* ;
    operand     → ( "!" | "-" ) operand | call ;
    call        → primary ( "(" ( expression ( "," expression )* )? ")" )* ;
    primary     → NUMBER | STRING | "true" | "false" | "nil" | IDENT | "(" expression ")" ;
-/

namespace Lox.Grammar

structure Rules where
  expression : Rule Expr
  operand : Rule Expr
  statement : Rule Stmt
  block : Rule (List Stmt)

def literalOf? : Kind → Option Literal
  | .keyword .kwFalse => some (.boolean false)
  | .keyword .kwTrue => some (.boolean true)
  | .keyword .kwNil => some .nil
  | .number x => some (.number x)
  | .string s => some (.string s)
  | _ => none

def isEquality (k : Kind) : Bool := k = .symbol .bangEqual || k = .symbol .equalEqual

def isComparison (k : Kind) : Bool :=
  k = .symbol .greater || k = .symbol .greaterEqual || k = .symbol .less || k = .symbol .lessEqual

def isTerm (k : Kind) : Bool := k = .symbol .minus || k = .symbol .plus

def isFactor (k : Kind) : Bool := k = .symbol .slash || k = .symbol .star

def isUnary (k : Kind) : Bool := k = .symbol .bang || k = .symbol .minus

section

variable (inner : Rules)

/-! ### Expressions -/

def primary : Rule Expr := do
  if let some l ← acceptMap fun t => literalOf? t.kind then
    return .literal l
  if let some name ← accept .identifier then
    return .read (← freshId) name
  if let some _ ← accept (.symbol .leftParen) then
    let e ← inner.expression
    let _ ← expectSymbol .rightParen .afterExpression
    return .grouping e
  refuse (.missing .expression)

/-- One entry of a list, with a fault noted when the list is full already. -/
def entry {α : Type} (what : Listed) (item : Rule α) (read : Array α) : Rule (Array α) := do
  if read.size = maxArity then noteHere (.tooMany what)
  return read.push (← item)

/-- Entries with commas between them. -/
def listOf {α : Type} (what : Listed) (item : Rule α) : Rule (List α) := do
  let first ← entry what item #[]
  let all ← repeatedly first fun read => do
    match ← accept (.symbol .comma) with
    | some _ => return some (← entry what item read)
    | none => return none
  return all.toList

/-- A list that may be empty, with a closing bracket behind it. -/
def listUpToParen {α : Type} (what : Listed) (item : Rule α) (place : Place) :
    Rule (List α × Token) := do
  let entries ← if ← ahead (.symbol .rightParen) then pure [] else listOf what item
  let paren ← expectSymbol .rightParen place
  return (entries, paren)

def call : Rule Expr := do
  repeatedly (← primary inner) fun callee => do
    match ← accept (.symbol .leftParen) with
    | some _ =>
      let (args, paren) ← listUpToParen .arguments inner.expression .afterArguments
      return some (.call callee paren args)
    | none => return none

def unary : Rule Expr := do
  match ← acceptIf isUnary with
  | some op => return .unary op (← inner.operand)
  | none => call inner

/-- Operands joined by operators of one level, grouped to the left. -/
def chain (isOperator : Kind → Bool) (join : Expr → Token → Expr → Expr) (operand : Rule Expr) :
    Rule Expr := do
  repeatedly (← operand) fun left => do
    match ← acceptIf isOperator with
    | some op => return some (join left op (← operand))
    | none => return none

def factor : Rule Expr := chain isFactor .binary (unary inner)
def term : Rule Expr := chain isTerm .binary (factor inner)
def comparison : Rule Expr := chain isComparison .binary (term inner)
def equality : Rule Expr := chain isEquality .binary (comparison inner)
def conjunction : Rule Expr := chain (· = .keyword .kwAnd) .logical (equality inner)
def disjunction : Rule Expr := chain (· = .keyword .kwOr) .logical (conjunction inner)

/-- An assignment whose left side is no name is noted and leaves its left side. -/
def assignment : Rule Expr := do
  let target ← disjunction inner
  match ← accept (.symbol .equal) with
  | none => return target
  | some equals =>
    let value ← inner.expression
    match target with
    | .read _ name => return .assign (← freshId) name value
    | _ =>
      noteAt equals.line .invalidTarget
      return target

/-! ### Statements -/

def optional {α : Type} (missing : Rule Bool) (item : Rule α) : Rule (Option α) := do
  if ← missing then return none else return some (← item)

def varRest : Rule Stmt := do
  let name ← expectName .variable
  let initial ← match ← accept (.symbol .equal) with
    | some _ => do pure (some (← inner.expression))
    | none => pure none
  let _ ← expectSymbol .semicolon .afterVariable
  return .var name initial

def expressionStatement : Rule Stmt := do
  let e ← inner.expression
  let _ ← expectSymbol .semicolon .afterExpression
  return .expression e

def printRest : Rule Stmt := do
  let e ← inner.expression
  let _ ← expectSymbol .semicolon .afterPrinted
  return .print e

def returnRest (keyword : Token) : Rule Stmt := do
  let value ← optional (ahead (.symbol .semicolon)) inner.expression
  let _ ← expectSymbol .semicolon .afterReturned
  return .returning keyword value

def ifRest : Rule Stmt := do
  let _ ← expectSymbol .leftParen (.afterKeyword .kwIf)
  let condition ← inner.expression
  let _ ← expectSymbol .rightParen .afterIfCondition
  let yes ← inner.statement
  match ← accept (.keyword .kwElse) with
  | some _ => return .conditional condition yes (some (← inner.statement))
  | none => return .conditional condition yes none

def whileRest : Rule Stmt := do
  let _ ← expectSymbol .leftParen (.afterKeyword .kwWhile)
  let condition ← inner.expression
  let _ ← expectSymbol .rightParen .afterWhileCondition
  return .whileLoop condition (← inner.statement)

/-- A loop with clauses as a loop without: the first clause stands in front of it, the last one
behind its body, and a condition left out is true. -/
def forLoop (initial : Option Stmt) (condition increment : Option Expr) (body : Stmt) : Stmt :=
  let body := match increment with
    | some e => .block [body, .expression e]
    | none => body
  let loop := Stmt.whileLoop (condition.getD (.literal (.boolean true))) body
  match initial with
  | some s => .block [s, loop]
  | none => loop

def forInitial : Rule (Option Stmt) := do
  if let some _ ← accept (.symbol .semicolon) then
    return none
  if let some _ ← accept (.keyword .kwVar) then
    return some (← varRest inner)
  return some (← expressionStatement inner)

def forRest : Rule Stmt := do
  let _ ← expectSymbol .leftParen (.afterKeyword .kwFor)
  let initial ← forInitial inner
  let condition ← optional (ahead (.symbol .semicolon)) inner.expression
  let _ ← expectSymbol .semicolon .afterLoopCondition
  let increment ← optional (ahead (.symbol .rightParen)) inner.expression
  let _ ← expectSymbol .rightParen .afterForClauses
  return forLoop initial condition increment (← inner.statement)

def statementRule : Rule Stmt := do
  if let some _ ← accept (.keyword .kwFor) then
    return ← forRest inner
  if let some _ ← accept (.keyword .kwIf) then
    return ← ifRest inner
  if let some _ ← accept (.keyword .kwWhile) then
    return ← whileRest inner
  if let some keyword ← accept (.keyword .kwReturn) then
    return ← returnRest inner keyword
  if let some _ ← accept (.symbol .leftBrace) then
    return .block (← inner.block)
  if let some _ ← accept (.keyword .kwPrint) then
    return ← printRest inner
  expressionStatement inner

/-! ### Declarations -/

def function (c : Callee) : Rule Function := do
  let name ← expectName (.callee c)
  let _ ← expectSymbol .leftParen (.afterName c)
  let (params, _) ← listUpToParen .parameters (expectName .parameter) .afterParameters
  let _ ← expectSymbol .leftBrace (.beforeBody c)
  return ⟨name, params, ← inner.block⟩

/-- Whether a closing brace or the end is next. -/
def atClose : Rule Bool := do
  if ← ahead (.symbol .rightBrace) then return true else atEnd

def classRest : Rule Stmt := do
  let name ← expectName .klass
  let _ ← expectSymbol .leftBrace .beforeClassBody
  let methods ← repeatedly #[] fun read => do
    if ← atClose then return none
    return some (read.push (← function inner .method))
  let _ ← expectSymbol .rightBrace .afterClassBody
  return .classDecl name methods.toList

def declarationRule : Rule Stmt := do
  if let some _ ← accept (.keyword .kwClass) then
    return ← classRest inner
  if let some _ ← accept (.keyword .kwFun) then
    return .function (← function inner .function)
  if let some _ ← accept (.keyword .kwVar) then
    return ← varRest inner
  inner.statement

/-- The keywords in front of which reading starts anew after a fault. -/
def startsStatement : Kind → Bool
  | .keyword .kwClass | .keyword .kwFun | .keyword .kwVar | .keyword .kwFor | .keyword .kwIf
  | .keyword .kwWhile | .keyword .kwPrint | .keyword .kwReturn => true
  | _ => false

/-- How many tokens are passed over after a fault: those up to and with the next semicolon, or
those in front of the next keyword that starts a statement. -/
def toBoundary : List Token → Nat
  | [] => 0
  | t :: ts =>
    if t.kind = .symbol .semicolon then 1
    else if startsStatement t.kind then 0
    else toBoundary ts + 1

def State.recover (s : State) : State := s.drop (toBoundary s.rest)

/-- Notes the fault of a refused rule and reads on at the next boundary. -/
def recovering {α : Type} (rule : Rule α) : Rule (Option α) := fun s =>
  match rule s with
  | .ok a t => .ok (some a) t
  | .error (.refused f) t => .ok none { t with faults := t.faults.push f }.recover
  | .error .endless t => .error .endless t

def declaration : Rule (Option Stmt) := recovering (declarationRule inner)

/-- A declaration that must read on: one that reads nothing would be met again for ever. -/
def nextDeclaration (read : Array Stmt) : Rule (Array Stmt) := do
  let before := (← get).position
  let decl ← declaration inner
  if (← get).position = before then throw .endless
  return decl.elim read read.push

def blockRule : Rule (List Stmt) := do
  let body ← repeatedly #[] fun read => do
    if ← atClose then return none
    return some (← nextDeclaration inner read)
  let _ ← expectSymbol .rightBrace .afterBlock
  return body.toList

def program : Rule (List Stmt) := do
  let body ← repeatedly #[] fun read => do
    if ← atEnd then return none
    return some (← nextDeclaration inner read)
  return body.toList

end

/-- The rules that hold `inner` one level further in. -/
def Rules.around (inner : Rules) : Rules where
  expression := nested .expression (assignment inner)
  operand := nested .expression (unary inner)
  statement := nested .statement (statementRule inner)
  block := nested .block (blockRule inner)

/-- No rule that could be one level too deep. -/
def Rules.none : Rules where
  expression := refuse (.tooDeep .expression)
  operand := refuse (.tooDeep .expression)
  statement := refuse (.tooDeep .statement)
  block := refuse (.tooDeep .block)

/-- The rules for up to `levels` levels. -/
def rules : (levels : Nat) → Rules
  | 0 => Rules.none
  | levels + 1 => (rules levels).around

end Lox.Grammar
