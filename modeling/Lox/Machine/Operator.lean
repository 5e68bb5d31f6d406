import Lox.Machine.Cause

/-!
The operators on values. Both operands are at hand before an operator is looked at.
-/

namespace Lox

def negate (op : Token) : Value → Except RuntimeFault Value
  | .number x => .ok (.number (-x))
  | v => .error ⟨op.line, .negatedNonNumber v.type⟩

def applyUnary (op : Token) (v : Value) : Except RuntimeFault Value :=
  match op.kind with
  | .symbol .minus => negate op v
  | .symbol .bang => .ok (.boolean !v.truthy)
  | _ => .error ⟨op.line, .invalidUnary op.lexeme⟩

/-- Adds numbers, and joins the texts of values of which one is a string. -/
def add (op : Token) : Value → Value → Except RuntimeFault Value
  | .number x, .number y => .ok (.number (x + y))
  | .string s, v => .ok (.string (s ++ v.text))
  | v, .string t => .ok (.string (v.text ++ t))
  | v, w => .error ⟨op.line, .notAddable v.type w.type⟩

def onNumbers (op : Token) (f : Float → Float → Except RuntimeFault Value) :
    Value → Value → Except RuntimeFault Value
  | .number x, .number y => f x y
  | v, w => .error ⟨op.line, .notNumbers op.lexeme v.type w.type⟩

def divide (op : Token) (x y : Float) : Except RuntimeFault Value :=
  if y == 0 then .error ⟨op.line, .divisionByZero⟩ else .ok (.number (x / y))

def applyBinary (op : Token) (v w : Value) : Except RuntimeFault Value :=
  match op.kind with
  | .symbol .plus => add op v w
  | .symbol .minus => onNumbers op (fun x y => .ok (.number (x - y))) v w
  | .symbol .star => onNumbers op (fun x y => .ok (.number (x * y))) v w
  | .symbol .slash => onNumbers op (divide op) v w
  | .symbol .greater => onNumbers op (fun x y => .ok (.boolean (y < x))) v w
  | .symbol .greaterEqual => onNumbers op (fun x y => .ok (.boolean (y ≤ x))) v w
  | .symbol .less => onNumbers op (fun x y => .ok (.boolean (x < y))) v w
  | .symbol .lessEqual => onNumbers op (fun x y => .ok (.boolean (x ≤ y))) v w
  | .symbol .equalEqual => .ok (.boolean (v.same w))
  | .symbol .bangEqual => .ok (.boolean !v.same w)
  | _ => .error ⟨op.line, .invalidBinary op.lexeme⟩

/-- Whether the left side of a logical operator decides. -/
def decides (op : Token) (v : Value) : Bool :=
  if op.kind = .keyword .kwOr then v.truthy else !v.truthy

end Lox
