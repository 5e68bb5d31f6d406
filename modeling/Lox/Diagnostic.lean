import Lox.Grammar.Cause
import Lox.Machine.Cause
import Lox.Scope.Basic
import Lox.Source.Item

/-!
Faults of every stage as lines of text, and the report of a program that failed.
-/

namespace Lox

open Grammar Source

inductive Stage
  | lex
  | parse
  | resolve
  | runtime
  deriving DecidableEq, Repr

inductive Diagnostic
  | lex (f : Fault LexCause)
  | parse (f : Fault SyntaxCause)
  | resolve (f : Fault ScopeCause)
  | runtime (f : RuntimeFault)
  deriving DecidableEq, Repr

namespace Diagnostic

def stage : Diagnostic → Stage
  | .lex _ => .lex
  | .parse _ => .parse
  | .resolve _ => .resolve
  | .runtime _ => .runtime

def line : Diagnostic → Nat
  | .lex f => f.line
  | .parse f => f.line
  | .resolve f => f.line
  | .runtime f => f.line

def message : Diagnostic → String
  | .lex f => f.cause.message
  | .parse f => f.cause.message
  | .resolve f => f.cause.message
  | .runtime f => f.cause.message

def text (d : Diagnostic) : String :=
  let label := if d.stage = .runtime then "Runtime error: " else "Error: "
  "[line " ++ toString d.line ++ "] " ++ label ++ d.message

end Diagnostic

def Stage.heading : Stage → String
  | .lex => "Lexing errors:"
  | .parse => "Parsing errors:"
  | .resolve => "Semantic analysis errors:"
  | .runtime => "Runtime error:"

/-- Why a program did not run to its end: the faults of the first stage that found any. -/
inductive Failure
  | lex (fs : List (Fault LexCause))
  | parse (fs : List (Fault SyntaxCause))
  | resolve (fs : List (Fault ScopeCause))
  | runtime (f : RuntimeFault)
  deriving DecidableEq, Repr

namespace Failure

def stage : Failure → Stage
  | .lex _ => .lex
  | .parse _ => .parse
  | .resolve _ => .resolve
  | .runtime _ => .runtime

def diagnostics : Failure → List Diagnostic
  | .lex fs => fs.map .lex
  | .parse fs => fs.map .parse
  | .resolve fs => fs.map .resolve
  | .runtime f => [.runtime f]

/-- The heading and one line for each fault. -/
def text (f : Failure) : String :=
  "\n".intercalate (f.stage.heading :: f.diagnostics.map Diagnostic.text)

end Failure

end Lox
