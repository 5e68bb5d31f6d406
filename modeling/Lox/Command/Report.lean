import Lox.Command.Hidden
import Lox.Session
import Lox.Token.Text
import Lox.Tree.Text

/-!
What the commands write and the code they end with. A command works on the text of a file, or tells
why it has none.
-/

namespace Lox.Command

structure Report where
  stdout : String := ""
  stderr : String := ""
  code : Nat := 0
  deriving DecidableEq, Repr

def usageCode : Nat := 64
def dataCode : Nat := 65
def softwareCode : Nat := 70

def versionText : String := "rlox 0.1.0"

/-- Every line with its end. -/
def unlines (lines : List String) : String := String.join (lines.map (· ++ "\n"))

/-- What came of reading a file or a line. -/
inductive Contents
  | unopened (reason : String)
  | unreadable (reason : String)
  | bytes (b : ByteArray)

def invalidText : String := "stream did not contain valid UTF-8"

def hexText (n : Nat) : String := String.ofList (Nat.toDigits 16 n)

def escaped (c : Char) : String :=
  match c with
  | '"' => "\\\""
  | '\\' => "\\\\"
  | '\n' => "\\n"
  | '\r' => "\\r"
  | '\t' => "\\t"
  | '\x00' => "\\0"
  | c => if isHidden c then "\\u\x7b" ++ hexText c.toNat ++ "\x7d" else String.singleton c

/-- The name of a file in double quotes; a single quote in it stays as it is. -/
def quotedName (file : String) : String :=
  "\"" ++ String.join (file.toList.map escaped) ++ "\""

def failed (what reason : String) : Report :=
  { stderr := "Error: " ++ what ++ "\n\nCaused by:\n    " ++ reason ++ "\n", code := 1 }

/-- Goes on with the text of a file if there is one. -/
def withText (file : String) (contents : Contents) (command : String → Report) : Report :=
  match contents with
  | .unopened reason => failed ("Failed to open file " ++ quotedName file) reason
  | .unreadable reason => failed ("Failed to read file " ++ quotedName file) reason
  | .bytes b =>
    match String.fromUTF8? b with
    | some source => command source
    | none => failed ("Failed to read file " ++ quotedName file) invalidText

def noFile : Report := { stderr := "No input filepath was provided.\n", code := usageCode }

def invalidArguments : Report :=
  { stderr := "error: invalid arguments\n\nUsage: rlox [OPTIONS] [COMMAND]\n", code := 2 }

def unfinished : Report := { stderr := "The program was cut off.\n", code := softwareCode }

/-- The tokens are listed even if there are faults. -/
def tokenize (json : Bool) (source : String) : Report :=
  let tokens := Source.tokens source
  let faults := (Source.faults source).map fun f => (Diagnostic.lex f).text
  { stdout := if json then jsonListIndented tokens ++ "\n" else unlines (tokens.map Token.text)
    stderr := unlines faults
    code := if faults = [] then 0 else dataCode }

/-- The trees are shown only if there are no faults. -/
def parse (source : String) : Report :=
  match Program.ofTokens? (Source.tokens source) 0 with
  | none => unfinished
  | some p =>
    match (Source.faults source).map Diagnostic.lex ++ p.faults.map Diagnostic.parse with
    | [] => { stdout := unlines (p.statements.map Stmt.text) }
    | d :: ds => { stderr := unlines ((d :: ds).map Diagnostic.text), code := dataCode }

/-- The program prints; what it comes to is not shown. -/
def run (host : Host) (fuel : Nat) (source : String) : Report :=
  let (outcome, session) := Session.start.run host fuel source
  let printed := unlines session.takeLines.1
  match outcome with
  | .done _ => { stdout := printed }
  | .failed f =>
    { stdout := printed
      stderr := f.text ++ "\n"
      code := if f.stage = .runtime then softwareCode else dataCode }
  | .unfinished => { unfinished with stdout := printed }

end Lox.Command
