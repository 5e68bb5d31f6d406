/-!
The command line: a subcommand with its file and its flags. The flag that asks for a log may stand
in front of the subcommand or behind it, once in each place. Everything behind two dashes is a file.
-/

namespace Lox.Command

inductive Action
  | version
  | tokenize (file : Option String) (json : Bool)
  | parse (file : Option String)
  | run (file : Option String)
  | repl
  deriving DecidableEq, Repr

structure Options where
  action : Action
  log : Bool
  deriving DecidableEq, Repr

inductive Subcommand
  | tokenize
  | parse
  | run
  | repl
  deriving DecidableEq, Repr

def Subcommand.ofText? : String → Option Subcommand
  | "tokenize" => some .tokenize
  | "parse" => some .parse
  | "run" => some .run
  | "repl" => some .repl
  | _ => none

/-- What was read behind a subcommand. -/
structure Operands where
  file : Option String := none
  json : Bool := false
  log : Bool := false

def Operands.addFile (c : Subcommand) (arg : String) (o : Operands) : Option Operands :=
  if c = .repl ∨ o.file.isSome ∨ arg = "" then none else some { o with file := some arg }

/-- A flag that is unknown or repeated makes the command line invalid. -/
def Operands.addFlag (c : Subcommand) (arg : String) (o : Operands) : Option Operands :=
  if arg = "--log" ∧ !o.log then some { o with log := true }
  else if arg = "--json" ∧ c = .tokenize ∧ !o.json then some { o with json := true }
  else none

def isFlag (arg : String) : Bool := arg.startsWith "-" && arg != "-"

def Operands.read (c : Subcommand) (o : Operands) : List String → Option Operands
  | [] => some o
  | "--" :: files => files.foldlM (fun o arg => o.addFile c arg) o
  | arg :: rest =>
    (if isFlag arg then o.addFlag c arg else o.addFile c arg).bind fun o => Operands.read c o rest

def Operands.action (o : Operands) : Subcommand → Action
  | .tokenize => .tokenize o.file o.json
  | .parse => .parse o.file
  | .run => .run o.file
  | .repl => .repl

/-- Flags of one letter may be written together behind one dash. The first of them is enough to ask
for the version. -/
def asksVersion (arg : String) : Bool := arg = "--version" || arg.startsWith "-V"

/-- With no subcommand the prompt is started. What stands behind the flag for the version does not
matter. -/
def Options.read (log : Bool) : List String → Option Options
  | [] => some ⟨.repl, log⟩
  | ["--"] => some ⟨.repl, log⟩
  | arg :: rest =>
    if asksVersion arg then some ⟨.version, log⟩
    else if arg = "--log" then (if log then none else Options.read true rest)
    else
      (Subcommand.ofText? arg).bind fun c =>
        (Operands.read c {} rest).map fun o => ⟨o.action c, log || o.log⟩

/-- The options that a list of arguments means, if it is a valid one. -/
def Options.ofArgs? (args : List String) : Option Options := Options.read false args

/-- The file that a command works on. -/
def Options.file? (o : Options) : Option String :=
  match o.action with
  | .tokenize file _ | .parse file | .run file => file
  | .version | .repl => none

/-- Whether the prompt is started. -/
def Options.prompts (o : Options) : Bool :=
  match o.action with
  | .run none | .repl => true
  | _ => false

end Lox.Command
