import Lox.Command.Options
import Lox.Command.Report

/-!
The prompt: every line is a program of its own, run in one session, and its result or its faults
are shown behind what it prints.
-/

namespace Lox.Command

def promptText : String := "> "

/-- What is written for a line, and the session behind it. -/
def promptLine (host : Host) (fuel : Nat) (line : String) (s : Session) : String × Session :=
  let (outcome, s) := s.run host fuel line
  let (printed, s) := s.takeLines
  let answer := match outcome with
    | .done result => result
    | .failed f => f.text
    | .unfinished => "The program was cut off."
  (unlines (printed ++ [answer]), s)

/-- Takes the line end off a line; a carriage return goes with a line feed only. -/
def withoutEnd (line : List UInt8) : List UInt8 :=
  match line.reverse with
  | 10 :: 13 :: rest => rest.reverse
  | 10 :: rest => rest.reverse
  | _ => line

/-- The lines of an input, each with its end. -/
def splitLines (input : List UInt8) : List (List UInt8) := go [] [] input
where
  go (lines : List (List UInt8)) (line : List UInt8) : List UInt8 → List (List UInt8)
    | [] => (if line = [] then lines else line.reverse :: lines).reverse
    | b :: bs => if b = 10 then go ((b :: line).reverse :: lines) [] bs else go lines (b :: line) bs

def lineText? (line : List UInt8) : Option String :=
  String.fromUTF8? ⟨(withoutEnd line).toArray⟩

def unreadableLine : Report := failed "Failed to read from stdin" invalidText

/-- All that is written while an input is read to its end, given the host at each line. -/
def transcript (host : Nat → Host) (fuel : Nat) (input : ByteArray) : Report :=
  go 0 "" Session.start (splitLines input.toList)
where
  go (n : Nat) (shown : String) (s : Session) : List (List UInt8) → Report
    | [] => { stdout := shown ++ promptText ++ "\n" }
    | line :: rest =>
      match lineText? line with
      | none => { unreadableLine with stdout := shown ++ promptText }
      | some text =>
        let (answer, s) := promptLine (host n) fuel text s
        go (n + 1) (shown ++ promptText ++ answer) s rest

/-- What the whole command writes, given the files and the input it may read. A file is run with the
host of the first line. -/
def Options.report (host : Nat → Host) (fuel : Nat) (read : String → Contents) (input : ByteArray)
    (o : Options) : Report :=
  match o.action with
  | .version => { stdout := versionText ++ "\n" }
  | .tokenize none _ | .parse none => noFile
  | .tokenize (some file) json => withText file (read file) (tokenize json)
  | .parse (some file) => withText file (read file) parse
  | .run (some file) => withText file (read file) (run (host 0) fuel)
  | .run none | .repl => transcript host fuel input

end Lox.Command
