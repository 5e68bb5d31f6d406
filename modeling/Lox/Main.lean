import Lox.Command.Prompt
import Lox.Machine.Clock
import Std.Time.DateTime.Timestamp

/-!
The program itself: reads its arguments, files and input, and writes what the commands make of them.
-/

namespace Lox.Command

/-- More steps than any run takes. -/
def ampleFuel : Nat := Nat.pow 2 62

def reasonOf (e : IO.Error) : String :=
  match e with
  | .noFileOrDirectory _ code details => text code details
  | .permissionDenied _ code details => text code details
  | .inappropriateType _ code details => text code details
  | .invalidArgument _ code details => text code details
  | .resourceExhausted _ code details => text code details
  | .noSuchThing _ code details => text code details
  | .interrupted _ code details => text code details
  | .unsupportedOperation code details => text code details
  | .hardwareFault code details => text code details
  | .resourceBusy code details => text code details
  | .otherError code details => text code details
  | e => toString e
where
  text (code : UInt32) (details : String) : String := details ++ " (os error " ++ toString code ++ ")"

def readContents (file : String) : IO Contents := do
  match ← (IO.FS.Handle.mk file .read).toBaseIO with
  | .error e => return .unopened (reasonOf e)
  | .ok handle =>
    match ← handle.readBinToEnd.toBaseIO with
    | .error e => return .unreadable (reasonOf e)
    | .ok bytes => return .bytes bytes

/-- The clock tells seconds since 1970. It is set to the time of the system before a program
runs. -/
def hostNow : IO Host := do
  let now ← Std.Time.Timestamp.now
  let micros := (now.toNanosecondsSinceUnixEpoch.toInt / 1000).toNat
  return { clock := clockFrom micros, native := fun _ _ => .ok .nil }

/-- The bytes of the next line with its end, none at the end of the input. -/
partial def readLine (input : IO.FS.Stream) (line : List UInt8) : IO (List UInt8) := do
  let bytes ← input.read 1
  match bytes.toList with
  | [] => return line.reverse
  | b :: _ => if b = 10 then return (b :: line).reverse else readLine input (b :: line)

def write (r : Report) : IO UInt32 := do
  let out ← IO.getStdout
  let err ← IO.getStderr
  out.putStr r.stdout
  out.flush
  err.putStr r.stderr
  return r.code.toUInt32

partial def prompt (input : IO.FS.Stream) (s : Session) : IO UInt32 := do
  let out ← IO.getStdout
  out.putStr promptText
  out.flush
  let line ← readLine input []
  if line = [] then
    write { stdout := "\n" }
  else
    match lineText? line with
    | none => write unreadableLine
    | some text =>
      let (answer, s) := promptLine (← hostNow) ampleFuel text s
      out.putStr answer
      prompt input s

def logFile : String := "rlox.log"

def logArguments (args : List String) : IO Unit := do
  let handle ← IO.FS.Handle.mk logFile .write
  handle.putStrLn ("arguments: " ++ " ".intercalate args)

def start (args : List String) : IO UInt32 := do
  match Options.ofArgs? args with
  | none => write invalidArguments
  | some o =>
    if o.log then logArguments args
    if o.prompts then prompt (← IO.getStdin) .start
    else
      let contents ← match o.file? with
        | some file => readContents file
        | none => pure (.bytes ByteArray.empty)
      let host ← hostNow
      write (o.report (fun _ => host) ampleFuel (fun _ => contents) ByteArray.empty)

end Lox.Command

def main (args : List String) : IO UInt32 := Lox.Command.start args
