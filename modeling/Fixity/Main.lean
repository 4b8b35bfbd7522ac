import Fixity.Command
import Fixity.Frame.Raw

/-!
# The program

Reads the files that a command line names, runs it, and writes what came of it.  Documents are
compressed into frames of raw blocks, and the times in the log are milliseconds of a clock that only
goes forward.
-/

namespace Fixity.Program

def readFile? (path : Bytes) : IO (Option Bytes) := do
  match Utf8.text? path with
  | none => return none
  | some name =>
    try
      return some (← IO.FS.readBinFile name).toList
    catch _ => return none

partial def readStream (stream : IO.FS.Stream) (read : ByteArray) : IO Bytes := do
  let more ← stream.read 65536
  if more.isEmpty then return read.toList else readStream stream (read ++ more)

def writeStream (stream : IO.FS.Stream) (bs : Bytes) : IO Unit := do
  stream.write ⟨bs.toArray⟩
  stream.flush

/-- The files of a run, in whatever folder they are. -/
def gather (i : Invocation) : IO Directory := do
  let mut files := []
  for path in i.reads do
    if let some content ← readFile? path then files := files ++ [(path, content)]
  return ⟨files, i.writes.filterMap folder?⟩

def finish (o : Outcome) : IO UInt32 := do
  writeStream (← IO.getStdout) o.output.stdout
  let stderr ← IO.getStderr
  writeStream stderr o.output.stderr
  if let some (path, content) := o.written then
    if let some name := Utf8.text? path then
      IO.FS.writeBinFile name ⟨content.toArray⟩
  match o.failure with
  | none | some .badSyntax => pure ()
  | some f => writeStream stderr ("Error: " ++ f.message ++ "\n")
  return o.status.toUInt32

def run (args : List String) : IO UInt32 := do
  match Invocation.ofArgs (args.map Bytes.of) with
  | .error e => finish (.failed .none (.usage e))
  | .ok i =>
    let stdin ← if i.isTyped then readStream (← IO.getStdin) ByteArray.empty else pure []
    let now := Bytes.ofNat (← IO.monoMsNow)
    finish (i.run Frame.raw (fun _ => now) (← gather i) stdin)

end Fixity.Program

def main (args : List String) : IO UInt32 := Fixity.Program.run args
