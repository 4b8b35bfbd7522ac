import Fixity.Command.Invocation
import Fixity.Config
import Fixity.Document
import Fixity.RoundTrip

/-!
# What comes of running the program

A run writes to standard output and to standard error, may write one file, and fails or does not.
It sees the files of one directory.
-/

namespace Fixity

/-- What is written to the two standard streams. -/
structure Output where
  stdout : Bytes
  stderr : Bytes
deriving DecidableEq, Repr

namespace Output

def none : Output := ⟨[], []⟩

def out (bs : Bytes) : Output := ⟨bs, []⟩

def err (bs : Bytes) : Output := ⟨[], bs⟩

def append (a b : Output) : Output := ⟨a.stdout ++ b.stdout, a.stderr ++ b.stderr⟩

instance : Append Output := ⟨append⟩

end Output

def messageLines (messages : List Bytes) : Bytes := messages.flatMap (· ++ [10])

/-! ### Failures -/

inductive Failure where
  | usage (error : UsageError)
  /-- The messages about the syntax have been written already. -/
  | badSyntax
  | noConfig (path : Bytes)
  | badConfig (path : Bytes) (error : ConfigReadError)
  | badTable (path : Bytes) (error : ConfigError)
  | noFile (path : Bytes)
  | badDocument (path : Bytes) (error : DocumentError)
  | noDocument (error : DocumentError)
  | noRoundTrip (error : RoundTripError)
  | lineTooLong
deriving DecidableEq

namespace Failure

def noSuchFile (path : Bytes) : Bytes := "open " ++ path ++ ": no such file or directory"

def message : Failure → Bytes
  | usage error => error.message
  | badSyntax => "syntax error"
  | noConfig path => "read config: " ++ noSuchFile path
  | badConfig path error => path ++ ": " ++ error.message
  | badTable path error => path ++ ": " ++ error.message
  | noFile path => noSuchFile path
  | badDocument path error => path ++ ": " ++ error.message
  | noDocument error => error.message
  | noRoundTrip error => error.message
  | lineTooLong => "bufio.Scanner: token too long"

/-- The exit status: 65 for faulty expressions, and 1 for everything else. -/
def status : Failure → Nat
  | badSyntax => 65
  | _ => 1

end Failure

/-! ### Files -/

/-- The folder in which a path ends; nothing when it has only a name. -/
def folder? (path : Bytes) : Option Bytes :=
  if path.contains 47 then some (path.reverse.dropWhile (· != 47)).tail.reverse else none

/-- The files of a directory by their names. -/
structure Directory where
  files : List (Bytes × Bytes)
  /-- Folders in which files can be written, too. -/
  folders : List Bytes
deriving DecidableEq, Repr

namespace Directory

def read? (d : Directory) (path : Bytes) : Option Bytes :=
  (d.files.find? (·.1 == path)).map (·.2)

def canWrite (d : Directory) (path : Bytes) : Bool := (folder? path).all d.folders.contains

def write (d : Directory) (path content : Bytes) : Directory :=
  { d with files := (path, content) :: d.files.filter (·.1 != path) }

theorem read?_write (d : Directory) (path content : Bytes) :
    (d.write path content).read? path = some content := by
  simp [write, read?]

theorem read?_write_of_ne (d : Directory) {path other : Bytes} (content : Bytes)
    (hne : other ≠ path) : (d.write path content).read? other = d.read? other := by
  have hhead : (path == other) = false := by simpa using fun h => hne h.symm
  have hfind : ∀ fs : List (Bytes × Bytes),
      (fs.filter (·.1 != path)).find? (·.1 == other) = fs.find? (·.1 == other) := by
    intro fs
    induction fs with
    | nil => rfl
    | cons f fs ih =>
      by_cases hp : f.1 = path
      · simp [hp, ih, hhead]
      · simp [hp, ih, List.find?_cons]
  simp [write, read?, hfind, hhead]

end Directory

structure Outcome where
  output : Output
  /-- The file that was written, with its content. -/
  written : Option (Bytes × Bytes)
  failure : Option Failure
deriving DecidableEq

namespace Outcome

def done (output : Output) : Outcome := ⟨output, none, none⟩

def failed (output : Output) (f : Failure) : Outcome := ⟨output, none, some f⟩

def status (o : Outcome) : Nat := (o.failure.map Failure.status).getD 0

def leave (o : Outcome) (d : Directory) : Directory :=
  match o.written with
  | some (path, content) => d.write path content
  | none => d

end Outcome

end Fixity
