import Fixity.Command.Format
import Fixity.Command.Log
import Fixity.Command.Store
import Fixity.Config.Read

/-!
# Running the program

    fmt [file]          prints expressions in canonical form, one on each line
    tree <expression>   prints the tree of an expression
    dump <file>         writes the tree of an expression as a document
    load <file>         reads a document and prints the expression it holds

Whatever the command, the operator table is set up first.  A run does not know how documents are
compressed, nor what time it is: both are given (`Invocation.run`).
-/

namespace Fixity

namespace Settings

/-- Log lines, if the user asked for them. -/
def log (s : Settings) (time : Bytes) (lines : List Log.Line) : Output :=
  if s.verbose then .err (lines.flatMap (Log.Line.toBytes time)) else .none

/-- Sets up the operator table, and tells what is logged about it. -/
def table (s : Settings) (d : Directory) : List Log.Line × Except Failure Table :=
  if s.config.isEmpty then ([⟨"using default operator table", []⟩], .ok Table.standard)
  else
    let path := s.config
    match d.read? path with
    | none => ([], .error (.noConfig path))
    | some content =>
      let format := Format.ofPath path
      match Config.read (some format) content with
      | .error e => ([], .error (.badConfig path e))
      | .ok c =>
        ([⟨"loaded grammar config",
          [("path", path), ("format", format.name), ("grammar", c.grammar),
           ("overrides", Bytes.ofNat c.operators.length)]⟩],
         c.table.mapError (.badTable path))

end Settings

namespace Outcome

def after (o : Outcome) (before : Output) : Outcome := { o with output := before ++ o.output }

def faulty (error : SourceError) : Outcome :=
  failed (.err (messageLines error.messages)) .badSyntax

end Outcome

namespace Invocation

/-- What is printed for a command line without a command. -/
def usage : Bytes :=
  "Usage: dry [--config FILE] [-v] COMMAND\n\n" ++
  "  fmt [--check] [FILE]                 print expressions in canonical form\n" ++
  "  tree EXPRESSION                      print the syntax tree of an expression\n" ++
  "  dump [--zstd] [-o FILE] FILE         write the syntax tree of an expression\n" ++
  "  load [--verify=false] [--tree] FILE  read a tree and print its source\n"

def runFile (time : Bytes) (s : Settings) (T : Table) (d : Directory) (path : Bytes) : Outcome :=
  match d.read? path with
  | none => .failed .none (.noFile path)
  | some content =>
    let (output, faulty) := Format.file T s.check path content
    let count := (Format.lines content).length
    Outcome.after ⟨output, none, if faulty then some .badSyntax else none⟩
      (s.log time [⟨"formatting file", [("path", path), ("lines", Bytes.ofNat count)]⟩])

def runTyped (T : Table) (stdin : Bytes) : Outcome :=
  let (output, tooLong) := Format.typed T stdin
  ⟨output, none, if tooLong then some .lineTooLong else none⟩

def runTree (T : Table) (words : List Bytes) : Outcome :=
  match Expr.parse T (Bytes.join " " words) with
  | .error e => .faulty e
  | .ok e => .done (.out (Store.listing e))

def runDump (Z : Compression) (time : Bytes) (s : Settings) (T : Table) (d : Directory)
    (path : Bytes) : Outcome :=
  match d.read? path with
  | none => .failed .none (.noFile path)
  | some content =>
    match Expr.parse T content with
    | .error e => .faulty e
    | .ok e =>
      match Store.encode Z s.zstd e with
      | .error e => .failed .none (.noDocument e)
      | .ok doc =>
        let outcome : Outcome :=
          if s.output.isEmpty then .done (.out doc)
          else if d.canWrite s.output then ⟨.none, some (s.output, doc), none⟩
          else .failed .none (.noFile s.output)
        outcome.after (s.log time [⟨"encoded tree",
          [("nodes", Bytes.ofNat (Expr.count (some e))), ("bytes", Bytes.ofNat doc.length),
           ("zstd", Log.truth s.zstd)]⟩])

def runLoad (Z : Compression) (time : Bytes) (s : Settings) (T : Table) (d : Directory)
    (path : Bytes) : Outcome :=
  match d.read? path with
  | none => .failed .none (.noFile path)
  | some doc =>
    match Store.decode Z doc with
    | .error e => .failed .none (.badDocument path e)
    | .ok e =>
      let outcome : Outcome := match Store.print T s.verify e with
        | .error e => .failed .none (.noRoundTrip e)
        | .ok src => .done (.out (if s.tree then Store.listing e else src ++ [10]))
      outcome.after (s.log time [⟨"decoded tree",
        [("path", path), ("compressed", Log.truth (Frame.isFrame doc)),
         ("nodes", Bytes.ofNat (Expr.count (some e))), ("depth", Bytes.ofNat e.depth)]⟩])

/-- Runs a command with the table that its settings name. -/
def withTable (time : Bytes) (s : Settings) (d : Directory) (run : Table → Outcome) : Outcome :=
  match s.table d with
  | (lines, .error f) => .failed (s.log time lines) f
  | (lines, .ok T) => (run T).after (s.log time lines)

/-- Does what a command line asks for.  The clock gives the times of the two steps, setting up the
table and running the command. -/
def run (Z : Compression) (clock : Nat → Bytes) (d : Directory) (stdin : Bytes) :
    Invocation → Outcome
  | help => .done (.out usage)
  | format s none => withTable (clock 0) s d fun T => runTyped T stdin
  | format s (some path) => withTable (clock 0) s d fun T => runFile (clock 1) s T d path
  | tree s words => withTable (clock 0) s d fun T => runTree T words
  | dump s path => withTable (clock 0) s d fun T => runDump Z (clock 1) s T d path
  | load s path => withTable (clock 0) s d fun T => runLoad Z (clock 1) s T d path

def reads : Invocation → List Bytes
  | help => []
  | format s none => [s.config]
  | format s (some path) => [s.config, path]
  | tree s _ => [s.config]
  | dump s path => [s.config, path]
  | load s path => [s.config, path]

def writes : Invocation → List Bytes
  | dump s _ => if s.output.isEmpty then [] else [s.output]
  | _ => []

def isTyped : Invocation → Bool
  | format _ none => true
  | _ => false

end Invocation

def runArgs (Z : Compression) (clock : Nat → Bytes) (d : Directory) (args : List Bytes)
    (stdin : Bytes) : Outcome :=
  match Invocation.ofArgs args with
  | .error e => .failed .none (.usage e)
  | .ok i => i.run Z clock d stdin

end Fixity
