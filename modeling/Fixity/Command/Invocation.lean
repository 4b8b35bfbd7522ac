import Fixity.Command.Flag
import Fixity.Text.Distance
import Fixity.Text.Folded
import Fixity.Text.Quoted

/-!
# Command lines

The first argument that is neither a flag nor the value of one names the command.  Flags and other
arguments may be mixed, and everything after `--` is an argument.  A flag with a value is written

    --output FILE    --output=FILE    -o FILE    -oFILE    -o=FILE

and a switch `--check` or `--check=false`.  Switches with a letter can be written together, and the
last letter of such a group may be that of a flag with a value.  Below, the code of the hyphen is 45
and that of the equals sign 61.
-/

namespace Fixity

/-! ### Errors -/

/-- Why a command line cannot be understood. -/
inductive UsageError where
  | unknownCommand (word : Bytes)
  | unknownFlag (name : Bytes)
  /-- The letter and what was left of its argument from there on. -/
  | unknownLetter (letter : UInt8) (rest : Bytes)
  | badSyntax (argument : Bytes)
  | noValue (argument : Bytes)
  | noLetterValue (letter : UInt8) (rest : Bytes)
  | badValue (flag : Flag) (value : Bytes)
  | moreThanOne (count : Nat)
  | notOne (count : Nat)
  | noArguments
deriving DecidableEq, Repr

def suggestions (word : Bytes) : List Bytes :=
  let typed := Text.folded word
  (["completion", "dump", "fmt", "load", "tree"].map Bytes.of).filter fun name =>
    Text.distance typed name ≤ 2 || typed.isPrefixOf name

/-- What is added to the error about a misspelt word. -/
def hint (word : Bytes) : Bytes :=
  let line (name : Bytes) : Bytes := "\t" ++ name ++ "\n"
  match suggestions word with
  | [] => []
  | names => "\n\nDid you mean this?\n" ++ names.flatMap line

def UsageError.message : UsageError → Bytes
  | unknownCommand word =>
    "unknown command " ++ Text.quote word ++ " for \"dry\"" ++ hint word
  | unknownFlag name => "unknown flag: --" ++ name
  | unknownLetter letter rest =>
    "unknown shorthand flag: " ++ Text.quoteChar (Char.ofNat letter.toNat) ++ " in -" ++ rest
  | badSyntax argument => "bad flag syntax: " ++ argument
  | noValue argument => "flag needs an argument: " ++ argument
  | noLetterValue letter rest =>
    "flag needs an argument: " ++ Text.quoteChar (Char.ofNat letter.toNat) ++ " in -" ++ rest
  | badValue flag value =>
    "invalid argument " ++ Text.quote value ++ " for " ++ Text.quote flag.shown ++
      " flag: strconv.ParseBool: parsing " ++ Text.quote value ++ ": invalid syntax"
  | moreThanOne count => "accepts at most 1 arg(s), received " ++ Bytes.ofNat count
  | notOne count => "accepts 1 arg(s), received " ++ Bytes.ofNat count
  | noArguments => "requires at least 1 arg(s), only received 0"

/-! ### The command -/

namespace CommandLine

/-- The argument is a flag whose value is the next argument, as far as can be told before the
command is known. -/
def takesNext (arg : Bytes) : Bool :=
  let switch (p : Flag → Bool) := (Command.flags none).any fun f => f != .help && f.isSwitch && p f
  !arg.contains 61 && match arg with
    | 45 :: 45 :: name => !switch (·.name == name)
    | [45, letter] => !switch (·.letter? == some letter)
    | _ => false

/-- The word that names the command, and the arguments without it. -/
def command? : List Bytes → Option (Bytes × List Bytes)
  | [] => none
  | arg :: args =>
    if arg = [45, 45] then none
    else if takesNext arg then
      match args with
      | [] => none
      | value :: args => (command? args).map fun (word, rest) => (word, arg :: value :: rest)
    else if !arg.isEmpty && arg.head? != some 45 then some (arg, args)
    else (command? args).map fun (word, rest) => (word, arg :: rest)

/-! ### Flags -/

def set (s : Settings) (f : Flag) (value : Bytes) : Except UsageError Settings :=
  let switch (put : Bool → Settings) : Except UsageError Settings :=
    match Flag.truth? value with
    | some b => .ok (put b)
    | none => .error (.badValue f value)
  match f with
  | .config => .ok { s with config := value }
  | .output => .ok { s with output := value }
  | .verbose => switch fun verbose => { s with verbose }
  | .check => switch fun check => { s with check }
  | .zstd => switch fun zstd => { s with zstd }
  | .verify => switch fun verify => { s with verify }
  | .tree => switch fun tree => { s with tree }
  | .help => switch fun help => { s with help }

/-- A flag that waits for its value, with the error if there is none. -/
abbrev Waiting := Option (Flag × UsageError)

def readName (flags : List Flag) (s : Settings) (text : Bytes) :
    Except UsageError (Settings × Waiting) :=
  let name := text.takeWhile (· != 61)
  if name.isEmpty || text.head? == some 45 then .error (.badSyntax ([45, 45] ++ text))
  else match flags.find? (·.name == name) with
    | none => .error (.unknownFlag name)
    | some f =>
      match text.drop name.length with
      | _ :: value => (set s f value).map (·, none)
      | [] =>
        if f.isSwitch then (set s f "true").map (·, none)
        else .ok (s, some (f, .noValue ([45, 45] ++ text)))

def readLetters (flags : List Flag) (s : Settings) : Bytes → Except UsageError (Settings × Waiting)
  | [] => .ok (s, none)
  | letter :: text =>
    match flags.find? (·.letter? == some letter) with
    | none => .error (.unknownLetter letter (letter :: text))
    | some f =>
      match text with
      | 61 :: b :: value => (set s f (b :: value)).map (·, none)
      | _ =>
        if f.isSwitch then (set s f "true").bind fun s => readLetters flags s text
        else if text.isEmpty then .ok (s, some (f, .noLetterValue letter [letter]))
        else (set s f text).map (·, none)

/-- Reads all arguments: what the flags say, and what else there is. -/
def read (flags : List Flag) (s : Settings) (waiting : Waiting) :
    List Bytes → Except UsageError (Settings × List Bytes)
  | [] =>
    match waiting with
    | some (_, e) => .error e
    | none => .ok (s, [])
  | arg :: args =>
    match waiting, arg with
    | some (f, _), value => (set s f value).bind fun s => read flags s none args
    | none, [45, 45] => .ok (s, args)
    | none, 45 :: 45 :: text =>
      (readName flags s text).bind fun (s, waiting) => read flags s waiting args
    | none, 45 :: b :: text =>
      (readLetters flags s (b :: text)).bind fun (s, waiting) => read flags s waiting args
    | none, word => (read flags s none args).map fun (s, words) => (s, word :: words)

end CommandLine

/-! ### Invocations -/

inductive Invocation where
  | help
  | format (s : Settings) (file : Option Bytes)
  | tree (s : Settings) (words : List Bytes)
  | dump (s : Settings) (file : Bytes)
  | load (s : Settings) (file : Bytes)
deriving DecidableEq, Repr

namespace Invocation

/-- A command with its flags and arguments, of which there have to be the right number. -/
def ofCommand (c : Command) (s : Settings) (args : List Bytes) : Except UsageError Invocation :=
  match c, args with
  | .format, [] => .ok (format s none)
  | .format, [file] => .ok (format s (some file))
  | .format, args => .error (.moreThanOne args.length)
  | .tree, [] => .error .noArguments
  | .tree, words => .ok (tree s words)
  | .dump, [file] => .ok (dump s file)
  | .load, [file] => .ok (load s file)
  | _, args => .error (.notOne args.length)

def ofArgs (args : List Bytes) : Except UsageError Invocation := do
  match CommandLine.command? args with
  | none =>
    let _ ← CommandLine.read (Command.flags none) Settings.initial none args
    return help
  | some (word, rest) =>
    match Command.ofName? word with
    | some c =>
      let (s, words) ← CommandLine.read (Command.flags (some c)) Settings.initial none rest
      if s.help then return help else ofCommand c s words
    | none => if word = Bytes.of "help" then return help else .error (.unknownCommand word)

end Invocation

end Fixity
