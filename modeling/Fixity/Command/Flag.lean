import Fixity.Bytes

/-!
# Commands and their flags

The program formats expressions, shows their trees, writes trees to documents and reads them back.
Every command can be given another operator table and can be made to log what it does.
-/

namespace Fixity

/-- What the program can be told to do. -/
inductive Command where
  | format
  | tree
  | dump
  | load
deriving DecidableEq, Repr

inductive Flag where
  | config
  | verbose
  | check
  | zstd
  | output
  | verify
  | tree
  | help
deriving DecidableEq, Repr

namespace Command

def name : Command → Bytes
  | format => "fmt"
  | tree => "tree"
  | dump => "dump"
  | load => "load"

def all : List Command := [format, tree, dump, load]

def ofName? (word : Bytes) : Option Command := all.find? (·.name == word)

def flags : Option Command → List Flag
  | none => [.config, .verbose, .help]
  | some format => [.config, .verbose, .help, .check]
  | some tree => [.config, .verbose, .help]
  | some dump => [.config, .verbose, .help, .zstd, .output]
  | some load => [.config, .verbose, .help, .verify, .tree]

end Command

namespace Flag

def name : Flag → Bytes
  | config => "config"
  | verbose => "verbose"
  | check => "check"
  | zstd => "zstd"
  | output => "output"
  | verify => "verify"
  | tree => "tree"
  | help => "help"

/-- The letter of a flag: `v`, `o` or `h`. -/
def letter? : Flag → Option UInt8
  | verbose => some 118
  | output => some 111
  | help => some 104
  | _ => none

def isSwitch : Flag → Bool
  | config | output => false
  | _ => true

def shown (f : Flag) : Bytes :=
  match f.letter? with
  | some letter => "-" ++ [letter] ++ ", --" ++ f.name
  | none => "--" ++ f.name

/-- The position of a switch. -/
def truth? (value : Bytes) : Option Bool :=
  if ["1", "t", "T", "TRUE", "true", "True"].any (Bytes.of · == value) then some true
  else if ["0", "f", "F", "FALSE", "false", "False"].any (Bytes.of · == value) then some false
  else none

end Flag

/-- What the flags of a command line say. -/
structure Settings where
  /-- The file with the operator table; empty for the standard one. -/
  config : Bytes
  verbose : Bool
  check : Bool
  zstd : Bool
  /-- The file to write; empty for standard output. -/
  output : Bytes
  verify : Bool
  tree : Bool
  help : Bool
deriving DecidableEq, Repr

/-- Without any flags, only loaded trees are verified. -/
def Settings.initial : Settings := ⟨[], false, false, false, [], true, false, false⟩

end Fixity
