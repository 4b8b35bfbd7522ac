import Fixity.Yaml.Token

/-!
# What YAML tokens say

A document is a tree of scalars, sequences and mappings.  Any node may be given a name by an anchor,
and an alias repeats the node of that name read last.  A tag says which type a scalar has; without
one the text of a plain scalar decides, and other scalars are strings.

Where a node is left out, as after `key:`, there stands an empty plain scalar.

Two limits of the usual decoder are left out: it refuses a document most of which comes from
aliases, and one whose nodes stand more than 10000 deep in each other.  Here any number of aliases
is read, and any depth.
-/

namespace Fixity.Yaml

/-- What is said about the type of a scalar. -/
inductive Tag where
  /-- Nothing is said. -/
  | unspecified
  | null
  | boolean
  | integer
  | float
  | string
  /-- A type that is none of the above. -/
  | other
deriving DecidableEq, Repr

inductive Node where
  | scalar (tag : Tag) (text : List Char)
  | sequence (items : List Node)
  | mapping (pairs : List (Node × Node))
  | alias (name : List Char) (target : Node)
  /-- An alias inside of the node that it names. -/
  | endless (name : List Char)

namespace Node

/-- What stands in the place of a node that was left out. -/
def empty : Node := .scalar .unspecified []

def target : Node → Node
  | .alias _ target => target
  | n => n

end Node

/-! ### Tags -/

namespace Tag

/-- The beginning of the names of the types that YAML itself has. -/
def common : List Char := "tag:yaml.org,2002:".toList

def ofName (name : List Char) : Tag :=
  if name = ['!'] then unspecified
  else if name = common ++ "null".toList then null
  else if name = common ++ "bool".toList then boolean
  else if name = common ++ "int".toList then integer
  else if name = common ++ "float".toList then float
  else if name = common ++ "str".toList then string
  else other

/-- The handles that need not be declared. -/
def handles : List (List Char × List Char) := [(['!'], ['!']), (['!', '!'], common)]

/-- The tag of a handle and what follows it; an error when the handle is not declared. -/
def ofHandle? (handles : List (List Char × List Char)) (handle suffix : List Char) : Option Tag :=
  if handle.isEmpty then some (ofName suffix)
  else (handles.find? (·.1 == handle)).map fun h => ofName (h.2 ++ suffix)

end Tag

/-! ### Reading a tree -/

/-- What is left of the tokens, and the nodes with an anchor. -/
structure Reading where
  rest : List Token
  /-- The anchors, the last one first, with nothing while their node is still being read. -/
  anchors : List (List Char × Option Node)
  handles : List (List Char × List Char)

abbrev Reader := StateT Reading Option

namespace Reader

def peek : Reader Token := fun s => some (s.rest.head?.getD .finish, s)

def skip : Reader Unit := modify fun s => { s with rest := s.rest.drop 1 }

def expect (t : Token) : Reader Unit := do
  if (← peek) = t then skip else failure

def resolve (name : List Char) : Reader Node := do
  match (← get).anchors.find? (·.1 == name) with
  | some (_, some n) => return .alias name n
  | some (_, none) => return .endless name
  | none => failure

def openAnchor (name : List Char) : Reader Unit :=
  modify fun s => { s with anchors := (name, none) :: s.anchors }

/-- Gives the anchor that was opened last its node. -/
def closeAnchor (name : List Char) (n : Node) : Reader Unit :=
  modify fun s => { s with anchors := close s.anchors }
where
  close : List (List Char × Option Node) → List (List Char × Option Node)
    | [] => []
    | (other, none) :: as =>
      if other = name then (name, some n) :: as else (other, none) :: close as
    | a :: as => a :: close as

def anchor? : Reader (Option (List Char)) := do
  match ← peek with
  | .anchor name => skip; return some name
  | _ => return none

def tag? : Reader (Option Tag) := do
  match ← peek with
  | .tag handle suffix =>
    skip
    let some tag := Tag.ofHandle? (← get).handles handle suffix | failure
    return some tag
  | _ => return none

/-- The anchor and the tag in front of a node, in either order. -/
def properties : Reader (Option (List Char) × Option Tag) := do
  match ← anchor? with
  | some name => return (some name, ← tag?)
  | none =>
    match ← tag? with
    | some tag => return (← anchor?, some tag)
    | none => return (none, none)

/-- The node is left out, which needs a property in its place. -/
def absent (named : Bool) (tag : Option Tag) : Reader Node :=
  if named || tag.isSome then return .scalar (tag.getD .unspecified) [] else failure

mutual

/-- Reads a node.  Collections in blocks are possible if `block`, and the items of a sequence may
begin without a token that opens it if `indentless`. -/
def node (block indentless : Bool) : Nat → Reader Node
  | 0 => failure
  | bound + 1 => do
    match ← peek with
    | .alias name =>
      skip
      resolve name
    | _ =>
      let (anchor, tag) ← properties
      anchor.forM openAnchor
      let n ← content block indentless anchor.isSome tag bound
      anchor.forM fun name => closeAnchor name n
      return n

def content (block indentless named : Bool) (tag : Option Tag) : Nat → Reader Node
  | 0 => failure
  | bound + 1 => do
    match ← peek with
    | .scalar text plain =>
      skip
      match tag with
      | none | some .unspecified => return .scalar (if plain then .unspecified else .string) text
      | some tag => return .scalar tag text
    | .flowSequence => skip; return .sequence (← flowItems true bound)
    | .flowMapping => skip; return .mapping (← flowPairs true bound)
    | .blockSequence =>
      if block then skip; return .sequence (← blockItems bound)
      else absent named tag
    | .blockMapping =>
      if block then skip; return .mapping (← blockPairs bound)
      else absent named tag
    | .entry =>
      if indentless then return .sequence (← plainItems bound)
      else absent named tag
    | _ => absent named tag

/-- Reads a node unless one of the tokens that end it follows. -/
def nodeBefore (block indentless : Bool) (ends : List Token) : Nat → Reader Node
  | 0 => failure
  | bound + 1 => do
    if ends.contains (← peek) then return .empty else node block indentless bound

def valueBefore (block indentless : Bool) (ends : List Token) : Nat → Reader Node
  | 0 => failure
  | bound + 1 => do
    if (← peek) = .value then
      skip
      nodeBefore block indentless ends bound
    else return .empty

def blockItems : Nat → Reader (List Node)
  | 0 => failure
  | bound + 1 => do
    match ← peek with
    | .entry =>
      skip
      let n ← nodeBefore true false [.entry, .blockEnd] bound
      return n :: (← blockItems bound)
    | .blockEnd => skip; return []
    | _ => failure

/-- Reads the items of a sequence that is as far to the left as the mapping around it. -/
def plainItems : Nat → Reader (List Node)
  | 0 => failure
  | bound + 1 => do
    match ← peek with
    | .entry =>
      skip
      let n ← nodeBefore true false [.entry, .key, .value, .blockEnd] bound
      return n :: (← plainItems bound)
    | _ => return []

def blockPairs : Nat → Reader (List (Node × Node))
  | 0 => failure
  | bound + 1 => do
    match ← peek with
    | .key =>
      skip
      let k ← nodeBefore true true [.key, .value, .blockEnd] bound
      let v ← valueBefore true true [.key, .value, .blockEnd] bound
      return (k, v) :: (← blockPairs bound)
    | .blockEnd => skip; return []
    | _ => failure

/-- Reads the items of a sequence in brackets.  A pair among them is a mapping of its own. -/
def flowItems (first : Bool) : Nat → Reader (List Node)
  | 0 => failure
  | bound + 1 => do
    if !first && (← peek) != .flowSequenceEnd then expect .comma
    match ← peek with
    | .flowSequenceEnd => skip; return []
    | .key =>
      skip
      let ends := [Token.comma, .flowSequenceEnd]
      -- a key that is left out takes the next token with it
      let missing := (.value :: ends).contains (← peek)
      if missing then skip
      let k ← if missing then pure .empty else node false false bound
      let v ← valueBefore false false ends bound
      return .mapping [(k, v)] :: (← flowItems false bound)
    | _ =>
      let n ← node false false bound
      return n :: (← flowItems false bound)

/-- Reads the pairs of a mapping in braces.  A key may stand alone. -/
def flowPairs (first : Bool) : Nat → Reader (List (Node × Node))
  | 0 => failure
  | bound + 1 => do
    if !first && (← peek) != .flowMappingEnd then expect .comma
    match ← peek with
    | .flowMappingEnd => skip; return []
    | .key =>
      skip
      let k ← nodeBefore false false [.value, .comma, .flowMappingEnd] bound
      let v ← valueBefore false false [.comma, .flowMappingEnd] bound
      return (k, v) :: (← flowPairs false bound)
    | _ =>
      let k ← node false false bound
      return (k, .empty) :: (← flowPairs false bound)

end

/-- Reads the directives before a document.  Only version 1.1 is known, and a handle is declared
once. -/
def directives (versioned : Bool) (declared : List (List Char × List Char)) : Nat → Reader Unit
  | 0 => failure
  | bound + 1 => do
    match ← peek with
    | .version major minor =>
      if versioned || major != 1 || minor != 1 then failure
      skip
      directives true declared bound
    | .tagHandle handle start =>
      if declared.any (·.1 == handle) then failure
      skip
      directives versioned ((handle, start) :: declared) bound
    | _ => modify fun s => { s with handles := declared ++ Tag.handles }

def document (bound : Nat) : Reader (Option Node) := do
  let n ← match ← peek with
    | .finish => return none
    | .version .. | .tagHandle .. | .documentStart =>
      directives false [] bound
      expect .documentStart
      match ← peek with
      | .version .. | .tagHandle .. | .documentStart | .documentEnd | .finish => pure .empty
      | _ => node true false bound
    | _ => node true false bound
  -- the end of a document is seen two tokens ahead
  if ((← get).rest.take 3).contains .failure then failure
  return some n

end Reader

def isReadable (c : Char) : Bool :=
  c == '\t' || c == '\n' || c == '\r' || (' ' ≤ c && c ≤ '~') || c == '\u0085' ||
    ('\u00A0' ≤ c && c != '\uFFFE' && c != '\uFFFF')

/-- Reads the first document of a text, after a byte order mark if there is one: nothing when the
text is faulty, and no node when there is no document. -/
def read? (cs : List Char) : Option (Option Node) :=
  let cs := if cs.head? = some '\uFEFF' then cs.tail else cs
  if cs.all isReadable then
    let ts := tokens cs
    ((Reader.document (4 * ts.length + 4)).run ⟨ts, [], Tag.handles⟩).map (·.1)
  else none

end Fixity.Yaml
