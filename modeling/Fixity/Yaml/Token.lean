import Fixity.Yaml.Text

/-!
# Tokens of a YAML text

A YAML text is read as a sequence of tokens in which the structure that indentation gives is
explicit: collections in blocks have a token where they start and one where they end.

A key of a mapping need not be marked.  Where one may begin, its place is remembered, and when a
colon is found on the same line, the token that marks the key is put in at that place.
-/

namespace Fixity.Yaml

inductive Token where
  | version (major minor : Nat)
  | tagHandle (handle start : List Char)
  | documentStart
  | documentEnd
  | blockSequence
  | blockMapping
  | blockEnd
  | flowSequence
  | flowSequenceEnd
  | flowMapping
  | flowMappingEnd
  | entry
  | comma
  | key
  | value
  | alias (name : List Char)
  | anchor (name : List Char)
  | tag (handle suffix : List Char)
  | scalar (text : List Char) (plain : Bool)
  | finish
  /-- What follows cannot be read. -/
  | failure
deriving DecidableEq

/-- A place where a key may have begun. -/
structure PossibleKey where
  /-- The number of tokens before it. -/
  place : Nat
  index : Nat
  line : Nat
  column : Nat
  /-- A colon must follow. -/
  required : Bool

structure Scanner where
  cursor : Cursor
  tokens : Array Token
  /-- The columns of the blocks around the cursor, the innermost first. -/
  blocks : List Nat
  /-- The possible keys of the flow collections around the cursor, the innermost first, and at the
  end the one outside of them. -/
  keys : List (Option PossibleKey)
  keyAllowed : Bool

namespace Scanner

def start (cs : List Char) : Scanner := ⟨Cursor.start cs, #[], [], [none], true⟩

def inFlow (s : Scanner) : Bool := 1 < s.keys.length

def emit (s : Scanner) (t : Token) : Scanner := { s with tokens := s.tokens.push t }

def skip (s : Scanner) (n : Nat) : Scanner := { s with cursor := s.cursor.skip n }

def allowKey (s : Scanner) (keyAllowed : Bool) : Scanner := { s with keyAllowed }

/-- The least column of lines that go on inside the innermost block. -/
def indent (s : Scanner) : Nat :=
  match s.blocks with
  | [] => 0
  | column :: _ => column + 1

/-! ### Blocks -/

/-- Ends the blocks that begin to the right of a column, or all of them. -/
def closeBlocks (s : Scanner) (column : Option Nat) : Scanner :=
  if s.inFlow then s
  else
    let inner := s.blocks.takeWhile fun b => column.all (· < b)
    { s with
      blocks := s.blocks.drop inner.length
      tokens := s.tokens ++ (inner.map fun _ => Token.blockEnd).toArray }

/-- Opens a block at a column unless the innermost one begins there or further right.  Its token
goes to the given place. -/
def openBlock (s : Scanner) (column place : Nat) (t : Token) : Scanner :=
  if s.inFlow || s.blocks.head?.any (column ≤ ·) then s
  else { s with blocks := column :: s.blocks, tokens := s.tokens.insertIdxIfInBounds place t }

/-! ### Possible keys -/

/-- Gives up the possible key; an error when there had to be one. -/
def dropKey? (s : Scanner) : Option Scanner :=
  match s.keys with
  | some k :: keys => if k.required then none else some { s with keys := none :: keys }
  | _ => some s

def saveKey? (s : Scanner) : Option Scanner :=
  if s.keyAllowed then
    let c := s.cursor
    let required := !s.inFlow && s.blocks.head? == some c.column
    s.dropKey?.map fun s =>
      { s with keys := some ⟨s.tokens.size, c.index, c.line, c.column, required⟩ :: s.keys.tail }
  else some s

/-- The possible key, if it is on this line and not too long ago; an error when there had to be
one. -/
def validKey? (s : Scanner) : Option (Option PossibleKey) :=
  match s.keys with
  | some k :: _ =>
    if k.line < s.cursor.line || k.index + 1024 < s.cursor.index then
      if k.required then none else some none
    else some (some k)
  | _ => some none

/-! ### Layout -/

/-- Passes over white space, comments and line breaks.  Where a key may begin outside of flow
collections, there may be no tab. -/
def skipLayout (s : Scanner) : Nat → Scanner
  | 0 => s
  | bound + 1 =>
    let c := s.cursor
    let c := if c.column = 0 ∧ c.rest.head? = some '\uFEFF' then c.skip 1 else c
    let c := c.skipWhile fun x => x == ' ' || ((s.inFlow || !s.keyAllowed) && x == '\t')
    let c := if c.rest.head? = some '#' then c.skipWhile fun x => !isBreak x else c
    if atBreak c.rest then
      skipLayout { s with cursor := c.skipBreak.1, keyAllowed := s.keyAllowed || !s.inFlow } bound
    else { s with cursor := c }

/-! ### Names and tags -/

def isNameChar (c : Char) : Bool :=
  ('0' ≤ c && c ≤ '9') || ('A' ≤ c && c ≤ 'Z') || ('a' ≤ c && c ≤ 'z') || c == '_' || c == '-'

def name? (c : Cursor) : Option (List Char × Cursor) :=
  let name := c.rest.takeWhile isNameChar
  let c := c.skip name.length
  let ended := atGap c.rest ||
    c.rest.head?.any fun x => "?:,]\x7d%@`".toList.contains x
  if name.isEmpty || !ended then none else some (name, c)

def isTagChar (c : Char) : Bool := isNameChar c || ";/?:@&=+$,.!~*'()[]".toList.contains c

/-- The characters of a tag, in which a byte may be written in hexadecimal after a percent sign. -/
def tagText? (text : List Char) : Nat → Cursor → Option (List Char × Cursor)
  | 0, c => some (text, c)
  | bound + 1, c =>
    match c.rest with
    | '%' :: a :: b :: _ =>
      if (Double.digitValue? 16 a).isSome && (Double.digitValue? 16 b).isSome then
        tagText? (text ++ [Char.ofNat (Double.ofDigits 16 [a, b])]) bound (c.skip 3)
      else none
    | '%' :: _ => none
    | x :: _ => if isTagChar x then tagText? (text ++ [x]) bound (c.skip 1) else some (text, c)
    | [] => some (text, c)

/-- A tag: `!<...>`, `!handle!suffix`, `!!suffix`, `!suffix` or `!`. -/
def tag? (c : Cursor) : Option (Token × Cursor) := do
  let bound := c.rest.length + 1
  let (t, c) ← match c.rest with
    | '!' :: '<' :: _ => do
      let (text, c) ← tagText? [] bound (c.skip 2)
      if text.isEmpty || c.rest.head? != some '>' then none
      some (Token.tag [] text, c.skip 1)
    | _ => do
      let word := (c.rest.drop 1).takeWhile isNameChar
      if (c.rest.drop (word.length + 1)).head? = some '!' then
        let (text, c) ← tagText? [] bound (c.skip (word.length + 2))
        if text.isEmpty then none
        some (Token.tag ('!' :: word ++ ['!']) text, c)
      else
        let (text, c) ← tagText? word bound (c.skip (word.length + 1))
        some (if text.isEmpty then Token.tag [] ['!'] else Token.tag ['!'] text, c)
  if atGap c.rest then some (t, c) else none

/-! ### Directives -/

def number? (c : Cursor) : Option (Nat × Cursor) :=
  let digits := c.rest.takeWhile fun x => '0' ≤ x && x ≤ '9'
  if digits.isEmpty || 9 < digits.length then none
  else some (Double.ofDigits 10 digits, c.skip digits.length)

def directive? (c : Cursor) : Option (Token × Cursor) := do
  let c := c.skip 1
  let word := c.rest.takeWhile isNameChar
  let c := c.skip word.length
  if !atGap c.rest then none
  let c := c.skipWhile isBlank
  let (t, c) ←
    if word = "YAML".toList then do
      let (major, c) ← number? c
      if c.rest.head? != some '.' then none
      let (minor, c) ← number? (c.skip 1)
      some (Token.version major minor, c)
    else if word = "TAG".toList then do
      if c.rest.head? != some '!' then none
      let inner := (c.rest.drop 1).takeWhile isNameChar
      let c := c.skip (inner.length + 1)
      let closed := c.rest.head? == some '!'
      if !closed && !inner.isEmpty then none
      let handle := '!' :: inner ++ (if closed then ['!'] else [])
      let c := if closed then c.skip 1 else c
      if !atBlank c.rest then none
      let c := c.skipWhile isBlank
      let (text, c) ← tagText? [] (c.rest.length + 1) c
      if text.isEmpty || !atGap c.rest then none
      some (Token.tagHandle handle text, c)
    else none
  let c := c.skipWhile isBlank
  let c := if c.rest.head? = some '#' then c.skipWhile fun x => !isBreak x else c
  if !atLineEnd c.rest then none
  some (t, if c.rest.isEmpty then c else c.skipBreak.1)

/-! ### One token after another -/

def openFlow? (s : Scanner) (t : Token) : Option Scanner :=
  s.saveKey?.map fun s => ({ s with keys := none :: s.keys, keyAllowed := true }.skip 1).emit t

def closeFlow? (s : Scanner) (t : Token) : Option Scanner :=
  s.dropKey?.map fun s =>
    let keys := if s.inFlow then s.keys.tail else s.keys
    ({ s with keys, keyAllowed := false }.skip 1).emit t

def entry? (s : Scanner) : Option Scanner :=
  if !s.inFlow && !s.keyAllowed then none
  else
    let s := s.openBlock s.cursor.column s.tokens.size .blockSequence
    s.dropKey?.map fun s => ((s.allowKey true).skip 1).emit .entry

def key? (s : Scanner) : Option Scanner :=
  if !s.inFlow && !s.keyAllowed then none
  else
    let s := s.openBlock s.cursor.column s.tokens.size .blockMapping
    s.dropKey?.map fun s => ((s.allowKey !s.inFlow).skip 1).emit .key

/-- Reads a colon.  What stood before it on the line is a key. -/
def value? (s : Scanner) : Option Scanner :=
  s.validKey?.bind fun
    | some k =>
      let s := { s with
        tokens := s.tokens.insertIdxIfInBounds k.place .key
        keys := none :: s.keys.tail
        keyAllowed := false }
      let s := s.openBlock k.column k.place .blockMapping
      some ((s.skip 1).emit .value)
    | none =>
      if !s.inFlow && !s.keyAllowed then none
      else
        let s := s.openBlock s.cursor.column s.tokens.size .blockMapping
        some (((s.allowKey !s.inFlow).skip 1).emit .value)

def keyed? (s : Scanner) (read : Cursor → Option (Token × Cursor)) : Option Scanner :=
  s.saveKey?.bind fun s =>
    (read s.cursor).map fun (t, cursor) => ({ s with cursor, keyAllowed := false }).emit t

def plainScalar? (s : Scanner) : Option Scanner :=
  s.saveKey?.bind fun s =>
    (plain? s.inFlow s.indent [] Gap.none (s.cursor.rest.length + 1) s.cursor).map
      fun (text, brokeLine, cursor) =>
        ({ s with cursor, keyAllowed := brokeLine }).emit (.scalar text true)

/-- Reads a border of a document or a directive, which end all blocks. -/
def border? (s : Scanner) (read : Cursor → Option (Token × Cursor)) : Option Scanner :=
  (s.closeBlocks none).dropKey?.bind fun s =>
    (read s.cursor).map fun (t, cursor) => ({ s with cursor, keyAllowed := false }).emit t

def beginsPlain (inFlow : Bool) (x : Char) (cs : List Char) : Bool :=
  !(isBlank x || isBreak x || "-?:,[]\x7b\x7d#&*!|>'\"%@`".toList.contains x) ||
    (x == '-' && !atBlank cs) ||
    (!inFlow && (x == '?' || x == ':') && !atGap cs)

/-- Reads one token, or several where blocks end. -/
def next? (s : Scanner) : Option Scanner :=
  let s := s.skipLayout (s.cursor.rest.length + 1)
  let s := s.closeBlocks (some s.cursor.column)
  let c := s.cursor
  match c.rest with
  | [] => (s.closeBlocks none).dropKey?.map fun s => s.emit .finish
  | x :: cs =>
    if c.column = 0 && x == '%' then s.border? directive?
    else if c.atBorder then
      s.border? fun c => some (if x == '-' then .documentStart else .documentEnd, c.skip 3)
    else if x == '[' then s.openFlow? .flowSequence
    else if x == '\x7b' then s.openFlow? .flowMapping
    else if x == ']' then s.closeFlow? .flowSequenceEnd
    else if x == '\x7d' then s.closeFlow? .flowMappingEnd
    else if x == ',' then s.dropKey?.map fun s => ((s.allowKey true).skip 1).emit .comma
    else if x == '-' && atGap cs then s.entry?
    else if x == '?' && (s.inFlow || atGap cs) then s.key?
    else if x == ':' && (s.inFlow || atGap cs) then s.value?
    else if x == '*' then
      s.keyed? fun c => (name? (c.skip 1)).map fun (name, c) => (.alias name, c)
    else if x == '&' then
      s.keyed? fun c => (name? (c.skip 1)).map fun (name, c) => (.anchor name, c)
    else if x == '!' then s.keyed? tag?
    else if (x == '|' || x == '>') && !s.inFlow then
      s.dropKey?.bind fun s =>
        (block? (x == '|') s.blocks.head? (c.skip 1)).map fun (text, cursor) =>
          ({ s with cursor, keyAllowed := true }).emit (.scalar text false)
    else if x == '\'' || x == '"' then
      s.keyed? fun c =>
        (quoted? (x == '\'') [] (c.rest.length + 1) (c.skip 1)).map fun (text, c) =>
          (.scalar text false, c)
    else if beginsPlain s.inFlow x cs then s.plainScalar?
    else none

/-- The tokens of a text, up to its end or to what cannot be read. -/
def all (s : Scanner) : Nat → Array Token
  | 0 => s.tokens
  | bound + 1 =>
    match s.next? with
    | none => s.tokens.push .failure
    | some s => if s.tokens.back? = some .finish then s.tokens else s.all bound

end Scanner

def tokens (cs : List Char) : List Token := ((Scanner.start cs).all (cs.length + 2)).toList

end Fixity.Yaml
