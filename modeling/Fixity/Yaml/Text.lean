import Fixity.Decimal.Numeral
import Fixity.Yaml.Cursor

/-!
# Scalars in a YAML text

The four ways to write a scalar that spans lines: plain, in quotes, and as a literal or folded
block.  Line breaks inside a flow scalar are folded: one break becomes a space, and of several the
first is dropped.

Readers that go on over many lines take a bound on how many steps they may make.  Every step reads
at least one character, so the length of the text is always enough.
-/

namespace Fixity.Yaml

/-! ### White space inside a scalar -/

/-- The white space between two words of a scalar. -/
structure Gap where
  /-- Spaces and tabs before the first line break. -/
  blanks : List Char
  breaks : List Char

def Gap.none : Gap := ⟨[], []⟩

def Gap.folded (g : Gap) : List Char :=
  match g.breaks with
  | [] => g.blanks
  | ['\n'] => [' ']
  | '\n' :: more => more
  | breaks => breaks

/-- Reads white space and line breaks.  In the indentation of a line, before column `indent`, there
may be no tab. -/
def gap? (indent : Nat) (g : Gap) : Nat → Cursor → Option (Gap × Cursor)
  | 0, c => some (g, c)
  | bound + 1, c =>
    match c.rest with
    | [] => some (g, c)
    | x :: _ =>
      if isBlank x then
        if g.breaks.isEmpty then gap? indent { g with blanks := g.blanks ++ [x] } bound (c.skip 1)
        else if x == '\t' && c.column < indent then Option.none
        else gap? indent g bound (c.skip 1)
      else if isBreak x then
        let (c, x) := c.skipBreak
        gap? indent { g with breaks := g.breaks ++ [x] } bound c
      else some (g, c)

/-! ### Plain scalars -/

/-- The number of characters up to the next white space or indicator that ends a plain scalar. -/
def plainLength (inFlow : Bool) : List Char → Nat
  | [] => 0
  | x :: cs =>
    if isBlank x || isBreak x then 0
    else if x == ':' && atGap cs then 0
    else if inFlow && (x == ',' || x == '?' || x == '[' || x == ']' || x == '\x7b' || x == '\x7d')
    then 0
    else plainLength inFlow cs + 1

/-- Reads a plain scalar from inside a block of which lines begin at column `indent`.  `g` is the
white space read after the text so far.  Also says whether a line break was read after the last
word. -/
def plain? (inFlow : Bool) (indent : Nat) (text : List Char) (g : Gap) :
    Nat → Cursor → Option (List Char × Bool × Cursor)
  | 0, _ => none
  | bound + 1, c =>
    if c.atBorder || c.rest.head? == some '#' then some (text, !g.breaks.isEmpty, c)
    else
      let n := plainLength inFlow c.rest
      if n = 0 then some (text, !g.breaks.isEmpty, c)
      else
        let text := text ++ g.folded ++ c.rest.take n
        let c := c.skip n
        if !(atBlank c.rest || atBreak c.rest) then some (text, false, c)
        else
          match gap? indent Gap.none (c.rest.length + 1) c with
          | none => none
          | some (g, c) =>
            if !inFlow && c.column < indent then some (text, !g.breaks.isEmpty, c)
            else plain? inFlow indent text g bound c

/-! ### Scalars in quotes -/

def escape? : List Char → Option (Char × Nat)
  | '0' :: _ => some ('\x00', 1)
  | 'a' :: _ => some ('\x07', 1)
  | 'b' :: _ => some ('\x08', 1)
  | 't' :: _ => some ('\t', 1)
  | '\t' :: _ => some ('\t', 1)
  | 'n' :: _ => some ('\n', 1)
  | 'v' :: _ => some ('\x0b', 1)
  | 'f' :: _ => some ('\x0c', 1)
  | 'r' :: _ => some ('\r', 1)
  | 'e' :: _ => some ('\x1b', 1)
  | ' ' :: _ => some (' ', 1)
  | '"' :: _ => some ('"', 1)
  | '\'' :: _ => some ('\'', 1)
  | '\\' :: _ => some ('\\', 1)
  | 'N' :: _ => some ('\u0085', 1)
  | '_' :: _ => some ('\u00a0', 1)
  | 'L' :: _ => some ('\u2028', 1)
  | 'P' :: _ => some ('\u2029', 1)
  | 'x' :: cs => code? 2 cs
  | 'u' :: cs => code? 4 cs
  | 'U' :: cs => code? 8 cs
  | _ => none
where
  code? (width : Nat) (cs : List Char) : Option (Char × Nat) :=
    let digits := cs.take width
    let n := Double.ofDigits 16 digits
    let hexadecimal := digits.all fun d => (Double.digitValue? 16 d).isSome
    if digits.length = width ∧ hexadecimal ∧ n.isValidChar then some (Char.ofNat n, width + 1)
    else none

/-- The words of a quoted scalar up to white space or the closing quote: the text, whether it ended
with an escaped line break, and what is left. -/
def quotedWord? (single : Bool) (text : List Char) :
    Nat → Cursor → Option (List Char × Bool × Cursor)
  | 0, _ => none
  | bound + 1, c =>
    if atGap c.rest then some (text, false, c)
    else
      match c.rest with
      | [] => some (text, false, c)
      | x :: cs =>
        if single then
          if x == '\'' then
            if cs.head? == some '\'' then quotedWord? single (text ++ ['\'']) bound (c.skip 2)
            else some (text, false, c)
          else quotedWord? single (text ++ [x]) bound (c.skip 1)
        else if x == '"' then some (text, false, c)
        else if x == '\\' then
          if atBreak cs then some (text, true, ((c.skip 1).skipBreak).1)
          else
            match escape? cs with
            | none => none
            | some (y, n) => quotedWord? single (text ++ [y]) bound (c.skip (n + 1))
        else quotedWord? single (text ++ [x]) bound (c.skip 1)

/-- The white space after an escaped line break: leading blanks are dropped, and further breaks
stay. -/
def afterEscapedBreak (breaks : List Char) : Nat → Cursor → List Char × Cursor
  | 0, c => (breaks, c)
  | bound + 1, c =>
    match c.rest with
    | [] => (breaks, c)
    | x :: _ =>
      if isBlank x then afterEscapedBreak breaks bound (c.skip 1)
      else if isBreak x then
        let (c, x) := c.skipBreak
        afterEscapedBreak (breaks ++ [x]) bound c
      else (breaks, c)

def quoted? (single : Bool) (text : List Char) : Nat → Cursor → Option (List Char × Cursor)
  | 0, _ => none
  | bound + 1, c =>
    if c.atBorder || c.rest.isEmpty then none
    else
      match quotedWord? single text (c.rest.length + 1) c with
      | none => none
      | some (text, escapedBreak, c) =>
        if escapedBreak then
          let (breaks, c) := afterEscapedBreak [] (c.rest.length + 1) c
          quoted? single (text ++ breaks) bound c
        else if c.rest.head? == some (if single then '\'' else '"') then some (text, c.skip 1)
        else
          match gap? 0 Gap.none (c.rest.length + 1) c with
          | none => none
          | some (g, c) => quoted? single (text ++ g.folded) bound c

/-! ### Block scalars -/

inductive Chomping where
  | strip
  | clip
  | keep
deriving DecidableEq

/-- Reads the indicators after `|` or `>`: chomping and indentation, in either order. -/
def blockHeader? (c : Cursor) : Option (Chomping × Nat × Cursor) :=
  let chomping? (c : Cursor) : Chomping × Cursor :=
    match c.rest with
    | '+' :: _ => (.keep, c.skip 1)
    | '-' :: _ => (.strip, c.skip 1)
    | _ => (.clip, c)
  let increment? (c : Cursor) : Option (Nat × Cursor) :=
    match c.rest with
    | d :: _ =>
      if '0' ≤ d && d ≤ '9' then
        if d == '0' then none else some (d.toNat - 48, c.skip 1)
      else some (0, c)
    | [] => some (0, c)
  match chomping? c with
  | (.clip, c) => (increment? c).map fun (n, c) =>
    let (chomping, c) := if n = 0 then (.clip, c) else chomping? c
    (chomping, n, c)
  | (chomping, c) => (increment? c).map fun (n, c) => (chomping, n, c)

/-- Reads indentation and empty lines.  The indentation `indent` is zero while it is not known;
`widest` is the widest seen.  Gives the breaks, the widest indentation and what is left. -/
def blockBreaks? (indent : Nat) (breaks : List Char) (widest : Nat) :
    Nat → Cursor → Option (List Char × Nat × Cursor)
  | 0, _ => none
  | bound + 1, c =>
    let spaces := (c.rest.takeWhile (· == ' ')).length
    let c := c.skip (if indent = 0 then spaces else min spaces (indent - c.column))
    let widest := max widest c.column
    if (indent = 0 || c.column < indent) && c.rest.head? == some '\t' then none
    else if atBreak c.rest then
      let (c, x) := c.skipBreak
      blockBreaks? indent (breaks ++ [x]) widest bound c
    else some (breaks, widest, c)

/-- Reads the lines of a block scalar at their indentation.  `lead` is the break after the line read
last, which began with a blank if `wasBlank`, and `breaks` are those of the empty lines after it. -/
def blockLines? (literal : Bool) (indent : Nat) (text lead breaks : List Char) (wasBlank : Bool) :
    Nat → Cursor → Option (List Char × List Char × List Char × Cursor)
  | 0, _ => none
  | bound + 1, c =>
    if c.column != indent || c.rest.isEmpty then some (text, lead, breaks, c)
    else
      let blank := atBlank c.rest
      let joint :=
        if !literal && !wasBlank && !blank && lead == ['\n'] then
          if breaks.isEmpty then [' '] else []
        else lead
      let line := c.rest.takeWhile fun x => !isBreak x
      let c := c.skip line.length
      let (c, lead) := if c.rest.isEmpty then (c, []) else
        let (c, x) := c.skipBreak
        (c, [x])
      match blockBreaks? indent [] 0 (c.rest.length + 1) c with
      | none => none
      | some (more, _, c) =>
        blockLines? literal indent (text ++ joint ++ breaks ++ line) lead more blank bound c

/-- Reads a block scalar after its `|` or `>`, inside a block at column `parent`, or at the top when
there is none. -/
def block? (literal : Bool) (parent : Option Nat) (c : Cursor) : Option (List Char × Cursor) := do
  let (chomping, increment, c) ← blockHeader? c
  let c := c.skipWhile isBlank
  let c := if c.rest.head? == some '#' then c.skipWhile fun x => !isBreak x else c
  if !atLineEnd c.rest then none
  let c := if c.rest.isEmpty then c else c.skipBreak.1
  let given := if increment = 0 then 0 else parent.getD 0 + increment
  let least := match parent with
    | some column => column + 1
    | none => 0
  let (breaks, widest, c) ← blockBreaks? given [] 0 (c.rest.length + 1) c
  let indent := if given = 0 then max (max widest least) 1 else given
  let (text, lead, breaks, c) ←
    blockLines? literal indent [] [] breaks false (c.rest.length + 1) c
  let tail := match chomping with
    | .strip => []
    | .clip => lead
    | .keep => lead ++ breaks
  return (text ++ tail, c)

end Fixity.Yaml
