import Fixity.Decimal.Numeral
import Fixity.Decimal.Word
import Fixity.Text.Utf8

/-!
# Scalars of TOML

Numbers, dates and strings at the beginning of a text.  Each reader gives what it read and the text
after it, or nothing when the text begins with no well-formed scalar of that sort.
-/

namespace Fixity.Toml

/-- A value that holds no others.  Of floating-point numbers and of dates and times nothing is kept:
no configuration has a place for them. -/
inductive Scalar where
  | string (s : Bytes)
  | integer (n : Int64)
  | float
  | boolean (b : Bool)
  | moment
deriving DecidableEq, Repr

def isDigit (c : Char) : Bool := '0' ≤ c && c ≤ '9'

def isHexDigit (c : Char) : Bool := (Double.digitValue? 16 c).isSome

/-! ### Numbers -/

/-- Every underscore has a digit on both sides, and there is a digit at the end. -/
def underscoresFit (afterDigit : Bool) : List Char → Bool
  | [] => afterDigit
  | '_' :: cs => afterDigit && underscoresFit false cs
  | c :: cs => underscoresFit (isHexDigit c) cs

/-- The numeral begins with a zero that is not its only digit. -/
def hasLeadingZero : List Char → Bool
  | '0' :: c :: _ => !(c == 'b' || c == 'o' || c == 'x')
  | '-' :: '0' :: _ :: _ => true
  | '+' :: '0' :: _ :: _ => true
  | _ => false

def fit? (negative : Bool) (magnitude : Nat) : Option Scalar :=
  let n : Int := if negative then -magnitude else magnitude
  (word? n).map .integer

def integer? (cs : List Char) : Option Scalar :=
  if !underscoresFit false cs || hasLeadingZero cs then none
  else match cs.filter (· != '_') with
    | '0' :: 'x' :: ds => fit? false (Double.ofDigits 16 ds)
    | '0' :: 'o' :: ds => fit? false (Double.ofDigits 8 ds)
    | '0' :: 'b' :: ds => fit? false (Double.ofDigits 2 ds)
    | '-' :: ds => fit? true (Double.ofDigits 10 ds)
    | '+' :: ds => fit? false (Double.ofDigits 10 ds)
    | ds => fit? false (Double.ofDigits 10 ds)

/-- The stretches of a numeral between its point and exponent marks. -/
def numeralParts (cs : List Char) : List (List Char) :=
  (cs.splitBy fun a b => !(mark a || mark b)).filter fun part => !part.any mark
where
  mark (c : Char) : Bool := c == '.' || c == 'e' || c == 'E'

def pointsFit : List Char → Bool
  | [] => true
  | '.' :: d :: cs => isDigit d && pointsFit (d :: cs)
  | ['.'] => false
  | _ :: cs => pointsFit cs

def float? (cs : List Char) : Option Scalar :=
  let parts := numeralParts cs
  if !parts.all (underscoresFit false) || (parts.head?.map hasLeadingZero).getD false ||
    !pointsFit cs then none
  else
    let plain := (cs.filter (· != '_')).map fun c => UInt8.ofNat c.toNat
    (Double.read? plain).map fun _ => .float

/-- A number in decimal digits, with a sign already read into `sign`. -/
def decimal? (sign : List Char) (cs : List Char) : Option (Scalar × List Char) :=
  let digits := cs.takeWhile fun c => isDigit c || c == '_'
  let rest := cs.drop digits.length
  match rest with
  | c :: _ =>
    if c == '.' || c == 'e' || c == 'E' then
      let tail := rest.takeWhile fun c =>
        isDigit c || c == '_' || c == '.' || c == '-' || c == '+' || c == 'e' || c == 'E'
      (float? (sign ++ digits ++ tail)).map (·, rest.drop tail.length)
    else (integer? (sign ++ digits)).map (·, rest)
  | [] => (integer? (sign ++ digits)).map (·, rest)

/-- A number in digits of the given sort after `0x`, `0o` or `0b`. -/
def based? (mark : Char) (isMember : Char → Bool) (cs : List Char) : Option (Scalar × List Char) :=
  match cs with
  | c :: _ =>
    if isMember c then
      let digits := cs.takeWhile fun c => isMember c || c == '_'
      (integer? ('0' :: mark :: digits)).map (·, cs.drop digits.length)
    else none
  | [] => none

/-- A number after its sign: decimal, or infinity or no number. -/
def signed? (sign : Char) : List Char → Option (Scalar × List Char)
  | 'i' :: 'n' :: 'f' :: rest => some (.float, rest)
  | 'n' :: 'a' :: 'n' :: rest => some (.float, rest)
  | '0' :: 'b' :: _ => none
  | '0' :: 'o' :: _ => none
  | '0' :: 'x' :: _ => none
  | c :: cs => if isDigit c then decimal? [sign] (c :: cs) else none
  | [] => none

/-! ### Dates and times -/

/-- The number written by decimal digits and nothing else, exactly `width` of them. -/
def field? (width : Nat) (cs : List Char) : Option (Nat × List Char) :=
  let digits := cs.take width
  if digits.length = width ∧ digits.all isDigit then
    some (Double.ofDigits 10 digits, cs.drop width)
  else none

def expect? (c : Char) : List Char → Option (List Char)
  | d :: cs => if c = d then some cs else none
  | [] => none

def daysIn (year month : Nat) : Nat :=
  if month = 2 then
    if year % 4 = 0 ∧ (year % 100 ≠ 0 ∨ year % 400 = 0) then 29 else 28
  else if month = 4 ∨ month = 6 ∨ month = 9 ∨ month = 11 then 30
  else 31

def date? (cs : List Char) : Option (List Char) := do
  let (year, cs) ← field? 4 cs
  let (month, cs) ← field? 2 (← expect? '-' cs)
  let (day, cs) ← field? 2 (← expect? '-' cs)
  if 1 ≤ month ∧ month ≤ 12 ∧ 1 ≤ day ∧ day ≤ daysIn year month then some cs else none

/-- What follows a time of day with optional parts of a second. -/
def time? (cs : List Char) : Option (List Char) := do
  let (hour, cs) ← field? 2 cs
  let (minute, cs) ← field? 2 (← expect? ':' cs)
  let (second, cs) ← field? 2 (← expect? ':' cs)
  if 24 ≤ hour ∨ 60 ≤ minute ∨ 60 ≤ second then none
  else match cs with
    | '.' :: d :: rest => if isDigit d then some (rest.dropWhile isDigit) else some cs
    | _ => some cs

def isOffset : List Char → Bool
  | ['Z'] => true
  | c :: cs =>
    (c == '+' || c == '-') && match (do
        let (hours, cs) ← field? 2 cs
        let (minutes, cs) ← field? 2 (← expect? ':' cs)
        return decide (hours ≤ 24 ∧ minutes ≤ 60 ∧ cs = [])) with
      | some fits => fits
      | none => false
  | [] => false

def isMoment (cs : List Char) : Bool :=
  match date? cs with
  | some [] => true
  | some ('T' :: rest) =>
    match time? rest with
    | some [] => true
    | some offset => isOffset offset
    | none => false
  | some _ => false
  | none => time? cs == some []

/-- A date or time, of which digits were read before. -/
def moment? (digits cs : List Char) : Option (Scalar × List Char) :=
  let run := cs.takeWhile fun c => isDigit c || c == '-' || c == ':' || c == 'T' || c == 't' ||
    c == ' ' || c == '.' || c == 'Z' || c == 'z' || c == '+'
  let text := ((digits ++ run).reverse.dropWhile (· == ' ')).reverse
  let plain := text.map fun c => if c = ' ' then 'T' else c.toUpper
  if isMoment plain then some (.moment, cs.drop run.length) else none

def numberOrMoment? (cs : List Char) : Option (Scalar × List Char) :=
  match cs with
  | '0' :: 'b' :: rest => based? 'b' (fun c => c == '0' || c == '1') rest
  | '0' :: 'o' :: rest => based? 'o' (fun c => '0' ≤ c && c ≤ '7') rest
  | '0' :: 'x' :: rest => based? 'x' isHexDigit rest
  | _ =>
    let digits := cs.takeWhile isDigit
    match cs.drop digits.length with
    | c :: rest =>
      -- a date begins with at least two digits
      if (c == '-' || c == ':') && (2 ≤ digits.length || digits.head? != some '0') then
        moment? digits (c :: rest)
      else decimal? [] cs
    | [] => decimal? [] cs

/-! ### Strings -/

def escape? : List Char → Option (Char × List Char)
  | 'b' :: cs => some ('\x08', cs)
  | 't' :: cs => some ('\t', cs)
  | 'n' :: cs => some ('\n', cs)
  | 'f' :: cs => some ('\x0c', cs)
  | 'r' :: cs => some ('\r', cs)
  | '"' :: cs => some ('"', cs)
  | '\\' :: cs => some ('\\', cs)
  | 'u' :: cs => scalar? 4 cs
  | 'U' :: cs => scalar? 8 cs
  | _ => none
where
  scalar? (width : Nat) (cs : List Char) : Option (Char × List Char) :=
    let digits := cs.take width
    let n := Double.ofDigits 16 digits
    if digits.length = width ∧ digits.all isHexDigit ∧ n.isValidChar then
      some (Char.ofNat n, cs.drop width)
    else none

def isLineEnd (c : Char) : Bool := c == '\n' || c == '\r'

/-- The rest of a string on one line, after its opening quote. -/
def basic? (read : List Char) : Nat → List Char → Option (List Char × List Char)
  | 0, _ => none
  | bound + 1, cs =>
    match cs with
    | [] => none
    | '"' :: cs => some (read.reverse, cs)
    | '\\' :: cs =>
      match escape? cs with
      | some (c, cs) => basic? (c :: read) bound cs
      | none => none
    | c :: cs => if isLineEnd c then none else basic? (c :: read) bound cs

/-- The rest of a string without escapes on one line, after its opening quote. -/
def literal? (cs : List Char) : Option (List Char × List Char) :=
  let content := cs.takeWhile fun c => c != '\'' && !isLineEnd c
  match cs.drop content.length with
  | '\'' :: rest => some (content, rest)
  | _ => none

/-- A run of quotes inside a string of many lines: three of them end it, and up to two before those
belong to it. -/
def closing? (quote : Char) (cs : List Char) : Option (List Char × List Char) :=
  let run := cs.takeWhile (· == quote)
  if 6 ≤ run.length then none else some (run.drop 3, cs.drop run.length)

/-- The text after a backslash at the end of a line and the white space that follows; nothing when
the backslash does not end a line. -/
def afterLineEnd? (cs : List Char) : Option (List Char) :=
  let blank := cs.takeWhile fun c => c == ' ' || c == '\t' || isLineEnd c
  if blank.contains '\n' then some (cs.drop blank.length) else none

def basicLines? (read : List Char) : Nat → List Char → Option (List Char × List Char)
  | 0, _ => none
  | bound + 1, cs =>
    match cs with
    | [] => none
    | '"' :: '"' :: '"' :: _ =>
      (closing? '"' cs).map fun (quotes, cs) => (read.reverse ++ quotes, cs)
    | '\\' :: cs =>
      match afterLineEnd? cs with
      | some cs => basicLines? read bound cs
      | none =>
        match escape? cs with
        | some (c, cs) => basicLines? (c :: read) bound cs
        | none => none
    | c :: cs => basicLines? (c :: read) bound cs

def literalLines? (read : List Char) : List Char → Option (List Char × List Char)
  | '\'' :: '\'' :: '\'' :: cs =>
    (closing? '\'' ('\'' :: '\'' :: '\'' :: cs)).map fun (quotes, cs) =>
      (read.reverse ++ quotes, cs)
  | c :: cs => literalLines? (c :: read) cs
  | [] => none

/-- A line end right after the opening quotes does not belong to the string. -/
def dropLineEnd : List Char → List Char
  | '\r' :: '\n' :: cs => cs
  | '\n' :: cs => cs
  | cs => cs

def string? (cs : List Char) : Option (Scalar × List Char) :=
  let finish (r : List Char × List Char) : Scalar × List Char := (.string (Utf8.encode r.1), r.2)
  match cs with
  | '"' :: '"' :: '"' :: cs => (basicLines? [] (cs.length + 1) (dropLineEnd cs)).map finish
  | '"' :: cs => (basic? [] (cs.length + 1) cs).map finish
  | '\'' :: '\'' :: '\'' :: cs => (literalLines? [] (dropLineEnd cs)).map finish
  | '\'' :: cs => (literal? cs).map finish
  | _ => none

/-- A word for a truth value or a special number. -/
def word? (cs : List Char) : Option (Scalar × List Char) :=
  match cs with
  | 'i' :: 'n' :: 'f' :: cs => some (.float, cs)
  | 'n' :: 'a' :: 'n' :: cs => some (.float, cs)
  | 't' :: 'r' :: 'u' :: 'e' :: cs => some (.boolean true, cs)
  | 'f' :: 'a' :: 'l' :: 's' :: 'e' :: cs => some (.boolean false, cs)
  | _ => none

def scalar? (cs : List Char) : Option (Scalar × List Char) :=
  match cs with
  | [] => none
  | c :: rest =>
    if c == '"' || c == '\'' then string? cs
    else if isDigit c then numberOrMoment? cs
    else if c == '+' || c == '-' then signed? c rest
    else word? cs

end Fixity.Toml
