import Fixity.Toml.Read

/-!
# What TOML statements say

The statements of a text are carried out one after the other on a tree of tables.  A header opens a
table that the pairs after it belong to; the tables on the way to it, and those that a dotted key
goes through, are made when they are not there and are then *implied*.  A key is given a value once,
except that

* a table that is only implied may be opened by a header once, and
* an array takes the place of what the key held before, and gives way to anything after it.

Beside the tree the keys are kept in the order in which the text mentions them.
-/

namespace Fixity.Toml

inductive Item where
  | scalar (s : Scalar)
  | array (items : List Item)
  | table (entries : List (Bytes × Item))
  /-- Tables that were opened one after the other by headers of one name, the last one first. -/
  | tables (last : List (Bytes × Item)) (before : List (List (Bytes × Item)))

abbrev Entries := List (Bytes × Item)

namespace Entries

def get? (es : Entries) (k : Bytes) : Option Item :=
  (List.find? (fun e => e.1 == k) es).map (·.2)

/-- The entries with the key at its old place, or at the end when it is new. -/
def put (es : Entries) (k : Bytes) (v : Item) : Entries :=
  if es.any (·.1 == k) then es.map fun e => if e.1 == k then (k, v) else e else es ++ [(k, v)]

end Entries

/-- The tree so far, with what is known of its keys. -/
structure Tree where
  root : Entries
  /-- Tables that no header has opened. -/
  implied : List Key
  /-- Keys whose last value was an array. -/
  arrays : List Key
  /-- All keys in the order of the text, the last one first. -/
  mentioned : List Key

namespace Tree

def empty : Tree := ⟨[], [], [], []⟩

def imply (t : Tree) (k : Key) : Tree := { t with implied := k :: t.implied }

def unimply (t : Tree) (k : Key) : Tree := { t with implied := t.implied.filter (· != k) }

def mention (t : Tree) (k : Key) : Tree := { t with mentioned := k :: t.mentioned }

/-- Notes whether the last value of a key was an array. -/
def noteArray (t : Tree) (k : Key) (isArray : Bool) : Tree :=
  let others := t.arrays.filter (· != k)
  { t with arrays := if isArray then k :: others else others }

/-- Changes the table that a path leads to.  Of tables opened one after the other the last
counts. -/
def modifyAt? (f : Entries → Option Entries) : Key → Entries → Option Entries
  | [], es => f es
  | k :: path, es =>
    match es.get? k with
    | some (.table inner) => (modifyAt? f path inner).map fun inner => es.put k (.table inner)
    | some (.tables last before) =>
      (modifyAt? f path last).map fun last => es.put k (.tables last before)
    | _ => none

def tableAt? : Key → Entries → Option Entries
  | [], es => some es
  | k :: path, es =>
    match es.get? k with
    | some (.table inner) => tableAt? path inner
    | some (.tables last _) => tableAt? path last
    | _ => none

def putAt? (t : Tree) (path : Key) (k : Bytes) (v : Item) : Option Tree :=
  (modifyAt? (fun es => some (es.put k v)) path t.root).map fun root => { t with root }

/-- Gives a key an item, where it may have been implied or hold an array. -/
def assign? (t : Tree) (path : Key) (k : Bytes) (v : Item) : Option Tree := do
  let es ← tableAt? path t.root
  let key := path ++ [k]
  match es.get? k with
  | none => t.putAt? path k v
  | some _ =>
    if t.arrays.contains key then (t.unimply key).putAt? path k v
    else if t.implied.contains key then some (t.unimply key)
    else none

/-- Makes the tables on a path that are not there; they are implied. -/
def makePath? (t : Tree) (made : Key) : Key → Option Tree
  | [] => some t
  | k :: path => do
    let es ← tableAt? made t.root
    let key := made ++ [k]
    match es.get? k with
    | none =>
      let t ← (t.imply key).putAt? made k (.table [])
      t.makePath? key path
    | some (.table _) | some (.tables ..) => t.makePath? key path
    | some _ => none

def openTable? (t : Tree) (key : Key) : Option Tree := do
  let t ← t.makePath? [] key.dropLast
  t.assign? key.dropLast (key.getLast?.getD []) (.table [])

/-- Opens one more table of an array of tables. -/
def openNext? (t : Tree) (key : Key) : Option Tree := do
  let path := key.dropLast
  let k := key.getLast?.getD []
  let t ← t.makePath? [] path
  let es ← tableAt? path t.root
  match es.get? k with
  | none => t.putAt? path k (.tables [] [])
  | some (.tables last before) => t.putAt? path k (.tables [] (last :: before))
  | some _ => none

/-- Goes through the tables of a dotted key, and gives the path to the last one. -/
def descend? (t : Tree) (context : Key) : Key → Option (Tree × Key)
  | [] => some (t, context)
  | k :: parts => do
    let key := context ++ [k]
    let t ← (t.imply key).openTable? key
    t.descend? key parts

mutual

def pair? (t : Tree) (context key : Key) (v : Value) : Option Tree := do
  let (t, path) ← t.descend? context key.dropLast
  let name := key.getLast?.getD []
  let full := path ++ [name]
  match v with
  | .scalar s =>
    let t ← (t.mention full).assign? path name (.scalar s)
    return t.noteArray full false
  | .array vs =>
    let (t, items) ← ((t.mention full).noteArray full true).items? full vs
    t.assign? path name (.array items)
  | .inlineTable ps =>
    -- the table is implied until all of it has been read
    let t ← ((t.mention full).imply full).openTable? full
    let t ← t.pairs? full ps
    let t ← t.assign? path name (.table ((tableAt? full t.root).getD []))
    return t.noteArray full false

def items? (t : Tree) (key : Key) : List Value → Option (Tree × List Item)
  | [] => some (t, [])
  | v :: vs => do
    let (t, i) ← t.item? key v
    let (t, is) ← t.items? key vs
    return (t, i :: is)

/-- An item of an array at the given key.  A table is built in its place in the tree. -/
def item? (t : Tree) (key : Key) : Value → Option (Tree × Item)
  | .scalar s => some (t, .scalar s)
  | .array vs => do
    let (t, items) ← t.items? key vs
    return (t, .array items)
  | .inlineTable ps => do
    let t ← (t.imply key).openNext? key
    let t ← t.pairs? key ps
    return (t, .table ((tableAt? key t.root).getD []))

def pairs? (t : Tree) (context : Key) : List (Key × Value) → Option Tree
  | [] => some t
  | (key, v) :: ps => do
    let t ← t.pair? context key v
    t.pairs? context ps

end

/-- Carries out a statement in the table that the last header opened. -/
def run? (t : Tree) (context : Key) : Statement → Option (Tree × Key)
  | .table key => do
    let t ← t.openTable? key
    return ((t.noteArray key false).mention key, key)
  | .arrayTable key => do
    let t ← t.openNext? key
    return ((t.noteArray key false).mention key, key)
  | .pair key v => do
    let t ← t.pair? context key v
    return (t, context)

def ofStatements? (ss : List Statement) : Option Tree :=
  let all := ss.foldlM (fun (s : Tree × Key) statement => s.1.run? s.2 statement) (empty, [])
  all.map (·.1)

def read? (bs : Bytes) : Option Tree := (Toml.read? bs).bind ofStatements?

def keys (t : Tree) : List Key := t.mentioned.reverse

end Tree

/-! ### Keys as they are shown -/

def keyChar (b : UInt8) : Bytes :=
  match b with
  | 34 => "\\\""
  | 92 => "\\\\"
  | 8 => "\\b"
  | 9 => "\\t"
  | 10 => "\\n"
  | 12 => "\\f"
  | 13 => "\\r"
  | b => if b < 0x20 || b == 0x7F then "\\u" ++ Bytes.ofHex 4 b.toNat else [b]

/-- A part of a key, in quotes unless it could stand bare. -/
def keyPart (part : Bytes) : Bytes :=
  if !part.isEmpty && part.all (fun b => isBareKeyChar (Char.ofNat b.toNat)) then part
  else "\"" ++ part.flatMap keyChar ++ "\""

def showKey (key : Key) : Bytes := Bytes.join "." (key.map keyPart)

end Fixity.Toml
