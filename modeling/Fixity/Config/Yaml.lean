import Fixity.Config
import Fixity.Yaml.Scalar

/-!
# Configurations in YAML

    grammar: strict
    operators:
      - symbol: "**"
        assoc: left

A field whose value is null keeps what it had, and an item of `operators` that is null is not there.
A key that has no place in a configuration is refused, and so is one that is given twice.  A mapping
may take fields from others under the key `<<`; its own fields count, and of the others the first.
-/

namespace Fixity.Config.Yaml

open Fixity.Yaml

abbrev bytes (text : List Char) : Bytes := Utf8.encode text

/-! ### Fields -/

/-- The text of a scalar, which any scalar has that is not null.  The inner result says whether it
is null. -/
def text? (n : Node) : Option (Option Bytes) :=
  match n.target with
  | .scalar tag text => (Scalar.ofTagged? tag text).map fun
    | .null => none
    | _ => some (bytes text)
  | _ => none

/-- What a scalar that is not null means.  The inner result says whether it is null. -/
def scalar? {α : Type} (meaning : Scalar → Option α) (n : Node) : Option (Option α) :=
  match n.target with
  | .scalar tag text => (Scalar.ofTagged? tag text).bind fun
    | .null => some none
    | s => (meaning s).map some
  | _ => none

/-- An override with one of its fields set; an error when there is no such field. -/
def setField? (o : Override) (key : Bytes) (v : Node) : Option Override :=
  if key = Bytes.of "symbol" then
    (text? v).map fun s => { o with symbol := s.getD o.symbol }
  else if key = Bytes.of "unary" then
    (scalar? Scalar.toBool? v).map fun b => { o with unary := b.getD o.unary }
  else if key = Bytes.of "precedence" then
    (scalar? Scalar.toInt64? v).map fun n => { o with precedence := n.getD o.precedence }
  else if key = Bytes.of "assoc" then
    (text? v).map fun s => { o with assoc := s.getD o.assoc }
  else none

/-! ### Mappings -/

def alike : Node → Node → Bool
  | .scalar _ a, .scalar _ b => a == b
  | .sequence _, .sequence _ => true
  | .mapping _, .mapping _ => true
  | .alias a _, .alias b _ | .alias a _, .endless b => a == b
  | .endless a, .alias b _ | .endless a, .endless b => a == b
  | _, _ => false

def unique : List (Node × Node) → Bool
  | [] => true
  | (k, _) :: pairs => !pairs.any (fun p => alike k p.1) && unique pairs

/-- The key takes fields from other mappings. -/
def isMerge : Node → Bool
  | .scalar .unspecified text => text == ['<', '<']
  | _ => false

/-- The fields of a mapping itself: their names and values, without those of which the name is
null. -/
def fields? (pairs : List (Node × Node)) : Option (List (Bytes × Node)) :=
  if unique pairs then do
    let named ← (pairs.filter fun p => !isMerge p.1).mapM fun (k, v) => do
      let name ← text? k
      return name.map (·, v)
    let fields := named.filterMap id
    if (fields.map (·.1)).Nodup then some fields else none
  else none

mutual

/-- The fields of a mapping, first its own and then those that it takes from others.  Names in
`taken` have been given before. -/
def allFields? (taken : List Bytes) (own : List (Bytes × Node)) :
    List (Node × Node) → Option (List (Bytes × Node))
  | [] => some own
  | (k, source) :: pairs =>
    if isMerge k then (merged? (taken ++ own.map (·.1)) source).map (own ++ ·)
    else allFields? taken own pairs

/-- The fields of what stands under the key `<<`: a mapping or a sequence of mappings. -/
def merged? (taken : List Bytes) : Node → Option (List (Bytes × Node))
  | .mapping pairs | .alias _ (.mapping pairs) =>
    (fields? pairs).bind fun own => allFields? taken (own.filter fun f => !taken.contains f.1) pairs
  | .sequence items => mergedAll? taken items
  | _ => none

def mergedAll? (taken : List Bytes) : List Node → Option (List (Bytes × Node))
  | [] => some []
  | .mapping pairs :: items | .alias _ (.mapping pairs) :: items => do
    let own ← fields? pairs
    let first ← allFields? taken (own.filter fun f => !taken.contains f.1) pairs
    let rest ← mergedAll? (taken ++ first.map (·.1)) items
    return first ++ rest
  | _ => none

end

def ofMapping? (pairs : List (Node × Node)) : Option (List (Bytes × Node)) :=
  (fields? pairs).bind fun own => allFields? [] own pairs

/-- The override of an item; the inner result says whether the item is null. -/
def override? (n : Node) : Option (Option Override) :=
  match n.target with
  | .mapping pairs => do
    let fields ← ofMapping? pairs
    let o ← fields.foldlM (fun o (key, v) => setField? o key v) ⟨[], false, 0, []⟩
    return some o
  | n => scalar? (fun _ => none) n

def overrides? (n : Node) : Option (Option (List Override)) :=
  match n.target with
  | .sequence items => (items.mapM override?).map fun os => some (os.filterMap id)
  | n => scalar? (fun _ => none) n

def setPart? (c : Config) (key : Bytes) (v : Node) : Option Config :=
  if key = Bytes.of "grammar" then (text? v).map fun s => { c with grammar := s.getD c.grammar }
  else if key = Bytes.of "operators" then
    (overrides? v).map fun os => { c with operators := os.getD [] }
  else none

def ofNode? (n : Node) : Option Config :=
  match n with
  | .mapping pairs => do
    let fields ← ofMapping? pairs
    fields.foldlM (fun c (key, v) => setPart? c key v) ⟨[], []⟩
  | n => (scalar? (fun _ => none) n).map fun (_ : Option Config) => ⟨[], []⟩

def read (bs : Bytes) : Except ConfigReadError Config :=
  if Utf8.isValid bs then
    match Fixity.Yaml.read? (Utf8.decode bs) with
    | none => .error .yaml
    | some none => .ok ⟨[], []⟩
    | some (some n) =>
      match ofNode? n with
      | none => .error .yaml
      | some c => .ok c
  else .error .yaml

end Fixity.Config.Yaml
