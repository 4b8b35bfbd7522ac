import Fixity.Proofs.Config
import Fixity.Proofs.Table.Listing
import Mathlib.Data.List.Induction
import Mathlib.Data.List.Permutation

/-!
# The last override wins, field by field

An override is about one operator (`Override.subject`) and gives it a precedence, an associativity, both
or nothing.  The table of a configuration (`Table.overridden`) has the standard operators, each with the
last precedence and the last associativity that some override gives it.  There is such a table exactly
when every override fits an operator (`Override.Fits`) and the outcome keeps the rules of tables
(`Config.last_override_wins`); what the tables in between look like does not matter.

One override changes the entry it is about and no other (`Override.apply_eq_ok`), so the overrides
applied in order leave what the last ones say (`Override.foldlM_apply_eq_ok`).
-/

namespace Fixity

open Fixity.Expr (bind_eq_ok map_eq_ok mapError_eq_ok)

namespace Override

/-! ### What an override says -/

def arity (o : Override) : Arity := if o.unary then .unary else .binary

/-- The operator that an override is about: its arity and its symbol. -/
def subject (o : Override) : Arity × Bytes := (o.arity, o.symbol)

def level? (o : Override) : Option Int :=
  if o.precedence = 0 then none else some o.precedence.toInt

def assoc? (o : Override) : Option Assoc :=
  if o.assoc = [] then none else Assoc.ofWord? o.assoc

def symbols : Arity → List Bytes
  | .binary => ["or", "and", "|", "^", "&", "==", "!=", "<", "<=", ">", ">=", "<<", ">>", "+", "-",
      "*", "/", "%", "**"]
  | .unary => ["-", "!", "~"]

/-- The override names an operator of its arity, and its associativity is empty or, for a binary
operator, a word for one. -/
structure Fits (o : Override) : Prop where
  known : (Operator.ofSymbol? o.symbol).isSome
  symbol : o.symbol ∈ symbols o.arity
  unary : o.arity = .unary → o.assoc = []
  binary : o.arity = .binary → o.assoc = [] ∨ (Assoc.ofWord? o.assoc).isSome

/-- What overrides give an operator in one field, from the first to the last. -/
def given {α : Type} (field? : Override → Option α) (os : List Override)
    (subject : Arity × Bytes) : List α :=
  (os.filter (·.subject = subject)).filterMap field?

/-- The overrides of each operator are the same, in the same order. -/
def SameForEach (os os' : List Override) : Prop :=
  ∀ subject, os.filter (·.subject = subject) = os'.filter (·.subject = subject)

def levelPart (o : Override) : Override := { o with assoc := [] }

def assocPart (o : Override) : Override := { o with precedence := 0 }

end Override

/-- The standard table with the last precedence and the last associativity that overrides give each
operator. -/
def Table.overridden (os : List Override) : Table where
  binary := Table.standardBinary.map fun op =>
    { op with
      precedence := (Override.given Override.level? os (.binary, op.type.name)).getLastD op.precedence
      assoc := (Override.given Override.assoc? os (.binary, op.type.name)).getLastD op.assoc }
  unary := Table.standardUnary.map fun u =>
    { u with
      precedence := (Override.given Override.level? os (.unary, u.type.name)).getLastD u.precedence }

/-! ### One override -/

namespace Override

variable {o : Override}

theorem name_eq_symbol_iff {type : TokenType} {operator : Operator} :
    type.name = operator.symbol ↔ type = .op operator := by
  constructor
  · intro h
    rw [← TokenType.ofName_name type, h]
    exact TokenType.ofName_name (.op operator)
  · rintro rfl
    rfl

theorem symbol_eq_of_ofSymbol? {s : Bytes} {operator : Operator}
    (h : Operator.ofSymbol? s = some operator) : operator.symbol = s := by
  simpa using List.find?_some h

theorem precedenceOr_eq (was : Int) : o.precedenceOr was = o.level?.getD was := by
  unfold precedenceOr level?
  split <;> rfl

theorem assocOr_eq_ok {was assoc : Assoc} : o.assocOr was = .ok assoc ↔
    (o.assoc = [] ∨ (Assoc.ofWord? o.assoc).isSome) ∧ assoc = o.assoc?.getD was := by
  unfold assocOr assoc?
  by_cases hempty : o.assoc = []
  · simp [hempty, eq_comm (a := was)]
  · cases hword : Assoc.ofWord? o.assoc with
    | none => simp [hempty]
    | some given => simp [hempty, eq_comm (a := given)]

/-- A change to the entries of one type leaves lists without such entries as they are. -/
theorem map_eq_self {α : Type} {type : α → TokenType} {change : α → α} {t : TokenType}
    (hchange : ∀ a, type a ≠ t → change a = a) {as : List α} (h : t ∉ as.map type) :
    as.map change = as := by
  have hself : ∀ a ∈ as, change a = id a :=
    fun a ha => hchange a fun htype => h (htype ▸ List.mem_map_of_mem ha)
  rw [List.map_congr_left hself, List.map_id]

def changed (o : Override) (op : BinaryOp) : BinaryOp :=
  if o.subject = (.binary, op.type.name) then
    { op with precedence := o.level?.getD op.precedence, assoc := o.assoc?.getD op.assoc }
  else op

def changedUnary (o : Override) (u : UnaryOp) : UnaryOp :=
  if o.subject = (.unary, u.type.name) then { u with precedence := o.level?.getD u.precedence }
  else u

section entry

variable {operator : Operator} (hsymbol : operator.symbol = o.symbol)

include hsymbol

theorem subject_eq_iff {arity : Arity} {type : TokenType} :
    o.subject = (arity, type.name) ↔ o.arity = arity ∧ type = .op operator := by
  rw [subject, Prod.mk.injEq, ← hsymbol, eq_comm (b := type.name), name_eq_symbol_iff]

/-- **The entry that a binary override is about changes**, and there has to be one. -/
theorem applyBinary_eq_ok (harity : o.arity = .binary) {ops ops' : List BinaryOp}
    (hnodup : (ops.map (·.type)).Nodup) : o.applyBinary (.op operator) ops = .ok ops' ↔
      .op operator ∈ ops.map (·.type) ∧ (o.assoc = [] ∨ (Assoc.ofWord? o.assoc).isSome) ∧
        ops' = ops.map o.changed := by
  have hsubject : ∀ op : BinaryOp, o.subject = (.binary, op.type.name) ↔ op.type = .op operator :=
    fun op => (subject_eq_iff hsymbol).trans (and_iff_right harity)
  have hother : ∀ op : BinaryOp, op.type ≠ .op operator → o.changed op = op :=
    fun op htype => if_neg (mt (hsubject op).mp htype)
  induction ops generalizing ops' with
  | nil => simp [applyBinary]
  | cons op ops ih =>
    obtain ⟨hnew, hnodup⟩ := List.nodup_cons.mp hnodup
    rw [applyBinary]
    by_cases htype : op.type = .op operator
    · -- the entry is found, and none of those behind it has its type
      have hrest : ops.map o.changed = ops := map_eq_self hother (htype ▸ hnew)
      rw [if_pos htype, bind_eq_ok, List.map_cons, List.map_cons, hrest, changed,
        if_pos ((hsubject op).mpr htype)]
      simp only [assocOr_eq_ok, precedenceOr_eq, htype, List.mem_cons_self, true_and]
      constructor
      · rintro ⟨assoc, ⟨hword, rfl⟩, h⟩
        exact ⟨hword, (Except.ok.inj h).symm⟩
      · rintro ⟨hword, rfl⟩
        exact ⟨_, ⟨hword, rfl⟩, rfl⟩
    · rw [if_neg htype, map_eq_ok, List.map_cons, List.map_cons, List.mem_cons,
        or_iff_right (Ne.symm htype), hother op htype]
      constructor
      · rintro ⟨rest, hrest, rfl⟩
        obtain ⟨hmem, hword, rfl⟩ := (ih hnodup).mp hrest
        exact ⟨hmem, hword, rfl⟩
      · rintro ⟨hmem, hword, rfl⟩
        exact ⟨_, (ih hnodup).mpr ⟨hmem, hword, rfl⟩, rfl⟩

theorem applyUnary_eq_ok (harity : o.arity = .unary) {ops ops' : List UnaryOp}
    (hnodup : (ops.map (·.type)).Nodup) : o.applyUnary (.op operator) ops = .ok ops' ↔
      .op operator ∈ ops.map (·.type) ∧ ops' = ops.map o.changedUnary := by
  have hsubject : ∀ u : UnaryOp, o.subject = (.unary, u.type.name) ↔ u.type = .op operator :=
    fun u => (subject_eq_iff hsymbol).trans (and_iff_right harity)
  have hother : ∀ u : UnaryOp, u.type ≠ .op operator → o.changedUnary u = u :=
    fun u htype => if_neg (mt (hsubject u).mp htype)
  induction ops generalizing ops' with
  | nil => simp [applyUnary]
  | cons u ops ih =>
    obtain ⟨hnew, hnodup⟩ := List.nodup_cons.mp hnodup
    rw [applyUnary]
    by_cases htype : u.type = .op operator
    · have hrest : ops.map o.changedUnary = ops := map_eq_self hother (htype ▸ hnew)
      rw [if_pos htype, List.map_cons, List.map_cons, hrest, changedUnary,
        if_pos ((hsubject u).mpr htype)]
      simp only [precedenceOr_eq, htype, List.mem_cons_self, true_and, Except.ok.injEq,
        eq_comm (b := ops')]
    · rw [if_neg htype, map_eq_ok, List.map_cons, List.map_cons, List.mem_cons,
        or_iff_right (Ne.symm htype), hother u htype]
      constructor
      · rintro ⟨rest, hrest, rfl⟩
        obtain ⟨hmem, rfl⟩ := (ih hnodup).mp hrest
        exact ⟨hmem, rfl⟩
      · rintro ⟨hmem, rfl⟩
        exact ⟨_, (ih hnodup).mpr ⟨hmem, rfl⟩, rfl⟩

end entry

/-! ### The table after an override -/

def after (o : Override) (t : Table) : Table :=
  ⟨t.binary.map o.changed, t.unary.map o.changedUnary⟩

theorem changed_of_unary (harity : o.arity = .unary) (op : BinaryOp) : o.changed op = op := by
  refine if_neg fun h => ?_
  rw [(Prod.mk.inj h).1] at harity
  cases harity

theorem changedUnary_of_binary (harity : o.arity = .binary) (u : UnaryOp) :
    o.changedUnary u = u := by
  refine if_neg fun h => ?_
  rw [(Prod.mk.inj h).1] at harity
  cases harity

/-- The operators of each arity are those of the standard grammar, in the same order. -/
structure StandardTypes (t : Table) : Prop where
  binary : t.binary.map (·.type) = Table.standardBinary.map (·.type)
  unary : t.unary.map (·.type) = Table.standardUnary.map (·.type)

theorem mem_standardBinary_iff {operator : Operator} :
    .op operator ∈ Table.standardBinary.map (·.type) ↔ operator.symbol ∈ symbols .binary := by
  cases operator <;> decide

theorem mem_standardUnary_iff {operator : Operator} :
    .op operator ∈ Table.standardUnary.map (·.type) ↔ operator.symbol ∈ symbols .unary := by
  cases operator <;> decide

theorem fits_iff_of_unary (harity : o.arity = .unary) : o.Fits ↔
    (Operator.ofSymbol? o.symbol).isSome ∧ o.symbol ∈ symbols .unary ∧ o.assoc = [] := by
  constructor
  · rintro ⟨hknown, hsymbol, hunary, -⟩
    exact ⟨hknown, harity ▸ hsymbol, hunary harity⟩
  · rintro ⟨hknown, hsymbol, hempty⟩
    exact ⟨hknown, harity.symm ▸ hsymbol, fun _ => hempty, fun _ => Or.inl hempty⟩

theorem fits_iff_of_binary (harity : o.arity = .binary) : o.Fits ↔
    (Operator.ofSymbol? o.symbol).isSome ∧ o.symbol ∈ symbols .binary ∧
      (o.assoc = [] ∨ (Assoc.ofWord? o.assoc).isSome) := by
  constructor
  · rintro ⟨hknown, hsymbol, -, hbinary⟩
    exact ⟨hknown, harity ▸ hsymbol, hbinary harity⟩
  · rintro ⟨hknown, hsymbol, hword⟩
    refine ⟨hknown, harity.symm ▸ hsymbol, fun hunary => ?_, fun _ => hword⟩
    rw [harity] at hunary
    cases hunary

/-- **One override** is applied when it fits, and changes the entry that it is about. -/
theorem apply_eq_ok {t t' : Table} (ht : StandardTypes t) :
    apply t o = .ok t' ↔ o.Fits ∧ t' = o.after t := by
  cases hknown : Operator.ofSymbol? o.symbol with
  | none =>
    have hnot : ¬ o.Fits := fun h => by simpa [hknown] using h.known
    simp [apply, hknown, hnot]
  | some operator =>
    have hsymbol := symbol_eq_of_ofSymbol? hknown
    cases hunary : o.unary with
    | true =>
      have harity : o.arity = .unary := if_pos hunary
      have hnodup : (t.unary.map (·.type)).Nodup := ht.unary ▸ by decide
      have hbinary : t.binary.map o.changed = t.binary :=
        (List.map_congr_left fun op _ => changed_of_unary harity op).trans (List.map_id _)
      rw [fits_iff_of_unary harity, hknown, ← hsymbol, ← mem_standardUnary_iff, ← ht.unary, after,
        hbinary]
      simp only [apply, hknown, hunary, if_true, Option.isSome_some, true_and]
      by_cases hempty : o.assoc = []
      · rw [if_pos (by simpa using hempty), map_eq_ok]
        simp only [applyUnary_eq_ok hsymbol harity hnodup, hempty, and_true]
        constructor
        · rintro ⟨_, ⟨hmem, rfl⟩, rfl⟩
          exact ⟨hmem, rfl⟩
        · rintro ⟨hmem, rfl⟩
          exact ⟨_, ⟨hmem, rfl⟩, rfl⟩
      · rw [if_neg (by simpa using hempty)]
        simp [hempty]
    | false =>
      have harity : o.arity = .binary := if_neg (by simp [hunary])
      have hnodup : (t.binary.map (·.type)).Nodup := ht.binary ▸ by decide
      have hprefix : t.unary.map o.changedUnary = t.unary :=
        (List.map_congr_left fun u _ => changedUnary_of_binary harity u).trans (List.map_id _)
      rw [fits_iff_of_binary harity, hknown, ← hsymbol, ← mem_standardBinary_iff, ← ht.binary, after,
        hprefix]
      simp only [apply, hknown, hunary, Bool.false_eq_true, if_false, Option.isSome_some, true_and]
      rw [map_eq_ok]
      simp only [applyBinary_eq_ok hsymbol harity hnodup]
      constructor
      · rintro ⟨_, ⟨hmem, hword, rfl⟩, rfl⟩
        exact ⟨⟨hmem, hword⟩, rfl⟩
      · rintro ⟨⟨hmem, hword⟩, rfl⟩
        exact ⟨_, ⟨hmem, hword, rfl⟩, rfl⟩

/-! ### All overrides -/

theorem standardTypes_overridden (os : List Override) : StandardTypes (Table.overridden os) :=
  ⟨List.map_map .., List.map_map ..⟩

theorem getLastD_given_concat {α : Type} (field? : Override → Option α) (os : List Override)
    (o : Override) (subject : Arity × Bytes) (was : α) :
    (given field? (os ++ [o]) subject).getLastD was =
      if o.subject = subject then (field? o).getD ((given field? os subject).getLastD was)
      else (given field? os subject).getLastD was := by
  rw [given, List.filter_append, List.filterMap_append]
  split
  · rename_i hsubject
    cases hfield : field? o <;> simp [given, hsubject, hfield]
  · rename_i hsubject
    simp [given, hsubject]

/-- One more override is the last one for the operator that it is about. -/
theorem overridden_concat (os : List Override) (o : Override) :
    Table.overridden (os ++ [o]) = o.after (Table.overridden os) := by
  rw [after, Table.overridden, Table.overridden, List.map_map, List.map_map, Table.mk.injEq]
  refine ⟨List.map_congr_left fun op _ => ?_, List.map_congr_left fun u _ => ?_⟩
  · rw [getLastD_given_concat, getLastD_given_concat, Function.comp_apply, changed]
    split <;> rfl
  · rw [getLastD_given_concat, Function.comp_apply, changedUnary]
    split <;> rfl

/-- **Overrides applied in order** have to fit, and leave what the last ones say. -/
theorem foldlM_apply_eq_ok (os : List Override) {t : Table} :
    os.foldlM apply Table.standard = .ok t ↔ (∀ o ∈ os, o.Fits) ∧ t = Table.overridden os := by
  induction os using List.reverseRecOn generalizing t with
  | nil =>
    have hnone : Table.overridden [] = Table.standard := rfl
    rw [List.foldlM_nil, hnone]
    simp [pure, Except.pure, eq_comm]
  | append_singleton os o ih =>
    rw [List.foldlM_append, bind_eq_ok, overridden_concat, List.forall_mem_append]
    simp only [ih, List.foldlM_cons, List.foldlM_nil, bind_pure]
    constructor
    · rintro ⟨_, ⟨hos, rfl⟩, h⟩
      obtain ⟨ho, rfl⟩ := (apply_eq_ok (standardTypes_overridden os)).mp h
      exact ⟨⟨hos, by simpa using ho⟩, rfl⟩
    · rintro ⟨⟨hos, ho⟩, rfl⟩
      exact ⟨_, ⟨hos, rfl⟩,
        (apply_eq_ok (standardTypes_overridden os)).mpr ⟨by simpa using ho, rfl⟩⟩

end Override

/-! ### The table of a configuration -/

namespace Config

open Override

/-- The table of the overrides keeps the rules of tables. -/
def Consistent (os : List Override) : Prop :=
  Table.Rules ((Table.overridden os).binary.map BinaryOp.draft)
    ((Table.overridden os).unary.map UnaryOp.draft)

/-- **What table a configuration makes**: the one that its last overrides say, if all of them fit and
the outcome keeps the rules. -/
theorem table_eq_ok {c : Config} {T : Table} :
    c.table = .ok T ↔ (∀ o ∈ c.operators, o.Fits) ∧ Consistent c.operators ∧
      T = Table.overridden c.operators := by
  unfold table
  rw [bind_eq_ok]
  simp only [foldlM_apply_eq_ok, mapError_eq_ok]
  constructor
  · rintro ⟨_, ⟨hfits, rfl⟩, h⟩
    exact ⟨hfits, Table.exists_ofDrafts_iff.mp ⟨T, h⟩, Table.eq_of_ofDrafts h⟩
  · rintro ⟨hfits, hrules, rfl⟩
    obtain ⟨T, hT⟩ := Table.exists_ofDrafts_iff.mpr hrules
    obtain rfl := Table.eq_of_ofDrafts hT
    exact ⟨_, ⟨hfits, rfl⟩, hT⟩

theorem overridden_congr {os os' : List Override}
    (hlevel : ∀ subject, given level? os subject = given level? os' subject)
    (hassoc : ∀ subject, given assoc? os subject = given assoc? os' subject) :
    Table.overridden os = Table.overridden os' := by
  simp only [Table.overridden, hlevel, hassoc]

theorem overridden_of_sameForEach {os os' : List Override} (h : SameForEach os os') :
    Table.overridden os = Table.overridden os' :=
  overridden_congr (fun subject => by rw [given, h, given]) fun subject => by rw [given, h, given]

theorem mem_iff_of_sameForEach {os os' : List Override} (h : SameForEach os os') (o : Override) :
    o ∈ os ↔ o ∈ os' := by
  have hmem : ∀ os : List Override, o ∈ os ↔ o ∈ os.filter (·.subject = o.subject) := by simp
  rw [hmem os, h, ← hmem os']

end Config

namespace Override

/-! ### Parts of an override -/

theorem fits_iff_parts {o : Override} : o.Fits ↔ o.levelPart.Fits ∧ o.assocPart.Fits := by
  constructor
  · rintro ⟨hknown, hsymbol, hunary, hbinary⟩
    exact ⟨⟨hknown, hsymbol, fun _ => rfl, fun _ => Or.inl rfl⟩, hknown, hsymbol, hunary, hbinary⟩
  · rintro ⟨-, hknown, hsymbol, hunary, hbinary⟩
    exact ⟨hknown, hsymbol, hunary, hbinary⟩

/-- The parts of an override give what the override gives, whichever comes first. -/
theorem given_parts {α : Type} {field? : Override → Option α} {o : Override}
    (hfield : field? o.levelPart = field? o ∧ field? o.assocPart = none ∨
      field? o.levelPart = none ∧ field? o.assocPart = field? o)
    {parts : List Override} (hparts : parts.Perm [o.levelPart, o.assocPart])
    (before later : List Override) (subject : Arity × Bytes) :
    given field? (before ++ parts ++ later) subject =
      given field? (before ++ o :: later) subject := by
  have hsubject : o.levelPart.subject = o.subject ∧ o.assocPart.subject = o.subject := ⟨rfl, rfl⟩
  have hone : given field? parts subject = given field? [o] subject := by
    by_cases h : o.subject = subject
    · rcases List.perm_pair.mp hparts with rfl | rfl <;>
        rcases hfield with ⟨hl, ha⟩ | ⟨hl, ha⟩ <;>
        cases hgiven : field? o <;> simp [given, hsubject, h, hl, ha, hgiven]
    · rcases List.perm_pair.mp hparts with rfl | rfl <;> simp [given, hsubject, h]
  rw [given] at hone
  rw [List.append_cons before o]
  simp only [given, List.filter_append, List.filterMap_append, hone]

end Override

namespace Config

open Override

theorem overridden_parts {o : Override} {parts : List Override}
    (hparts : parts.Perm [o.levelPart, o.assocPart]) (before later : List Override) :
    Table.overridden (before ++ parts ++ later) = Table.overridden (before ++ o :: later) :=
  overridden_congr
    (given_parts (Or.inl ⟨rfl, rfl⟩) hparts before later)
    (given_parts (Or.inr ⟨rfl, rfl⟩) hparts before later)

theorem table_eq_ok_congr {grammar : Bytes} {os os' : List Override}
    (hfits : (∀ o ∈ os, o.Fits) ↔ ∀ o ∈ os', o.Fits)
    (htable : Table.overridden os = Table.overridden os') (T : Table) :
    (⟨grammar, os⟩ : Config).table = .ok T ↔ (⟨grammar, os'⟩ : Config).table = .ok T := by
  rw [table_eq_ok, table_eq_ok, hfits, Consistent, Consistent, htable]

/-- **The last override wins, field by field.**  A configuration makes a table exactly when all its
overrides fit and the outcome keeps the rules of tables.  The table has the standard operators, each
with the last precedence and the last associativity that it is given, or its own.  So overrides of
different operators may change places, and an override may be given in two parts. -/
theorem last_override_wins (grammar : Bytes) (os : List Override) :
    ((∃ T, (⟨grammar, os⟩ : Config).table = .ok T) ↔ (∀ o ∈ os, o.Fits) ∧ Consistent os) ∧
    (∀ T, (⟨grammar, os⟩ : Config).table = .ok T → T = Table.overridden os) ∧
    (∀ os', SameForEach os' os → ∀ T,
      (⟨grammar, os'⟩ : Config).table = .ok T ↔ (⟨grammar, os⟩ : Config).table = .ok T) ∧
    ∀ before o later parts, os = before ++ o :: later →
      parts.Perm [o.levelPart, o.assocPart] → ∀ T,
        (⟨grammar, before ++ parts ++ later⟩ : Config).table = .ok T ↔
          (⟨grammar, os⟩ : Config).table = .ok T := by
  refine ⟨?_, fun T hT => (table_eq_ok.mp hT).2.2, fun os' h => ?_, ?_⟩
  · constructor
    · rintro ⟨T, hT⟩
      obtain ⟨hfits, hrules, -⟩ := table_eq_ok.mp hT
      exact ⟨hfits, hrules⟩
    · rintro ⟨hfits, hrules⟩
      exact ⟨_, table_eq_ok.mpr ⟨hfits, hrules, rfl⟩⟩
  · refine table_eq_ok_congr ?_ (overridden_of_sameForEach h)
    simp only [mem_iff_of_sameForEach h]
  · rintro before o later parts rfl hparts
    refine table_eq_ok_congr ?_ (overridden_parts hparts before later)
    simp only [List.forall_mem_append, List.forall_mem_cons, hparts.mem_iff, List.not_mem_nil,
      false_imp_iff, implies_true, and_true, fits_iff_parts (o := o), and_assoc]

theorem sameForEach_swap {a b : Override} (h : a.subject ≠ b.subject)
    (before later : List Override) :
    SameForEach (before ++ a :: b :: later) (before ++ b :: a :: later) := by
  intro subject
  rw [List.filter_append, List.filter_append]
  by_cases ha : a.subject = subject
  · have hb : b.subject ≠ subject := fun hb => h (ha.trans hb.symm)
    simp [ha, hb]
  · simp [ha, List.filter_cons]

/-- Sums group to the right, `-` binds tighter as a prefix, and `**` is given twice. -/
def rightSums : List Override :=
  [⟨"+", false, 0, "right"⟩, ⟨"-", true, 20, []⟩, ⟨"-", false, 0, " Right "⟩,
    ⟨"**", false, 30, "left"⟩, ⟨"**", false, 25, []⟩]

/-- The first override alone would leave `+` and `-` on one level with different associativities.
All together make a table, also with the first two in the other order, and with the first `**` in
two parts. -/
theorem table_rightSums : ¬ Consistent (rightSums.take 1) ∧ (∀ o ∈ rightSums, o.Fits) ∧
    ∃ T, (⟨[], rightSums⟩ : Config).table = .ok T ∧ T.binding (.op .starStar) = ⟨25, .left⟩ ∧
      (⟨[], [⟨"-", true, 20, []⟩, ⟨"+", false, 0, "right"⟩, ⟨"-", false, 0, " Right "⟩,
        ⟨"**", false, 30, "left"⟩, ⟨"**", false, 25, []⟩]⟩ : Config).table = .ok T ∧
      (⟨[], [⟨"+", false, 0, "right"⟩, ⟨"-", true, 20, []⟩, ⟨"-", false, 0, " Right "⟩,
        ⟨"**", false, 0, "left"⟩, ⟨"**", false, 30, []⟩, ⟨"**", false, 25, []⟩]⟩ :
          Config).table = .ok T := by
  obtain ⟨hmakes, hmade, hreordered, hparted⟩ := last_override_wins [] rightSums
  have htable : (⟨[], rightSums⟩ : Config).table = .ok (Table.overridden rightSums) := rfl
  obtain ⟨hfits, -⟩ := hmakes.mp ⟨_, htable⟩
  refine ⟨fun h => ?_, hfits, _, htable, rfl, ?_, ?_⟩
  · have hassoc := h.same_assoc ⟨.op .plus, 9, .right, some .arithmetic⟩ (by decide +kernel)
      ⟨.op .minus, 9, .left, some .arithmetic⟩ (by decide +kernel) rfl
    cases hassoc
  · exact (hreordered _ (sameForEach_swap (by decide) [] _) _).mpr htable
  · exact (hparted (rightSums.take 3) _ _ [_, _] rfl (List.Perm.swap _ _ _) _).mpr htable

end Config

end Fixity
