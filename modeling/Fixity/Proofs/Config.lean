import Fixity.Command
import Fixity.Proofs.Expr.Built
import Fixity.Proofs.Table

/-!
# Tables that the program can be started with

An override changes how an operator binds, and neither its type nor what it builds
(`Override.typed_apply`).  What the overrides leave is checked like any other draft of a table, and the
table has just these entries (`Table.eq_of_ofDrafts`).  So every table of a configuration is well typed,
and so is every table that a command runs with (`Settings.wellTyped_of_table`).
-/

namespace Fixity

open Fixity.Expr (bind_eq_ok map_eq_ok mapError_eq_ok)

/-! ### Overrides -/

/-- The entries build the nodes that their operators are made for. -/
structure Table.Typed (T : Table) : Prop where
  binary : ∀ op ∈ T.binary, op.type.category? = some op.builder
  unary : ∀ op ∈ T.unary, op.type.isUnary = true

namespace Override

variable {o : Override} {type : TokenType}

theorem typed_applyBinary {ops ops' : List BinaryOp}
    (hops : ∀ op ∈ ops, op.type.category? = some op.builder)
    (h : o.applyBinary type ops = .ok ops') :
    ∀ op ∈ ops', op.type.category? = some op.builder := by
  induction ops generalizing ops' with
  | nil => cases h
  | cons op ops ih =>
    obtain ⟨hop, hops⟩ := List.forall_mem_cons.mp hops
    rw [applyBinary] at h
    split at h
    · obtain ⟨assoc, -, h⟩ := bind_eq_ok.mp h
      obtain rfl := Except.ok.inj h
      exact List.forall_mem_cons.mpr ⟨hop, hops⟩
    · obtain ⟨rest, hrest, rfl⟩ := map_eq_ok.mp h
      exact List.forall_mem_cons.mpr ⟨hop, ih hops hrest⟩

theorem typed_applyUnary {ops ops' : List UnaryOp} (hops : ∀ op ∈ ops, op.type.isUnary = true)
    (h : o.applyUnary type ops = .ok ops') : ∀ op ∈ ops', op.type.isUnary = true := by
  induction ops generalizing ops' with
  | nil => cases h
  | cons op ops ih =>
    obtain ⟨hop, hops⟩ := List.forall_mem_cons.mp hops
    rw [applyUnary] at h
    split at h
    · obtain rfl := Except.ok.inj h
      exact List.forall_mem_cons.mpr ⟨hop, hops⟩
    · obtain ⟨rest, hrest, rfl⟩ := map_eq_ok.mp h
      exact List.forall_mem_cons.mpr ⟨hop, ih hops hrest⟩

/-- **An override keeps what the operators build.** -/
theorem typed_apply {t t' : Table} (ht : t.Typed) (h : apply t o = .ok t') : t'.Typed := by
  unfold apply at h
  split at h
  · cases h
  split at h
  · split at h
    · obtain ⟨unary, hunary, rfl⟩ := map_eq_ok.mp h
      exact ⟨ht.binary, typed_applyUnary ht.unary hunary⟩
    · cases h
  · obtain ⟨binary, hbinary, rfl⟩ := map_eq_ok.mp h
    exact ⟨typed_applyBinary ht.binary hbinary, ht.unary⟩

end Override

/-! ### Drafts -/

namespace Table

/-- **A table made from the drafts of entries has these entries.** -/
theorem eq_of_ofDrafts {β γ : Type} {t T : Table β γ}
    (h : ofDrafts (t.binary.map BinaryOp.draft) (t.unary.map UnaryOp.draft) = .ok T) : T = t := by
  obtain ⟨hbinary, hunary, -⟩ := ofDrafts_eq_ok.mp h
  obtain ⟨binary, unary⟩ := T
  rw [Table.mk.injEq]
  exact ⟨draft_injective.list_map hbinary, unaryDraft_injective.list_map hunary⟩

end Table

/-! ### Configurations and settings -/

/-- **The table of a configuration is well typed.** -/
theorem Config.wellTyped_of_table {c : Config} {T : Table} (h : c.table = .ok T) :
    T.WellTyped := by
  obtain ⟨t, hfold, h⟩ := bind_eq_ok.mp h
  have hstandard : Table.standard.Typed :=
    ⟨Table.standard_wellTyped.binary, Table.standard_wellTyped.unary⟩
  have ht : t.Typed :=
    Table.foldlM_ok_induct (fun _ _ _ ht happly => Override.typed_apply ht happly) _ _ _ hstandard hfold
  have hdrafts := mapError_eq_ok.mp h
  obtain rfl := Table.eq_of_ofDrafts hdrafts
  exact ⟨⟨_, _, hdrafts⟩, ht.binary, ht.unary⟩

namespace Settings

/-- **Every table that a command runs with is well typed.** -/
theorem wellTyped_of_table {s : Settings} {d : Directory} {T : Table}
    (h : (s.table d).2 = .ok T) : T.WellTyped := by
  unfold table at h
  split at h
  · obtain rfl := Except.ok.inj h
    exact Table.standard_wellTyped
  simp only at h
  split at h
  · cases h
  split at h
  · cases h
  · exact Config.wellTyped_of_table (mapError_eq_ok.mp h)

@[simp] theorem stdout_log (s : Settings) (time : Bytes) (lines : List Log.Line) :
    (s.log time lines).stdout = [] := by
  unfold log
  split <;> rfl

end Settings

end Fixity
