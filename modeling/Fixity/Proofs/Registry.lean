import Fixity.Document
import Fixity.Proofs.Expr.Built
import Mathlib.Data.Sum.Basic

/-!
# Registries are bijections

A codec keeps two maps: the kinds of node types, and the builders of kinds (`KindMaps`).  A registration
checks the request and both maps, and then writes to one map after the other (`KindMaps.register`).
Whatever is registered, the maps fit each other (`KindMaps.Fitting`): no two types have one kind, and the
kinds of types are the kinds with builders.  A registration that is refused changes nothing, and one that
is accepted adds one entry to each map (`KindMaps.Adds`).

The types of nodes and the builders are arbitrary here.  For the shapes of trees, `Registry.register`
does the same with one list in place of the two maps (`Registry.register_toMaps`), so every kind that a
document is written with can be rebuilt (`KindMaps.registered_kinds_fit`).
-/

namespace Fixity

/-- The maps of a codec from node types of `τ` to kinds and from kinds to builders of `β`.  As far as
the maps can tell, a missing type may have a kind and a kind a missing builder. -/
@[ext]
structure KindMaps (τ β : Type) where
  kinds : Option τ → Option Bytes
  builders : Bytes → Option (Option β)

namespace KindMaps

inductive Refusal (τ : Type) where
  | incomplete (kind : Bytes)
  | noType (kind : Bytes)
  | typeTaken (kind : Bytes) (type : τ) (other : Bytes)
  | kindTaken (kind : Bytes)

/-- A request to register a kind; the type of the sample and the builder may be missing. -/
structure Request (τ β : Type) where
  kind : Bytes
  sample : Option τ
  build : Option β

variable {τ β : Type}

def empty : KindMaps τ β := ⟨fun _ => none, fun _ => none⟩

variable [DecidableEq τ]

def setKind (c : KindMaps τ β) (type : Option τ) (kind : Bytes) : KindMaps τ β :=
  { c with kinds := Function.update c.kinds type (some kind) }

def setBuilder (c : KindMaps τ β) (kind : Bytes) (build : Option β) : KindMaps τ β :=
  { c with builders := Function.update c.builders kind (some build) }

def register (c : KindMaps τ β) (r : Request τ β) : Except (Refusal τ) Unit × KindMaps τ β :=
  if r.kind.isEmpty || r.build.isNone then (.error (.incomplete r.kind), c)
  else match r.sample with
    | none => (.error (.noType r.kind), c)
    | some type =>
      match c.kinds type with
      | some other => (.error (.typeTaken r.kind type other), c)
      | none =>
        if (c.builders r.kind).isSome then (.error (.kindTaken r.kind), c)
        else
          let c := c.setKind r.sample r.kind
          let c := c.setBuilder r.kind r.build
          (.ok (), c)

/-- The maps after a request, whether it was refused or not. -/
def after (c : KindMaps τ β) (r : Request τ β) : KindMaps τ β := (c.register r).2

/-- The request for a kind of shapes, where `type` is the type of the nodes of a shape and `build` their
builder. -/
def requestOf (type : Shape → τ) (build : Shape → β) (k : Kind) : Request τ β :=
  ⟨k.name, some (type k.shape), some (build k.build)⟩

def standardRequests (type : Shape → τ) (build : Shape → β) : List (Request τ β) :=
  Registry.standard.kinds.map (requestOf type build)

def standard (type : Shape → τ) (build : Shape → β) : KindMaps τ β :=
  (standardRequests type build).foldl after empty

/-! ### What is kept -/

structure Fitting (c : KindMaps τ β) : Prop where
  injective : ∀ s t kind, c.kinds s = some kind → c.kinds t = some kind → s = t
  same_kinds : ∀ kind, (∃ t, c.kinds t = some kind) ↔ (c.builders kind).isSome
  kind_ne_nil : ∀ t, c.kinds t ≠ some []
  type_present : c.kinds none = none
  builder_present : ∀ kind, c.builders kind ≠ some none

/-- The requests have been accepted, and nothing that they said was changed. -/
def Holds (c : KindMaps τ β) (rs : List (Request τ β)) : Prop :=
  ∀ r ∈ rs, c.kinds r.sample = some r.kind ∧ c.builders r.kind = some r.build

/-- The second maps are the first with one more type, kind and builder, none of them there before. -/
structure Adds (c c' : KindMaps τ β) (type : τ) (kind : Bytes) (build : β) : Prop where
  new_type : c.kinds type = none
  new_kind : c.builders kind = none
  kinds : c'.kinds = Function.update c.kinds (some type) (some kind)
  builders : c'.builders = Function.update c.builders kind (some (some build))

variable {c c' : KindMaps τ β} {r : Request τ β}

/-- **A refused registration changes nothing.** -/
theorem register_error {refusal : Refusal τ} (h : c.register r = (.error refusal, c')) : c' = c := by
  unfold register at h
  split at h
  · exact (Prod.mk.inj h).2.symm
  split at h
  · exact (Prod.mk.inj h).2.symm
  split at h
  · exact (Prod.mk.inj h).2.symm
  split at h
  · exact (Prod.mk.inj h).2.symm
  · cases (Prod.mk.inj h).1

/-- **Which registrations are accepted**, and what they add. -/
theorem register_eq_ok : c.register r = (.ok (), c') ↔ r.kind ≠ [] ∧
    ∃ type build, r.sample = some type ∧ r.build = some build ∧ c.Adds c' type r.kind build := by
  obtain ⟨kind, sample, build⟩ := r
  constructor
  · intro h
    unfold register at h
    split at h
    · cases (Prod.mk.inj h).1
    rename_i hcomplete
    split at h
    · cases (Prod.mk.inj h).1
    rename_i type hsample
    obtain rfl : sample = some type := hsample
    split at h
    · cases (Prod.mk.inj h).1
    rename_i htype
    split at h
    · cases (Prod.mk.inj h).1
    rename_i hkind
    obtain ⟨hne, hbuild⟩ : kind ≠ [] ∧ build ≠ none := by simpa using hcomplete
    obtain ⟨build, rfl⟩ := Option.ne_none_iff_exists'.mp hbuild
    obtain rfl := (Prod.mk.inj h).2
    exact ⟨hne, type, build, rfl, rfl, htype, by simpa using hkind, rfl, rfl⟩
  · rintro ⟨hne, type, build, rfl, rfl, htype, hkind, hkinds, hbuilders⟩
    have hc' : c' = (c.setKind (some type) kind).setBuilder kind (some build) :=
      KindMaps.ext hkinds hbuilders
    rw [register, if_neg (by simpa using hne)]
    simp only [htype, hkind, hc', Option.isSome_none, Bool.false_eq_true, if_false]

theorem Fitting.adds {type : τ} {kind : Bytes} {build : β} (hc : c.Fitting) (hne : kind ≠ [])
    (h : c.Adds c' type kind build) : c'.Fitting := by
  have hkinds : ∀ t k, c'.kinds t = some k ↔
      t = some type ∧ kind = k ∨ t ≠ some type ∧ c.kinds t = some k := by
    intro t k
    rw [h.kinds, Function.update_apply]
    by_cases ht : t = some type <;> simp [ht]
  have hbuilders : ∀ k, c'.builders k = if k = kind then some (some build) else c.builders k := by
    intro k
    rw [h.builders, Function.update_apply]
  have hnew : ∀ t, c.kinds t ≠ some kind := by
    intro t ht
    have hsome := (hc.same_kinds kind).mp ⟨t, ht⟩
    rw [h.new_kind] at hsome
    cases hsome
  refine
    { injective := fun s t k hs ht => ?_
      same_kinds := fun k => ?_
      kind_ne_nil := fun t ht => ?_
      type_present := ?_
      builder_present := fun k => ?_ }
  · rcases (hkinds s k).mp hs with ⟨rfl, rfl⟩ | ⟨-, hs⟩
    · rcases (hkinds t kind).mp ht with ⟨rfl, -⟩ | ⟨-, ht⟩
      · rfl
      · exact absurd ht (hnew t)
    · rcases (hkinds t k).mp ht with ⟨rfl, rfl⟩ | ⟨-, ht⟩
      · exact absurd hs (hnew s)
      · exact hc.injective s t k hs ht
  · by_cases hk : k = kind
    · subst hk
      rw [hbuilders, if_pos rfl]
      exact iff_of_true ⟨some type, (hkinds _ _).mpr (Or.inl ⟨rfl, rfl⟩)⟩ rfl
    · rw [hbuilders, if_neg hk, ← hc.same_kinds]
      refine exists_congr fun t => (hkinds t k).trans ?_
      constructor
      · rintro (⟨-, rfl⟩ | ⟨-, ht⟩)
        · exact absurd rfl hk
        · exact ht
      · intro ht
        refine Or.inr ⟨?_, ht⟩
        rintro rfl
        rw [h.new_type] at ht
        cases ht
  · rcases (hkinds t []).mp ht with ⟨-, rfl⟩ | ⟨-, ht⟩
    · exact hne rfl
    · exact hc.kind_ne_nil t ht
  · rw [h.kinds, Function.update_of_ne (by simp), hc.type_present]
  · rw [hbuilders]
    split
    · simp
    · exact hc.builder_present k

theorem Holds.adds {rs : List (Request τ β)} {type : τ} {kind : Bytes} {build : β}
    (hc : c.Holds rs) (h : c.Adds c' type kind build) : c'.Holds rs := by
  intro r hr
  obtain ⟨hkind, hbuild⟩ := hc r hr
  constructor
  · rw [h.kinds, Function.update_of_ne, hkind]
    rintro hsample
    rw [hsample, h.new_type] at hkind
    cases hkind
  · rw [h.builders, Function.update_of_ne, hbuild]
    intro hk
    rw [hk, h.new_kind] at hbuild
    cases hbuild

/-- What one more entry in each map keeps, a request keeps. -/
theorem after_induct {P : KindMaps τ β → Prop} (hc : P c)
    (hadds : ∀ c' type build, r.kind ≠ [] → c.Adds c' type r.kind build → P c') :
    P (c.after r) := by
  cases hanswer : c.register r with
  | mk answer c' =>
    have hafter : c.after r = c' := congrArg Prod.snd hanswer
    rw [hafter]
    cases answer with
    | error refusal => exact register_error hanswer ▸ hc
    | ok u =>
      obtain ⟨hne, type, build, -, -, h⟩ := register_eq_ok.mp hanswer
      exact hadds c' type build hne h

/-- **Any requests keep the maps fitting.** -/
theorem Fitting.foldl_after (hc : c.Fitting) (rs : List (Request τ β)) :
    (rs.foldl after c).Fitting := by
  induction rs generalizing c with
  | nil => exact hc
  | cons r rs ih => exact ih (after_induct hc fun _ _ _ hne h => hc.adds hne h)

/-- **Any requests keep what was registered before.** -/
theorem Holds.foldl_after {rs : List (Request τ β)} (hc : c.Holds rs)
    (more : List (Request τ β)) : (more.foldl after c).Holds rs := by
  induction more generalizing c with
  | nil => exact hc
  | cons r more ih => exact ih (after_induct hc fun _ _ _ _ h => hc.adds h)

omit [DecidableEq τ] in
theorem Fitting.exists_builder (hc : c.Fitting) {t : Option τ} {kind : Bytes}
    (h : c.kinds t = some kind) : ∃ build, c.builders kind = some (some build) := by
  obtain ⟨build, hbuild⟩ := Option.isSome_iff_exists.mp ((hc.same_kinds kind).mp ⟨t, h⟩)
  cases build with
  | none => exact absurd hbuild (hc.builder_present kind)
  | some build => exact ⟨build, hbuild⟩

/-! ### New codecs -/

omit [DecidableEq τ] in
theorem fitting_empty : (empty : KindMaps τ β).Fitting := by
  refine ⟨?_, ?_, ?_, rfl, ?_⟩ <;> simp [empty]

/-- Requests for different types and kinds, none of them there before, are all accepted. -/
theorem holds_foldl_requestOf {type : Shape → τ} (htype : Function.Injective type)
    (build : Shape → β) (ks : List Kind) (hshapes : (ks.map (·.shape)).Nodup)
    (hnames : (ks.map (·.name)).Nodup) (hne : ∀ k ∈ ks, k.name ≠ []) :
    ∀ c : KindMaps τ β, (∀ k ∈ ks, c.kinds (type k.shape) = none ∧ c.builders k.name = none) →
      ((ks.map (requestOf type build)).foldl after c).Holds (ks.map (requestOf type build)) := by
  induction ks with
  | nil => exact fun c _ r hr => absurd hr List.not_mem_nil
  | cons k ks ih =>
    intro c hc
    obtain ⟨hshape, hshapes⟩ := List.nodup_cons.mp hshapes
    obtain ⟨hname, hnames⟩ := List.nodup_cons.mp hnames
    obtain ⟨hk, hne⟩ := List.forall_mem_cons.mp hne
    obtain ⟨⟨hnewType, hnewKind⟩, hc⟩ := List.forall_mem_cons.mp hc
    have hadds : c.Adds (c.after (requestOf type build k)) (type k.shape) k.name (build k.build) := by
      have hok : c.register (requestOf type build k) =
          (.ok (), (c.setKind (type k.shape) k.name).setBuilder k.name (build k.build)) :=
        register_eq_ok.mpr ⟨hk, _, _, rfl, rfl, hnewType, hnewKind, rfl, rfl⟩
      rw [after, hok]
      exact ⟨hnewType, hnewKind, rfl, rfl⟩
    rw [List.map_cons, List.foldl_cons]
    refine List.forall_mem_cons.mpr ⟨?_, ?_⟩
    · have hfirst : (c.after (requestOf type build k)).Holds [requestOf type build k] := by
        refine List.forall_mem_singleton.mpr ⟨?_, ?_⟩
        · rw [hadds.kinds]
          exact Function.update_self ..
        · rw [hadds.builders]
          exact Function.update_self ..
      exact hfirst.foldl_after _ _ List.mem_cons_self
    · refine ih hshapes hnames hne _ fun k' hk' => ?_
      obtain ⟨hkind', hbuilder'⟩ := hc k' hk'
      have hshape' : k'.shape ≠ k.shape := fun he => hshape (List.mem_map.mpr ⟨k', hk', he⟩)
      have hname' : k'.name ≠ k.name := fun he => hname (List.mem_map.mpr ⟨k', hk', he⟩)
      rw [hadds.kinds, hadds.builders, Function.update_of_ne, Function.update_of_ne hname']
      · exact ⟨hkind', hbuilder'⟩
      · exact fun he => hshape' (htype (Option.some.inj he))

theorem holds_standard {type : Shape → τ} (htype : Function.Injective type) (build : Shape → β) :
    (standard type build).Holds (standardRequests type build) :=
  holds_foldl_requestOf htype build Registry.standard.kinds (by decide) (by decide) (by decide) empty
    fun _ _ => ⟨rfl, rfl⟩

theorem fitting_standard (type : Shape → τ) (build : Shape → β) :
    (standard type build).Fitting := fitting_empty.foldl_after _

end KindMaps

/-! ### Registries of shapes -/

namespace Registry

open KindMaps

def toMaps (R : Registry) : KindMaps Shape Shape where
  kinds type := type.bind R.kindOf?
  builders kind := (R.builder? kind).map some

def after (R : Registry) (r : Request Shape Shape) : Registry :=
  match R.register r.kind r.sample r.build with
  | .ok R' => R'
  | .error _ => R

theorem toMaps_append {R : Registry} {name : Bytes} {shape build : Shape}
    (hshape : R.kindOf? shape = none) (hname : R.builder? name = none) :
    toMaps ⟨R.kinds ++ [⟨name, shape, build⟩]⟩ =
      (R.toMaps.setKind (some shape) name).setBuilder name (some build) := by
  refine KindMaps.ext (funext fun t => ?_) (funext fun kind => ?_)
  · rw [kindOf?, Option.map_eq_none_iff] at hshape
    cases t with
    | none => rfl
    | some t =>
      show (kindOf? _ t) = Function.update R.toMaps.kinds (some shape) (some name) (some t)
      rw [Function.update_apply, kindOf?, List.find?_append]
      by_cases ht : t = shape
      · simp [ht, hshape]
      · simp [ht, Ne.symm ht, toMaps, kindOf?]
  · rw [builder?, Option.map_eq_none_iff] at hname
    show (builder? _ kind).map some = Function.update R.toMaps.builders name _ kind
    rw [Function.update_apply, builder?, List.find?_append]
    by_cases hk : kind = name
    · simp [hk, hname]
    · simp [hk, Ne.symm hk, toMaps, builder?]

def refusal : RegisterError → Refusal Shape
  | .incomplete name => .incomplete name
  | .noShape name => .noType name
  | .shapeTaken name shape other => .typeTaken name shape other
  | .nameTaken name => .kindTaken name

/-- **One list does what two maps do**: it refuses the same requests for the same reasons, and adds the
same entries. -/
theorem register_toMaps (R : Registry) (r : Request Shape Shape) : R.toMaps.register r =
    match R.register r.kind r.sample r.build with
    | .ok R' => (.ok (), R'.toMaps)
    | .error e => (.error (refusal e), R.toMaps) := by
  obtain ⟨name, shape, build⟩ := r
  unfold register KindMaps.register
  cases build with
  | none => rw [if_pos (by simp)]; rfl
  | some build =>
    cases hempty : name.isEmpty with
    | true => rfl
    | false =>
      cases shape with
      | none => rfl
      | some shape =>
        have hkinds : R.toMaps.kinds (some shape) = R.kindOf? shape := rfl
        have hbuilders : (R.toMaps.builders name).isSome = (R.builder? name).isSome :=
          Option.isSome_map
        simp only [hkinds, hbuilders]
        cases hshape : R.kindOf? shape with
        | some other => rfl
        | none =>
          cases hname : R.builder? name with
          | some build' => rfl
          | none =>
            rw [← toMaps_append hshape hname]
            rfl

theorem toMaps_after (R : Registry) (r : Request Shape Shape) :
    (R.after r).toMaps = R.toMaps.after r := by
  rw [after, KindMaps.after, register_toMaps]
  cases R.register r.kind r.sample r.build <;> rfl

theorem toMaps_foldl_after (R : Registry) (rs : List (Request Shape Shape)) :
    (rs.foldl after R).toMaps = rs.foldl KindMaps.after R.toMaps := by
  induction rs generalizing R with
  | nil => rfl
  | cons r rs ih => rw [List.foldl_cons, List.foldl_cons, ih, toMaps_after]

theorem toMaps_standard : standard.toMaps = KindMaps.standard id id := by
  have hfold : (standardRequests id id).foldl after ⟨[]⟩ = standard := by decide
  have hempty : toMaps ⟨[]⟩ = empty := KindMaps.ext (funext fun t => by cases t <;> rfl) rfl
  rw [← hfold, toMaps_foldl_after, hempty, KindMaps.standard]

end Registry

namespace Document

theorem exists_kindOf?_of_mem_rows {R : Registry} {root : Expr} {rs : List Row}
    (h : rows R root = .ok rs) {row : Row} (hrow : row ∈ rs) :
    ∃ shape, R.kindOf? shape = some row.kind := by
  rw [rows] at h
  generalize layout 1 [root] = xs at h
  induction xs generalizing rs with
  | nil =>
    obtain rfl := Except.ok.inj h
    cases hrow
  | cons x xs ih =>
    obtain ⟨e, children⟩ := x
    rw [List.mapM_cons] at h
    obtain ⟨first, hfirst, h⟩ := Expr.bind_eq_ok.mp h
    obtain ⟨rest, hrest, h⟩ := Expr.bind_eq_ok.mp h
    obtain rfl := Except.ok.inj h
    rcases List.mem_cons.mp hrow with rfl | hrow
    · cases hkind : R.kindOf? e.shape with
      | none => simp [hkind] at hfirst
      | some kind =>
        simp only [hkind] at hfirst
        obtain rfl := Except.ok.inj hfirst
        exact ⟨e.shape, hkind⟩
    · exact ih hrow hrest

end Document

namespace KindMaps

/-- **Registries are bijections.**  After any requests to a new codec the maps fit each other and have
the standard kinds with their types and builders; a refused request leaves them as they are, and a
request is accepted exactly when it adds one new type, kind and builder.  The registries of shapes do
the same, so every kind in the rows of a document can be rebuilt. -/
theorem registered_kinds_fit {τ β : Type} [DecidableEq τ] {type : Shape → τ}
    (htype : Function.Injective type) (build : Shape → β) :
    (∀ requests : List (Request τ β), (requests.foldl after (standard type build)).Fitting ∧
      (requests.foldl after (standard type build)).Holds (standardRequests type build)) ∧
    (∀ (c c' : KindMaps τ β) (r : Request τ β) (refusal : Refusal τ),
      c.register r = (.error refusal, c') → c' = c) ∧
    (∀ (c c' : KindMaps τ β) (r : Request τ β), c.register r = (.ok (), c') ↔
      r.kind ≠ [] ∧ ∃ type build, r.sample = some type ∧ r.build = some build ∧
        c.Adds c' type r.kind build) ∧
    ∀ requests : List (Request Shape Shape), ∀ R, R = requests.foldl Registry.after .standard →
      R.toMaps = requests.foldl after (standard id id) ∧
      ∀ root doc, Document.encode R (some root) = .ok doc → ∃ rows,
        Document.rows R root = .ok rows ∧ doc = Document.ofRows rows ∧
          ∀ row ∈ rows, ∃ shape, R.builder? row.kind = some shape := by
  refine ⟨fun requests => ⟨(fitting_standard type build).foldl_after requests,
    (holds_standard htype build).foldl_after requests⟩, fun _ _ _ _ => register_error,
    fun _ _ _ => register_eq_ok, ?_⟩
  rintro requests R rfl
  have hmaps : (requests.foldl Registry.after .standard).toMaps =
      requests.foldl after (standard id id) := by
    rw [Registry.toMaps_foldl_after, Registry.toMaps_standard]
  refine ⟨hmaps, fun root doc hdoc => ?_⟩
  obtain ⟨rows, hrows, rfl⟩ := Expr.map_eq_ok.mp hdoc
  refine ⟨rows, hrows, rfl, fun row hrow => ?_⟩
  obtain ⟨shape, hshape⟩ := Document.exists_kindOf?_of_mem_rows hrows hrow
  have hfit := (fitting_standard (τ := Shape) (β := Shape) id id).foldl_after requests
  obtain ⟨builder, hbuilder⟩ := hfit.exists_builder (t := some shape) (by rw [← hmaps]; exact hshape)
  rw [← hmaps] at hbuilder
  obtain ⟨shape', hshape', -⟩ := Option.map_eq_some_iff.mp hbuilder
  exact ⟨shape', hshape'⟩

/-- Node types that are none of the standard ones are numbered here.  The first request is accepted; the
others ask for a kind or a type that is taken, or lack a kind, a type or a builder. -/
def indexRequests : List (Request (Shape ⊕ Nat) Shape) :=
  [⟨"index", some (.inr 0), some .subscript⟩, ⟨"index", some (.inr 1), some .call⟩,
    ⟨"slice", some (.inr 0), some .call⟩, ⟨"literal", some (.inr 1), some .call⟩,
    ⟨[], some (.inr 1), some .call⟩, ⟨"slice", none, some .call⟩, ⟨"slice", some (.inr 1), none⟩]

/-- One type has the new kind, and a type of its own has each standard kind. -/
theorem kinds_indexRequests : Function.Injective (Sum.inl : Shape → Shape ⊕ Nat) ∧
    ∃ c : KindMaps (Shape ⊕ Nat) Shape, c = indexRequests.foldl after (standard .inl id) ∧
    (∀ t, c.kinds t = some "index" ↔ t = some (.inr 0)) ∧
    (∀ t, c.kinds t = some "literal" ↔ t = some (.inl .literal)) ∧
    c.builders "index" = some (some .subscript) ∧ c.builders "slice" = none := by
  have htype : Function.Injective (Sum.inl : Shape → Shape ⊕ Nat) := Sum.inl_injective
  obtain ⟨hafter, -⟩ := registered_kinds_fit htype (id : Shape → Shape)
  obtain ⟨hfit, hholds⟩ := hafter indexRequests
  have hindex : (indexRequests.foldl after (standard .inl id)).kinds (some (.inr 0)) =
      some (Bytes.of "index") := by decide
  have hmem : (⟨"literal", .literal, .literal⟩ : Kind) ∈ Registry.standard.kinds := by decide
  have hliteral := (hholds _ (List.mem_map_of_mem hmem)).1
  refine ⟨htype, _, rfl, fun t => ⟨fun h => hfit.injective _ _ _ h hindex, ?_⟩,
    fun t => ⟨fun h => hfit.injective _ _ _ h hliteral, ?_⟩, by decide, by decide⟩
  · rintro rfl
    exact hindex
  · rintro rfl
    exact hliteral

end KindMaps

end Fixity
