import Fixity.Frame.Raw
import Fixity.Proofs.Config
import Fixity.Proofs.Parse.Parsed
import Fixity.Proofs.Unambiguous

/-!
# What comes back from a stored tree

The tree of a text is written to a document; the document is read, verified and printed.  The source
text of the tree is printed exactly when no number of the tree is too large and all its strings are
intact (`Storable`, `Invocation.load_dump_iff`).

The two ways to fail differ.  A number that is too large is refused when the document is read.  A
string that is not intact comes back as another string, which survives its own round trip, so that
another text is printed and nothing is refused (`Invocation.load_bell`).
-/

namespace Fixity

open Fixity.Expr Fixity.Document

/-! ### Restored trees -/

namespace Expr

/-- The numbers of a tree can be read again, and its strings are read as they are written. -/
structure Storable (e : Expr) : Prop where
  numbers : ∀ n ∈ e.nodes, n.token.type = .number → ¬Double.Overflows n.token.lexeme
  strings : ∀ n ∈ e.nodes, n.token.type = .string → Json.Intact n.token.lexeme

theorem built_of_restored {e t : Expr} (he : Expr.Built e) (h : Restored e t) : Expr.Built t := by
  induction e using induction_children generalizing t with
  | node e ih =>
    obtain ⟨token, cs, -, hcs, hbuild⟩ := restored_iff.mp h
    exact built_of_build (shape_ne_subscript he)
      (forall_mem_of_forall₂ hcs fun c hc _ hc' => ih c hc (he.child hc) hc') hbuild

/-- **The restored tree is alike exactly when every leaf is read as it was.** -/
theorem alike_iff_of_restored {e t : Expr} (h : Restored e t) :
    Alike e t ↔
      ∀ n ∈ e.nodes, n.children = [] → Json.reread n.token.lexeme = n.token.lexeme := by
  induction e using induction_children generalizing t with
  | node e ih =>
    obtain ⟨token, cs, htoken, hcs, hbuild⟩ := restored_iff.mp h
    obtain ⟨literal, -, rfl⟩ := tokenAgain_eq_ok htoken
    obtain ⟨hshape, htoken', rfl⟩ := of_build_eq_ok hbuild
    have hchildren : List.Forall₂ Alike e.children t.children ↔ ∀ c ∈ e.children, ∀ n ∈ c.nodes,
        n.children = [] → Json.reread n.token.lexeme = n.token.lexeme :=
      forall₂_iff_forall_mem hcs fun c hc _ hc' => ih c hc hc'
    rw [alike_iff, forall_nodes, ← hchildren, hshape, htoken']
    constructor
    · rintro ⟨-, -, hlexeme, halike⟩
      exact ⟨fun hleaf => (hlexeme hleaf).symm, halike⟩
    · rintro ⟨hlexeme, halike⟩
      exact ⟨rfl, rfl, fun hleaf => (hlexeme hleaf).symm, halike⟩

/-! ### Trees of texts -/

variable {T : Table}

theorem Storable.reread_eq {e : Expr} (h : e.Storable) (he : e.Parsed T) :
    ∀ n ∈ e.nodes, Json.reread n.token.lexeme = n.token.lexeme := by
  intro n hn
  rw [Json.reread_eq_iff]
  by_cases hstring : n.token.type = .string
  · exact h.strings n hn hstring
  · exact Or.inl (he.plain_lexeme n hn hstring)

theorem read?_ne_none_iff {e : Expr} (he : Expr.Built e) (htype : e.token.type = .number) :
    Double.read? e.token.lexeme ≠ none ↔ ¬Double.Overflows e.token.lexeme := by
  rw [Ne, Double.read?_eq_none_iff (he.isNumber htype)]

/-- **The source text of a tree is printed again** from what is restored of it, verified, exactly when
the tree is storable. -/
theorem verify_restored_iff (hT : T.Coherent) {e : Expr} (he : e.Parsed T) :
    (∃ t, Restored e t ∧ t.verify T = .ok (e.source T)) ↔ e.Storable := by
  constructor
  · rintro ⟨t, ht, hverify⟩
    obtain ⟨hsource, -⟩ := verify_eq_ok.mp hverify
    have halike := alike_of_source_eq hT.regular he.built (built_of_restored he.built ht) hsource
    have hleaf := (alike_iff_of_restored ht).mp halike
    have hread : ∀ n ∈ e.nodes, n.token.type.isLiteral = true →
        Json.reread n.token.lexeme = n.token.lexeme :=
      fun n hn htype => hleaf n hn ((he.built.of_mem_nodes n hn).children_eq_nil htype)
    refine ⟨fun n hn htype => ?_, fun n hn htype => ?_⟩
    · obtain ⟨t', ht'⟩ := exists_restored_of_mem_nodes ht n hn
      rw [← read?_ne_none_iff (he.built.of_mem_nodes n hn) htype]
      exact read?_ne_none_of_restored ht' (hread n hn (by rw [htype]; rfl)) htype
    · rw [← Json.reread_eq_iff]
      exact hread n hn (by rw [htype]; rfl)
  · intro h
    have hread := h.reread_eq he
    obtain ⟨t, ht, -⟩ := exists_restored he.built hread fun n hn htype =>
      (read?_ne_none_iff (he.built.of_mem_nodes n hn) htype).mpr (h.numbers n hn htype)
    have halike := (alike_iff_of_restored ht).mpr fun n hn _ => hread n hn
    have hsource : e.source T = t.source T := halike.source_eq T
    obtain ⟨parsed, hparse, hparsed⟩ := exists_parse_source hT he.built he.hasEntry he.validStrings
    refine ⟨t, ht, verify_eq_ok.mpr ⟨hsource, parsed, ?_, halike.symm.trans hparsed⟩⟩
    rw [← hsource, hparse]

end Expr

/-- What is read from the document of a tree, compressed or not, is what is restored of the tree. -/
theorem Store.decode_encode {Z : Compression} {e : Expr} (he : Expr.Built e) {compressed : Bool}
    {doc : Bytes} (h : Store.encode Z compressed e = .ok doc) (t : Expr) :
    Store.decode Z doc = .ok t ↔ Restored e t := by
  have hkeeps : ∀ n ∈ e.nodes, Keeps Registry.standard n :=
    fun n hn => keeps_standard (he.of_mem_nodes n hn)
  have hencode : Document.encode Registry.standard (some e) =
      .ok (ofRows ((layout 1 [e]).map (entryRow Registry.standard))) := by
    rw [Document.encode, rows_eq_ok hkeeps]
    rfl
  rw [← decode_ofRows_layout (Z := Z) hkeeps]
  cases compressed with
  | false =>
    obtain rfl := Except.ok.inj (hencode.symm.trans h)
    rfl
  | true =>
    have h : Document.encodeCompressed Z Registry.standard (some e) = .ok doc := h
    rw [encodeCompressed, hencode] at h
    obtain rfl := Except.ok.inj h
    rw [Store.decode, decode_compress Z _ (isFrame_ofRows _)]

/-! ### Commands -/

namespace Outcome

theorem stdout_after (o : Outcome) {before : Output} (h : before.stdout = []) :
    (o.after before).output.stdout = o.output.stdout := by
  show before.stdout ++ o.output.stdout = o.output.stdout
  rw [h]
  rfl

/-- The run has written the bytes to the file that its settings name, or to standard output. -/
def Wrote (o : Outcome) (s : Settings) (bs : Bytes) : Prop :=
  if s.output.isEmpty then o.output.stdout = bs else o.written = some (s.output, bs)

theorem wrote_after {o : Outcome} {before : Output} (h : before.stdout = []) (s : Settings)
    (bs : Bytes) : (o.after before).Wrote s bs ↔ o.Wrote s bs := by
  rw [Wrote, Wrote, stdout_after o h]
  rfl

/-- The run has ended well and has printed the text on a line of its own. -/
def Prints (o : Outcome) (text : Bytes) : Prop :=
  o.failure = none ∧ o.output.stdout = text ++ [10]

theorem prints_after {o : Outcome} {before : Output} (h : before.stdout = []) (text : Bytes) :
    (o.after before).Prints text ↔ o.Prints text := by
  rw [Prints, Prints, stdout_after o h]
  rfl

end Outcome

namespace Invocation

variable {Z : Compression} {s : Settings} {d : Directory} {T : Table} {path : Bytes}

theorem withTable_of_ok (h : (s.table d).2 = .ok T) (time : Bytes) (run : Table → Outcome) :
    withTable time s d run = (run T).after (s.log time (s.table d).1) := by
  rw [withTable]
  generalize s.table d = r at h
  obtain ⟨lines, result⟩ := r
  obtain rfl : result = .ok T := h
  rfl

theorem runDump_eq_done {time : Bytes} (h : (runDump Z time s T d path).failure = none) :
    ∃ content e doc, d.read? path = some content ∧ Expr.parse T content = .ok e ∧
      Store.encode Z s.zstd e = .ok doc ∧ (runDump Z time s T d path).Wrote s doc := by
  unfold runDump at h ⊢
  cases hcontent : d.read? path with
  | none =>
    rw [hcontent] at h
    cases h
  | some content =>
    cases hparse : Expr.parse T content with
    | error error =>
      simp only [hcontent, hparse] at h
      cases h
    | ok e =>
      cases hencode : Store.encode Z s.zstd e with
      | error error =>
        simp only [hcontent, hparse, hencode] at h
        cases h
      | ok doc =>
        simp only [hcontent, hparse, hencode] at h ⊢
        refine ⟨content, e, doc, rfl, hparse, hencode,
          (Outcome.wrote_after (Settings.stdout_log ..) s doc).mpr ?_⟩
        rw [Outcome.Wrote]
        by_cases hempty : s.output.isEmpty = true
        · rw [if_pos hempty, if_pos hempty]
          rfl
        · rw [if_neg hempty] at h ⊢
          rw [if_neg hempty]
          by_cases hwrite : d.canWrite s.output = true
          · rw [if_pos hwrite]
          · rw [if_neg hwrite] at h
            cases h

theorem runLoad_prints_iff {time doc : Bytes} (hverify : s.verify = true) (htree : s.tree = false)
    (hread : d.read? path = some doc) (text : Bytes) :
    (runLoad Z time s T d path).Prints text ↔
      ∃ t, Store.decode Z doc = .ok t ∧ t.verify T = .ok text := by
  unfold runLoad
  simp only [hread]
  cases hdecode : Store.decode Z doc with
  | error error => simp [Outcome.Prints, Outcome.failed]
  | ok t =>
    simp only
    rw [Outcome.prints_after (Settings.stdout_log ..)]
    simp only [Store.print, hverify, htree, if_true]
    cases hverified : t.verify T with
    | error error => simp [Outcome.Prints, Outcome.failed, hverified]
    | ok src => simp [Outcome.Prints, Outcome.done, Output.out, hverified]

/-- **What is written is printed again exactly when the tree is storable.**  A document that was
written, compressed in whatever way or not at all, is read under the same table wherever it is kept and
whenever. -/
theorem load_dump_iff {clock : Nat → Bytes} {stdin : Bytes} (htable : (s.table d).2 = .ok T)
    (hdump : (run Z clock d stdin (.dump s path)).failure = none) :
    ∃ content e doc, d.read? path = some content ∧ Expr.parse T content = .ok e ∧
      (run Z clock d stdin (.dump s path)).Wrote s doc ∧
      ∀ (clock' : Nat → Bytes) (s' : Settings) (d' : Directory) (path' stdin' : Bytes),
        (s'.table d').2 = .ok T → s'.verify = true → s'.tree = false → d'.read? path' = some doc →
        ((run Z clock' d' stdin' (.load s' path')).Prints (e.source T) ↔ e.Storable) := by
  rw [run, withTable_of_ok htable] at hdump
  obtain ⟨content, e, doc, hcontent, hparse, hencode, hwrote⟩ := runDump_eq_done hdump
  have hparsed := parsed_of_parse hparse
  refine ⟨content, e, doc, hcontent, hparse, ?_, ?_⟩
  · rw [run, withTable_of_ok htable]
    exact (Outcome.wrote_after (Settings.stdout_log ..) s doc).mpr hwrote
  · intro clock' s' d' path' stdin' htable' hverify htree hread
    rw [run, withTable_of_ok htable', Outcome.prints_after (Settings.stdout_log ..),
      runLoad_prints_iff hverify htree hread,
      ← verify_restored_iff (Settings.wellTyped_of_table htable).coherent hparsed]
    simp only [Store.decode_encode hparsed.built hencode]

/-! ### Strings with a control character -/

def textFile (content : Bytes) : Directory := ⟨[("e.dry", content)], []⟩

def treeFile (doc : Bytes) : Directory := ⟨[("e.ast", doc)], []⟩

def quotedControl (control : UInt8) : Bytes := [34, control, 34]

def controlTree (control : UInt8) : Expr :=
  .literal ⟨.string, quotedControl control, .string [control], ⟨1, 1⟩⟩

/-- Runs with frames of raw blocks, and without a clock. -/
abbrev runRaw : Directory → Bytes → Invocation → Outcome := run Frame.raw fun _ => []

def compressing : Settings := { Settings.initial with zstd := true, output := "e.ast" }

/-- A tab comes back from a compressed document. -/
theorem load_dump_tab :
    (compressing.table (textFile (quotedControl 9))).2 = .ok Table.standard ∧
    (runRaw (textFile (quotedControl 9)) [] (.dump compressing "e.dry")).failure = none ∧
    ∃ doc, (runRaw (textFile (quotedControl 9)) [] (.dump compressing "e.dry")).Wrote compressing doc ∧
      (runRaw (treeFile doc) [] (.load .initial "e.ast")).Prints (quotedControl 9) := by
  have htable : (compressing.table (textFile (quotedControl 9))).2 = .ok Table.standard := rfl
  have hdump : (runRaw (textFile (quotedControl 9)) [] (.dump compressing "e.dry")).failure = none := by
    decide +kernel
  obtain ⟨content, e, doc, hcontent, hparse, hwrote, hload⟩ := load_dump_iff htable hdump
  obtain rfl : quotedControl 9 = content := Option.some.inj hcontent
  obtain rfl : controlTree 9 = e := Except.ok.inj hparse
  refine ⟨htable, hdump, doc, hwrote, ?_⟩
  refine (hload (fun _ => []) .initial (treeFile doc) "e.ast" [] rfl rfl rfl rfl).mpr ?_
  exact ⟨by decide +kernel, by decide +kernel⟩

/-- **A bell does not come back**: its document is written, read and verified, and a string with a
backslash and the letter `a` is printed. -/
theorem load_bell : Expr.parse Table.standard (quotedControl 7) = .ok (controlTree 7) ∧
    (runRaw (textFile (quotedControl 7)) [] (.dump .initial "e.dry")).failure = none ∧
    ∃ printed, printed ≠ (controlTree 7).source Table.standard ∧
      (runRaw (treeFile (runRaw (textFile (quotedControl 7)) [] (.dump .initial "e.dry")).output.stdout) []
        (.load .initial "e.ast")).Prints printed := by
  refine ⟨rfl, by decide +kernel, [34, 92, 97, 34], ?_, by decide +kernel, by decide +kernel⟩
  decide +kernel

/-- A number that is too large is written, but its document is refused. -/
example : (runRaw (treeFile (runRaw (textFile (List.replicate 400 49)) []
    (.dump .initial "e.dry")).output.stdout) [] (.load .initial "e.ast")).failure ≠ none := by
  decide +kernel

end Invocation

end Fixity
