import Fixity.Proofs.Stored
import Fixity.Proofs.Text.Lines

/-!
# Formatted files

What is printed of a file is a file whose lines are settled: each is empty or the source text of the
tree it is parsed to (`Format.Settled`).  Formatting leaves such a file as it is and has nothing to say
about it, so formatting twice is formatting once (`Invocation.format_idempotent`).

A source text is settled because it is a line of its own: a tree that was parsed from one line has no
line end in its lexemes, no segment of a source text ends in a carriage return, and none begins with
white space.
-/

namespace Fixity

open Fixity.Expr

/-! ### Source texts on one line -/

namespace Lexeme

theorem continuesWord_eq_false_of_isBlank {c : Char} (h : Text.isBlank c = true) :
    continuesWord c = false := by
  have hmark : ¬ ∃ p ∈ Text.blankRanges, p.1 ≤ 95 ∧ 95 ≤ p.2 := by decide
  rw [← Bool.not_eq_true, continuesWord_iff, beginsWord_iff, Text.isLetter_eq_false_of_isBlank h,
    Text.isDigitChar_eq_false_of_isBlank h]
  rintro ((hc | hletter) | hdigit)
  · rw [Text.isBlank_iff, hc] at h
    exact hmark h
  · cases hletter
  · cases hdigit

theorem ne_token_of_isBlank {c : Char} (h : Text.isBlank c = true) (cs : List Char)
    (type : TokenType) : (lead c cs).1 ≠ .token type := by
  have hword := continuesWord_eq_false_of_isBlank h
  obtain ⟨hbegins, -⟩ := Bool.or_eq_false_iff.mp hword
  have hdigit := isDigit_eq_false hword
  unfold lead
  split
  -- the four characters of blank segments; all other white space is rejected
  case h_1 | h_2 | h_3 | h_4 => simp
  case h_22 => simp [hdigit, hbegins]
  all_goals exact absurd h (by decide)

end Lexeme

theorem Scan.no_end_of_mem {line : Int64} {src : Bytes} (h : 10 ∉ src) {t : Token}
    (ht : t ∈ (ofBytes line src).stream.tokens) : 10 ∉ t.lexeme := by
  obtain ⟨as, bs, text, hsplit, hlexeme, -⟩ := exists_of_mem_tokens ht
  intro hmem
  rw [hlexeme] at hmem
  have hchar := Utf8.mem_of_mem_encode (by decide) hmem
  refine h (Utf8.mem_of_mem_decode (by decide) ?_)
  have hcover : (Lexeme.segments (Utf8.decode src)).flatMap Segment.text = Utf8.decode src :=
    Segment.flatMap_text_cut Lexeme.lead _
  rw [← hcover, hsplit]
  exact List.mem_flatMap.mpr ⟨_, List.mem_append_right _ List.mem_cons_self, hchar⟩

namespace Expr

variable {T : Table}

/-- No lexeme of a parsed tree ends in a carriage return: a string ends in a quote. -/
theorem Parsed.getLast?_lexeme_ne {e : Expr} (h : e.Parsed T) {n : Expr} (hn : n ∈ e.nodes) :
    n.token.lexeme.getLast? ≠ some 13 := by
  intro hlast
  by_cases hstring : n.token.type = .string
  · obtain ⟨body, hlexeme, -⟩ := Lexeme.isString_cases ((h.built.of_mem_nodes n hn).isString hstring)
    rw [hlexeme, ← List.cons_append, List.getLast?_concat] at hlast
    exact absurd hlast (by decide)
  · have hplain := h.plain_lexeme n hn hstring 13 (List.mem_of_getLast? hlast)
    exact absurd hplain (by decide)

theorem getLast?_flatMap_ne {ss : List (Segment UInt8 Lexeme)} {b : UInt8}
    (h : ∀ s ∈ ss, s.text.getLast? ≠ some b) : (ss.flatMap Segment.text).getLast? ≠ some b := by
  induction ss with
  | nil => simp
  | cons s ss ih =>
    obtain ⟨hs, hss⟩ := List.forall_mem_cons.mp h
    have hrest := ih hss
    rw [List.flatMap_cons, List.getLast?_append]
    cases hlast : (ss.flatMap Segment.text).getLast? with
    | none => simpa using hs
    | some b' => simpa [hlast] using hrest

theorem isLine_source {line : Int64} {src : Bytes} (hsrc : 10 ∉ src) {e : Expr}
    (h : Expr.parseAt T line src = .ok e) : Format.IsLine (e.source T) := by
  have hparsed := parsed_of_parseAt h
  obtain ⟨-, hrun⟩ := parseAt_eq_ok.mp h
  have hlexemes : ∀ n ∈ e.nodes, 10 ∉ n.token.lexeme :=
    Parser.run_kept Parser.kept_tokens rfl (fun _ ht => Scan.no_end_of_mem hsrc ht) hrun
  have hsegments : ∀ s ∈ e.segments T, 10 ∉ s.text ∧ s.text.getLast? ≠ some 13 := by
    -- spaces, parentheses, commas and operators are known texts; the leaves were scanned
    refine forall_segments (by decide) (by decide) (by decide) (by decide) (fun o => ?_) T
      hparsed.built fun n hn _ => ⟨hlexemes n hn, hparsed.getLast?_lexeme_ne hn⟩
    cases o <;> decide
  rw [source_eq]
  refine ⟨fun hmem => ?_, getLast?_flatMap_ne fun s hs => (hsegments s hs).2⟩
  obtain ⟨s, hs, hmem⟩ := List.mem_flatMap.mp hmem
  exact (hsegments s hs).1 hmem

theorem isBlankText_source {e : Expr} (h : Built e) : Text.isBlankText (e.source T) = false := by
  obtain ⟨s, more, type, hsegments, hlabel, -⟩ := leads_segments T h
  have hcut := segments_decode_source T h
  rw [hsegments, List.map_cons, Lexeme.segments] at hcut
  cases hchars : Utf8.decode (e.source T) with
  | nil =>
    rw [hchars] at hcut
    cases hcut
  | cons c cs =>
    rw [hchars, Segment.cut_cons] at hcut
    have hlead : (Lexeme.lead c cs).1 = .token type :=
      (Segment.mk.inj (List.cons.inj hcut).1).2.trans hlabel
    have hc : Text.isBlank c = false := by
      rw [← Bool.not_eq_true]
      exact fun hblank => Lexeme.ne_token_of_isBlank hblank cs type hlead
    have hdrop : (c :: cs).dropWhile Text.isBlank = c :: cs :=
      List.dropWhile_cons_of_neg (by simp [hc])
    rw [Text.isBlankText, Text.trim, hchars, hdrop, List.isEmpty_eq_false_iff, Ne,
      List.reverse_eq_nil_iff, List.dropWhile_eq_nil_iff]
    intro hall
    have hblank := hall c (by simp)
    rw [hc] at hblank
    cases hblank

end Expr

namespace Format

variable {T : Table}

/-! ### Settled lines -/

/-- A line that formatting leaves as it is, wherever it stands. -/
structure Settled (T : Table) (l : Bytes) : Prop extends IsLine l where
  format_eq : ∀ number, Line.format T number l = if l = [] then .blank else .canonical l

theorem settled_nil (T : Table) : Settled T [] := ⟨isLine_nil, fun _ => rfl⟩

/-- **A source text is settled**: it is parsed to a tree that is written in the same way. -/
theorem settled_source (hT : T.Coherent) {line : Int64} {src : Bytes} (hsrc : 10 ∉ src) {e : Expr}
    (h : Expr.parseAt T line src = .ok e) : Settled T (e.source T) := by
  have hparsed := parsed_of_parseAt h
  have hblank := isBlankText_source (T := T) hparsed.built
  have hne : e.source T ≠ [] := by
    intro heq
    rw [heq] at hblank
    cases hblank
  refine ⟨isLine_source hsrc h, fun number => ?_⟩
  obtain ⟨t, hparse, halike⟩ := exists_parseAt_source hT hparsed.built hparsed.hasEntry
    hparsed.validStrings number
  rw [Line.format, hblank, if_neg Bool.false_ne_true, hparse, if_neg hne, halike.source_eq T]

/-- **One line**: unless it is faulty, it becomes a settled line. -/
theorem exists_settled (hT : T.Coherent) {number : Int64} {line : Bytes} (hline : 10 ∉ line)
    (h : (Line.format T number line).isFaulty = false) :
    ∃ l, Settled T l ∧ (Line.format T number line).placed = l ++ [10] := by
  unfold Line.format at h ⊢
  split
  · exact ⟨[], settled_nil T, rfl⟩
  · rename_i hblank
    rw [if_neg hblank] at h
    cases hparse : Expr.parseAt T number line with
    | error error =>
      rw [hparse] at h
      cases h
    | ok e => exact ⟨e.source T, settled_source hT hline hparse, rfl⟩

/-! ### Files of settled lines -/

theorem fileLine_of_settled {l : Bytes} (h : Settled T l) (check : Bool) (path : Bytes)
    (number : Nat) :
    fileLine T check path l number = (⟨if check then [] else l ++ [10], []⟩, false) := by
  rw [fileLine, h.format_eq]
  by_cases hl : l = []
  · rw [if_pos hl, hl]
    rfl
  · rw [if_neg hl]
    simp only [Line.notice, Line.placed, Line.complaint, Line.isFaulty, if_true]

def fileLines (T : Table) (check : Bool) (path : Bytes) (start : Nat) (ls : List Bytes) :
    List (Output × Bool) := (ls.zipIdx start).map fun x => fileLine T check path x.1 x.2

theorem fileLines_cons (T : Table) (check : Bool) (path : Bytes) (start : Nat) (l : Bytes)
    (ls : List Bytes) : fileLines T check path start (l :: ls) =
      fileLine T check path l start :: fileLines T check path (start + 1) ls := rfl

theorem file_eq (T : Table) (check : Bool) (path content : Bytes) :
    file T check path content =
      (⟨(fileLines T check path 1 (lines content)).flatMap (·.1.stdout),
        (fileLines T check path 1 (lines content)).flatMap (·.1.stderr)⟩,
        (fileLines T check path 1 (lines content)).any (·.2)) := rfl

theorem fileLines_of_settled {ls : List Bytes} (h : ∀ l ∈ ls, Settled T l) (check : Bool)
    (path : Bytes) : ∀ start : Nat, fileLines T check path start ls =
      ls.map fun l => (⟨if check then [] else l ++ [10], []⟩, false) := by
  induction ls with
  | nil => exact fun _ => rfl
  | cons l ls ih =>
    intro start
    obtain ⟨hl, hls⟩ := List.forall_mem_cons.mp h
    rw [fileLines_cons, fileLine_of_settled hl, ih hls, List.map_cons]

/-- **A file of settled lines** is printed as it is, and there is nothing to say about it. -/
theorem file_unlines {ls : List Bytes} (hne : ls ≠ []) (h : ∀ l ∈ ls, Settled T l) (check : Bool)
    (path : Bytes) :
    file T check path (unlines ls) = (⟨if check then [] else unlines ls, []⟩, false) := by
  rw [file_eq, lines_unlines hne fun l hl => (h l hl).toIsLine, fileLines_of_settled h]
  cases check <;> simp [unlines, List.flatMap_map]

theorem exists_unlines (hT : T.Coherent) (path : Bytes) {ls : List Bytes} (hls : ∀ l ∈ ls, 10 ∉ l) :
    ∀ start : Nat, (fileLines T false path start ls).any (·.2) = false →
      ∃ ts, (∀ t ∈ ts, Settled T t) ∧ (ls ≠ [] → ts ≠ []) ∧
        (fileLines T false path start ls).flatMap (·.1.stdout) = unlines ts := by
  induction ls with
  | nil => exact fun _ _ => ⟨[], by simp, fun h => h, rfl⟩
  | cons l ls ih =>
    intro start h
    obtain ⟨hl, hls⟩ := List.forall_mem_cons.mp hls
    rw [fileLines_cons, List.any_cons, Bool.or_eq_false_iff] at h
    obtain ⟨t, ht, hplaced⟩ := exists_settled hT hl h.1
    obtain ⟨ts, hts, -, hrest⟩ := ih hls (start + 1) h.2
    refine ⟨t :: ts, List.forall_mem_cons.mpr ⟨ht, hts⟩, fun _ => List.cons_ne_nil _ _, ?_⟩
    rw [fileLines_cons, List.flatMap_cons, hrest, unlines, unlines, List.flatMap_cons, ← hplaced]
    rfl

/-- **What is printed of a file without faulty lines is a file of settled lines.** -/
theorem exists_unlines_of_file (hT : T.Coherent) {path content : Bytes}
    (h : (file T false path content).2 = false) :
    ∃ ts, ts ≠ [] ∧ (∀ t ∈ ts, Settled T t) ∧ (file T false path content).1.stdout = unlines ts := by
  obtain ⟨ts, hts, hne, hstdout⟩ :=
    exists_unlines hT path (fun _ hl => not_mem_of_mem_lines hl) 1 h
  exact ⟨ts, hne (lines_ne_nil content), hts, hstdout⟩

end Format

/-! ### The command -/

namespace Settings

variable {s : Settings}

theorem log_of_quiet (h : s.verbose = false) (time : Bytes) (lines : List Log.Line) :
    s.log time lines = .none := by
  rw [log, h, if_neg Bool.false_ne_true]

end Settings

/-- The run leaves the file as it is: it ends well, prints the file, or nothing when it only checks,
and says nothing unless it was asked to. -/
structure Outcome.LeavesAsIs (o : Outcome) (s : Settings) (file : Bytes) : Prop where
  failure : o.failure = none
  stdout : o.output.stdout = if s.check then [] else file
  stderr : s.verbose = false → o.output.stderr = []

namespace Invocation

variable {Z : Compression} {clock : Nat → Bytes} {s : Settings} {d : Directory} {T : Table}
  {path : Bytes}

theorem runFile_eq_done {time : Bytes} (h : (runFile time s T d path).failure = none) : ∃ content,
    d.read? path = some content ∧ (Format.file T s.check path content).2 = false ∧
      (runFile time s T d path).output.stdout = (Format.file T s.check path content).1.stdout := by
  unfold runFile at h ⊢
  cases hread : d.read? path with
  | none =>
    rw [hread] at h
    cases h
  | some content =>
    rw [hread] at h
    refine ⟨content, rfl, ?_, Outcome.stdout_after _ (Settings.stdout_log ..)⟩
    cases hfaulty : (Format.file T s.check path content).2 with
    | false => rfl
    | true =>
      simp only [hfaulty] at h
      cases h

theorem leavesAsIs_unlines {stdin : Bytes} (htable : (s.table d).2 = .ok T) {ls : List Bytes}
    (hne : ls ≠ []) (hls : ∀ l ∈ ls, Format.Settled T l)
    (hread : d.read? path = some (Format.unlines ls)) :
    (run Z clock d stdin (.format s (some path))).LeavesAsIs s (Format.unlines ls) := by
  have hfile : runFile (clock 1) s T d path =
      (Outcome.done (.out (if s.check then [] else Format.unlines ls))).after
        (s.log (clock 1) [⟨"formatting file", [("path", path),
          ("lines", Bytes.ofNat (Format.lines (Format.unlines ls)).length)]⟩]) := by
    rw [runFile, hread]
    simp only [Format.file_unlines hne hls]
    rfl
  rw [run, withTable_of_ok htable, hfile]
  refine ⟨rfl, ?_, fun hquiet => ?_⟩
  · rw [Outcome.stdout_after _ (s.stdout_log _ _), Outcome.stdout_after _ (s.stdout_log _ _)]
    rfl
  · rw [Settings.log_of_quiet hquiet, Settings.log_of_quiet hquiet]
    rfl

/-- **Formatting twice is formatting once.**  What is printed of a file is left as it is by every run
under the same table, wherever it is kept. -/
theorem format_idempotent {stdin : Bytes} (htable : (s.table d).2 = .ok T) (hcheck : s.check = false)
    (hformat : (run Z clock d stdin (.format s (some path))).failure = none) :
    ∀ (clock' : Nat → Bytes) (s' : Settings) (d' : Directory) (path' stdin' : Bytes),
      (s'.table d').2 = .ok T →
      d'.read? path' = some (run Z clock d stdin (.format s (some path))).output.stdout →
      (run Z clock' d' stdin' (.format s' (some path'))).LeavesAsIs s'
        (run Z clock d stdin (.format s (some path))).output.stdout := by
  intro clock' s' d' path' stdin' htable' hread
  have hprinted : (run Z clock d stdin (.format s (some path))).output.stdout =
      (runFile (clock 1) s T d path).output.stdout := by
    rw [run, withTable_of_ok htable, Outcome.stdout_after _ (s.stdout_log _ _)]
  rw [run, withTable_of_ok htable] at hformat
  obtain ⟨content, -, hfaulty, hfile⟩ := runFile_eq_done (h := hformat)
  rw [hcheck] at hfaulty hfile
  obtain ⟨ls, hne, hls, hunlines⟩ :=
    Format.exists_unlines_of_file (Settings.wellTyped_of_table htable).coherent hfaulty
  rw [hprinted, hfile, hunlines] at hread ⊢
  exact leavesAsIs_unlines htable' hne hls hread

/-- A sum in parentheses, a line of one space that does not break, and a string over a carriage return,
with a carriage return before the first line end and no line end at the end. -/
def untidy : Bytes := "(a)+b\r\n\u00A0\n\"x\ry\""

def checking : Settings := { Settings.initial with check := true }

/-- The untidy file is formatted, and what is printed is left as it is. -/
theorem format_untidy : (Settings.initial.table (textFile untidy)).2 = .ok Table.standard ∧
    (runRaw (textFile untidy) [] (.format .initial (some "e.dry"))).failure = none ∧
    ∃ printed : Bytes, printed = Bytes.of "a + b\n\n\"x\ry\"\n" ∧
      (runRaw (textFile untidy) [] (.format .initial (some "e.dry"))).output.stdout = printed ∧
      (runRaw (textFile printed) [] (.format .initial (some "e.dry"))).LeavesAsIs .initial printed ∧
      (runRaw (textFile printed) [] (.format checking (some "e.dry"))).LeavesAsIs checking printed := by
  have htable : (Settings.initial.table (textFile untidy)).2 = .ok Table.standard := rfl
  have hformat : (runRaw (textFile untidy) [] (.format .initial (some "e.dry"))).failure = none := by
    decide +kernel
  have hagain := format_idempotent htable rfl hformat
  refine ⟨htable, hformat, _, ?_, rfl, hagain (fun _ => []) .initial (textFile _) "e.dry" [] rfl rfl,
    hagain (fun _ => []) checking (textFile _) "e.dry" [] rfl rfl⟩
  decide +kernel

end Invocation

end Fixity
