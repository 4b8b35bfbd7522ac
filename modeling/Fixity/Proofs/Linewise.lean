import Fixity.Proofs.Formatted
import Fixity.Proofs.Parse.Moved
import Fixity.Proofs.Transcript

/-!
# Line by line

What is printed of a line of a file depends on the line alone, and what is said about it on the line
and its number (`Format.file_eq_pieces`): it is blank, or it has a canonical form, or it has errors,
whatever the lines around it.  The errors of a line all stand on it.

The same lines, typed one after the other, have the same canonical forms and the same errors, which
then stand on line one (`Format.typed_eq_answers`).  `Invocation.formats_linewise` puts both together,
for the runs and for the loops in which all lines share one transcript.
-/

namespace Fixity

/-! ### Errors on a line -/

def SourceError.places : SourceError → List Pos
  | .scan first more => (first :: more).map ScanError.pos
  | .parse ⟨token, .node error⟩ => token.pos :: (error.token.map Token.pos).toList
  | .parse ⟨token, _⟩ => [token.pos]

theorem SourceError.places_moved (f : Pos → Pos) (e : SourceError) :
    (e.moved f).places = e.places.map f := by
  cases e with
  | scan first more => simp [moved, places, ScanError.moved]
  | parse error =>
    obtain ⟨token, fault⟩ := error
    cases fault with
    | node error =>
      obtain ⟨node?, fault⟩ := error
      cases node? <;> rfl
    | _ => rfl

def SourceError.onLine (line : Int64) (e : SourceError) : SourceError := e.moved (Pos.onLine line)

theorem SourceError.line_of_mem_places {line : Int64} {e : SourceError} {p : Pos}
    (h : p ∈ (e.onLine line).places) : p.line = line := by
  rw [onLine, places_moved] at h
  obtain ⟨p, -, rfl⟩ := List.mem_map.mp h
  rfl

namespace Format

variable (T : Table)

/-! ### What a line is worth -/

def canonical? (l : Bytes) : Option Bytes :=
  if Text.isBlankText l then none else (Expr.parse T l).toOption.map (Expr.source T)

def error? (l : Bytes) : Option SourceError :=
  if Text.isBlankText l then none
  else match Expr.parse T l with
    | .ok _ => none
    | .error e => some e

/-- The canonical form of a line with its end; nothing for other lines. -/
def written (l : Bytes) : Bytes := (canonical? T l).elim [] (· ++ [10])

def piece (l : Bytes) : Bytes := if Text.isBlankText l then [10] else written T l

def complaints (number : Int64) (l : Bytes) : Bytes :=
  (error? T l).elim [] fun e => messageLines (e.onLine number).messages

/-- **A line is formatted under every number alike**, its errors apart, which stand on it. -/
theorem format_eq {l : Bytes} (hl : 10 ∉ l) (number : Int64) : Line.format T number l =
    if Text.isBlankText l then .blank
    else match Expr.parse T l with
      | .ok e => .canonical (e.source T)
      | .error e => .faulty (e.onLine number) := by
  rw [Line.format, Expr.parseAt_onLine T hl number 1, ← Expr.parse]
  cases Expr.parse T l with
  | ok e => simp only [bimap_ok, Expr.source_moved]
  | error e => rfl

theorem fileLine_eq {l : Bytes} (hl : 10 ∉ l) (path : Bytes) (number : Nat) :
    fileLine T false path l number =
      (⟨piece T l, complaints T (Int64.ofNat number) l⟩, (error? T l).isSome) := by
  rw [fileLine, format_eq T hl, piece, written, complaints, canonical?, error?]
  cases Text.isBlankText l <;> cases Expr.parse T l <;> rfl

theorem typedLine_eq {l : Bytes} (hl : 10 ∉ l) :
    typedLine T l = ⟨written T l, complaints T 1 l⟩ := by
  rw [typedLine, format_eq T hl, written, complaints, canonical?, error?]
  cases Text.isBlankText l <;> cases Expr.parse T l <;> rfl

/-- What is wrong with a line is what the parser says, on the line where it stands. -/
theorem parseAt_of_error? {T : Table} {l : Bytes} (hl : 10 ∉ l) {error : SourceError}
    (h : error? T l = some error) (number : Int64) :
    Expr.parseAt T number l = .error (error.onLine number) := by
  rw [Expr.parseAt_onLine T hl number 1, ← Expr.parse]
  unfold error? at h
  split at h
  · cases h
  · cases hparse : Expr.parse T l with
    | ok e =>
      rw [hparse] at h
      cases h
    | error e =>
      rw [hparse] at h
      obtain rfl := Option.some.inj h
      rfl

/-! ### Files and typed lines -/

/-- **A file is formatted line by line.** -/
theorem file_eq_pieces (path content : Bytes) : file T false path content =
    (⟨(lines content).flatMap (piece T),
      ((lines content).zipIdx 1).flatMap fun x => complaints T (Int64.ofNat x.2) x.1⟩,
      (lines content).any fun l => (error? T l).isSome) := by
  have hpieces : fileLines T false path 1 (lines content) = ((lines content).zipIdx 1).map fun x =>
      (⟨piece T x.1, complaints T (Int64.ofNat x.2) x.1⟩, (error? T x.1).isSome) := by
    refine List.map_congr_left fun x hx => ?_
    exact fileLine_eq T (not_mem_of_mem_lines (List.fst_mem_of_mem_zipIdx hx)) path x.2
  have hlines : ((lines content).zipIdx 1).map Prod.fst = lines content := List.zipIdx_map_fst 1 _
  have hstdout : (lines content).flatMap (piece T) =
      ((lines content).zipIdx 1).flatMap fun x => piece T x.1 := by
    rw [← List.flatMap_map Prod.fst, hlines]
  have hfaulty : ((lines content).any fun l => (error? T l).isSome) =
      ((lines content).zipIdx 1).any fun x => (error? T x.1).isSome := by
    conv_lhs => rw [← hlines, List.any_map]
    rfl
  rw [file_eq, hpieces, hstdout, hfaulty, List.flatMap_map, List.flatMap_map, List.any_map]
  rfl

/-- **Typed lines are answered as they are in a file**, blank ones apart.  Where nothing is typed there
is no line. -/
theorem typed_eq_answers {content : Bytes} (h : ∀ l ∈ rawLines content, l.length < lineLimit) :
    typed T content = (⟨(if content = [] then [] else lines content).flatMap (prompt ++ written T ·) ++
      prompt ++ [10], (if content = [] then [] else lines content).flatMap (complaints T 1)⟩, false) := by
  have hlines : ∀ l ∈ (if content = [] then [] else lines content), 10 ∉ l := by
    intro l hl
    split at hl
    · cases hl
    · exact not_mem_of_mem_lines hl
  rw [typed, typedLines_of_short h]
  generalize (if content = [] then [] else lines content) = ls at hlines ⊢
  have hanswers : ls.map (typedLine T) = ls.map fun l => ⟨written T l, complaints T 1 l⟩ :=
    List.map_congr_left fun l hl => typedLine_eq T (hlines l hl)
  simp only [hanswers, List.flatMap_map]

/-- A file in which there is nothing has one line, which is blank and has nothing to show. -/
theorem filterMap_typed {α : Type} {f : Bytes → Option α} (hf : f [] = none) (content : Bytes) :
    (if content = [] then [] else lines content).filterMap f = (lines content).filterMap f := by
  split
  case isTrue h =>
    have hlines : lines content = [[]] := by rw [h]; rfl
    rw [hlines, List.filterMap_nil, List.filterMap_cons_none hf, List.filterMap_nil]
  case isFalse => rfl

end Format

/-! ### The command -/

/-- What the log says before a file is formatted; nothing unless the user asks for it. -/
def Settings.formatting (s : Settings) (time path content : Bytes) : Bytes :=
  (s.log time [⟨"formatting file",
    [("path", path), ("lines", Bytes.ofNat (Format.lines content).length)]⟩]).stderr

namespace Outcome

theorem after_eq (o : Outcome) {before : Output} (h : before.stdout = []) : o.after before =
    ⟨⟨o.output.stdout, before.stderr ++ o.output.stderr⟩, o.written, o.failure⟩ := by
  have houtput : before ++ o.output = ⟨o.output.stdout, before.stderr ++ o.output.stderr⟩ :=
    congrArg (fun stdout => Output.mk (stdout ++ o.output.stdout) _) h
  rw [after, houtput]

/-- The run prints of each line what it is worth, and says of each, after what was said before, what is
wrong with it.  It ends well, or with the syntax error if a line has errors. -/
structure FormatsLinewise (o : Outcome) (T : Table) (before : Bytes) (ls : List Bytes) : Prop where
  stdout : o.output.stdout = ls.flatMap (Format.piece T)
  stderr : o.output.stderr =
    before ++ (ls.zipIdx 1).flatMap fun x => Format.complaints T (Int64.ofNat x.2) x.1
  badSyntax_iff : o.failure = some .badSyntax ↔ ∃ l ∈ ls, (Format.error? T l).isSome
  done_iff : o.failure = none ↔ ∀ l ∈ ls, Format.error? T l = none

/-- The run prompts for each line, prints its canonical form and says what is wrong with it, as if it
were the first line of a file.  It ends well after a last prompt. -/
structure AnswersLinewise (o : Outcome) (T : Table) (ls : List Bytes) : Prop where
  stdout : o.output.stdout =
    ls.flatMap (Format.prompt ++ Format.written T ·) ++ Format.prompt ++ [10]
  stderr : o.output.stderr = ls.flatMap (Format.complaints T 1)
  failure : o.failure = none

end Outcome

namespace Invocation

variable {s : Settings} {d : Directory} {path content : Bytes} (T : Table)

theorem runFile_eq (hread : d.read? path = some content) (hcheck : s.check = false) (time : Bytes) :
    runFile time s T d path = ⟨⟨(Format.file T false path content).1.stdout,
        s.formatting time path content ++ (Format.file T false path content).1.stderr⟩, none,
      if (Format.file T false path content).2 then some .badSyntax else none⟩ := by
  rw [runFile, hread, hcheck]
  exact Outcome.after_eq _ (Settings.stdout_log ..)

theorem formatsLinewise_runFile (hread : d.read? path = some content) (hcheck : s.check = false)
    (time : Bytes) : (runFile time s T d path).FormatsLinewise T (s.formatting time path content)
      (Format.lines content) := by
  rw [runFile_eq T hread hcheck, Format.file_eq_pieces]
  refine ⟨rfl, rfl, ?_, ?_⟩ <;>
  simp [Option.isSome_iff_ne_none]

theorem answersLinewise_runTyped
    (hshort : ∀ l ∈ Format.rawLines content, l.length < Format.lineLimit) :
    (runTyped T content).AnswersLinewise T (Format.typedLines content).1 := by
  rw [runTyped, Format.typed_eq_answers T hshort, Format.typedLines_of_short hshort]
  exact ⟨rfl, rfl, rfl⟩

/-- **Each line is formatted on its own, and files and typed lines agree.**  What is printed of a line
of a file depends on the line alone, and what is said about it on the line and its number, on which all
its errors stand.  A file ends with the syntax error exactly when a line has errors.  If all its lines
are short enough to be typed, they have the same canonical forms in the same order then, and the same
errors, on line one.  One transcript for all lines comes to the same in both cases. -/
theorem formats_linewise (hread : d.read? path = some content) (hcheck : s.check = false)
    (Z : Compression) (clock : Nat → Bytes) :
    (runFile (clock 1) s T d path).FormatsLinewise T (s.formatting (clock 1) path content)
      (Format.lines content) ∧
    (s.verbose = false → s.formatting (clock 1) path content = []) ∧
    (∀ l ∈ Format.lines content, ∀ number error, Format.error? T l = some error →
      Expr.parseAt T number l = .error (error.onLine number) ∧
      ∀ p ∈ (error.onLine number).places, p.line = number) ∧
    Format.pass T false path content ⟨s.formatting (clock 1) path content, false⟩ =
      ⟨(runFile (clock 1) s T d path).output.stdout,
        ⟨(runFile (clock 1) s T d path).output.stderr, false⟩,
        (runFile (clock 1) s T d path).failure.isSome⟩ ∧
    ((∀ l ∈ Format.rawLines content, l.length < Format.lineLimit) →
      (runTyped T content).AnswersLinewise T (Format.typedLines content).1 ∧
      (Format.typedLines content).1.filterMap (Format.canonical? T) =
        (Format.lines content).filterMap (Format.canonical? T) ∧
      (Format.typedLines content).1.filterMap (Format.error? T) =
        (Format.lines content).filterMap (Format.error? T)) ∧
    Format.typedPass T content .empty =
      ⟨(runTyped T content).output.stdout, ⟨(runTyped T content).output.stderr, false⟩⟩ ∧
    ((s.table d).2 = .ok T →
      (∀ stdin, run Z clock d stdin (.format s (some path)) =
        (runFile (clock 1) s T d path).after (s.log (clock 0) (s.table d).1)) ∧
      run Z clock d content (.format s none) =
        (runTyped T content).after (s.log (clock 0) (s.table d).1)) := by
  refine ⟨formatsLinewise_runFile T hread hcheck _, fun hquiet => ?_, fun l hl number error herror => ?_,
    ?_, fun hshort => ⟨answersLinewise_runTyped T hshort, ?_, ?_⟩, ?_, fun htable => ⟨fun _ => ?_, ?_⟩⟩
  · rw [Settings.formatting, Settings.log_of_quiet hquiet]
    rfl
  · exact ⟨Format.parseAt_of_error? (Format.not_mem_of_mem_lines hl) herror number,
      fun p => SourceError.line_of_mem_places⟩
  · rw [Format.pass_eq T false path content rfl, runFile_eq T hread hcheck]
    cases (Format.file T false path content).2 <;> rfl
  · rw [Format.typedLines_of_short hshort]
    exact Format.filterMap_typed rfl content
  · rw [Format.typedLines_of_short hshort]
    exact Format.filterMap_typed rfl content
  · rw [Format.typedPass_eq T content rfl]
    rfl
  · exact withTable_of_ok htable _ _
  · exact withTable_of_ok htable _ _

/-- A name in parentheses, a blank line, two faulty lines, the second with two errors, and a negation. -/
def mixed : Bytes := "(a)\n\n-\r\n$ #\n!b"

/-- The faulty lines of the mixed file do not touch the lines around them. -/
theorem formats_mixed : (textFile mixed).read? "e.dry" = some mixed ∧ Settings.initial.check = false ∧
    (∀ l ∈ Format.rawLines mixed, l.length < Format.lineLimit) ∧
    (Settings.initial.table (textFile mixed)).2 = .ok Table.standard ∧
    (runFile [] .initial Table.standard (textFile mixed) "e.dry").FormatsLinewise Table.standard
      (Settings.initial.formatting [] "e.dry" mixed) (Format.lines mixed) ∧
    (runTyped Table.standard mixed).AnswersLinewise Table.standard (Format.typedLines mixed).1 ∧
    runRaw (textFile mixed) [] (.format .initial (some "e.dry")) =
      ⟨⟨"a\n\n!b\n",
        "[line 3] Error at end: Expect expression.\n[line 4:1] Error: Unexpected character.\n" ++
          "[line 4:3] Error: Unexpected character.\n"⟩, none, some .badSyntax⟩ ∧
    runRaw (textFile mixed) mixed (.format .initial none) =
      ⟨⟨"> a\n> > > > !b\n> \n",
        "[line 1] Error at end: Expect expression.\n[line 1:1] Error: Unexpected character.\n" ++
          "[line 1:3] Error: Unexpected character.\n"⟩, none, none⟩ := by
  have hread : (textFile mixed).read? "e.dry" = some mixed := rfl
  have hshort : ∀ l ∈ Format.rawLines mixed, l.length < Format.lineLimit := by decide +kernel
  obtain ⟨hfile, -, -, -, htyped, -, -⟩ :=
    formats_linewise (s := .initial) Table.standard hread rfl Frame.raw fun _ => []
  refine ⟨hread, rfl, hshort, rfl, hfile, (htyped hshort).1, ?_, ?_⟩
  · decide +kernel
  · decide +kernel

end Invocation

end Fixity
