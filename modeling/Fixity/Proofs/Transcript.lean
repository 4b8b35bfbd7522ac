import Fixity.Command.Format
import Fixity.Report

/-!
# One transcript for all lines

The scanner and the parser report to one transcript that serves all lines, and two decisions hang on
it: nothing is parsed after errors of the scan (`Expr.parseInto`), and no line of a file is printed
after errors of any kind (`Format.Pass.next`).  A file forgets that there were errors after each faulty
line, typed lines after every line.

In both ways every line begins with a transcript that knows of no error, so that what a line adds does
not depend on the lines before it.  The loops come to what is put together from single lines
(`Format.pass_eq`, `Format.typedPass_eq`).
-/

namespace Fixity

namespace Transcript

def reportAll (t : Transcript) (messages : List Bytes) : Transcript := messages.foldl report t

theorem reportAll_eq (messages : List Bytes) : ∀ t : Transcript, t.reportAll messages =
    ⟨t.output ++ messageLines messages, t.hadError || !messages.isEmpty⟩ := by
  induction messages with
  | nil =>
    rintro ⟨output, hadError⟩
    simp [reportAll, messageLines]
  | cons message messages ih =>
    intro t
    refine (ih (t.report message)).trans ?_
    simp [report, messageLines]

end Transcript

/-- Scans and parses one text, and reports what is wrong with it.  There is no tree if there were
errors before, or if there are any. -/
def Expr.parseInto (T : Table) (line : Int64) (src : Bytes) (t : Transcript) :
    Option Expr × Transcript :=
  let scan := Scan.ofBytes line src
  let t := t.reportAll (scan.errors.map ScanError.message)
  if t.hadError then (none, t)
  else match (scan.stream.parse T).1 with
    | .ok e => (some e, t)
    | .error error => (none, t.report error.message)

/-- **With a transcript that knows of no error**, a text is parsed as on its own. -/
theorem Expr.parseInto_eq (T : Table) (line : Int64) (src : Bytes) {t : Transcript}
    (ht : t.hadError = false) : parseInto T line src t =
      match parseAt T line src with
      | .ok e => (some e, t)
      | .error error => (none, ⟨t.output ++ messageLines error.messages, true⟩) := by
  obtain ⟨output, hadError⟩ := t
  obtain rfl : hadError = false := ht
  rw [parseInto, parseAt, Transcript.reportAll_eq]
  generalize Scan.ofBytes line src = scan
  obtain ⟨stream, errors⟩ := scan
  cases errors with
  | cons first more => rfl
  | nil =>
    have hquiet : output ++ messageLines [] = output := List.append_nil output
    simp only [List.map_nil, hquiet]
    generalize (stream.parse T).1 = result
    cases result with
    | ok e => rfl
    | error error =>
      have hone : output ++ messageLines [error.message] = output ++ error.message ++ [10] := by
        rw [messageLines, List.flatMap_singleton, List.append_assoc]
      exact congrArg (fun said => (none, Transcript.mk said true)) hone.symm

namespace Format

variable (T : Table)

/-! ### Files -/

/-- What a loop over the lines of a file keeps: what was printed, the transcript, and whether a line
was faulty. -/
structure Pass where
  shown : Bytes
  transcript : Transcript
  faulty : Bool

def Pass.next (check : Bool) (path : Bytes) (p : Pass) (line : Bytes) (number : Nat) : Pass :=
  if Text.isBlankText line then
    if check then p else { p with shown := p.shown ++ "\n" }
  else
    let (tree, t) := Expr.parseInto T (Int64.ofNat number) line p.transcript
    if t.hadError then { p with transcript := t.reset, faulty := true }
    else
      let canonical := tree.elim [] (Expr.source T)
      let printed :=
        if !check then canonical ++ [10]
        else if canonical ≠ line then path ++ ":" ++ Bytes.ofNat number ++ ": " ++ canonical ++ "\n"
        else []
      { p with shown := p.shown ++ printed, transcript := t }

/-- Formats the lines of a file, with a transcript that errors are reported to. -/
def pass (check : Bool) (path content : Bytes) (t : Transcript) : Pass :=
  ((lines content).zipIdx 1).foldl (fun p x => p.next T check path x.1 x.2) ⟨[], t, false⟩

/-- **One line**: a loop without an error to forget prints and reports what the line is worth. -/
theorem Pass.next_eq (check : Bool) (path : Bytes) {p : Pass} (hp : p.transcript.hadError = false)
    (line : Bytes) (number : Nat) : p.next T check path line number =
      ⟨p.shown ++ (fileLine T check path line number).1.stdout,
        ⟨p.transcript.output ++ (fileLine T check path line number).1.stderr, false⟩,
        p.faulty || (fileLine T check path line number).2⟩ := by
  obtain ⟨shown, ⟨output, hadError⟩, faulty⟩ := p
  obtain rfl : hadError = false := hp
  rw [next, fileLine, Line.format]
  split
  · cases check <;>
      simp [Line.placed, Line.notice, Line.complaint, Line.isFaulty]
  · rw [Expr.parseInto_eq T _ _ rfl]
    cases Expr.parseAt T (Int64.ofNat number) line with
    | error error =>
      cases check <;>
        simp [Line.placed, Line.notice, Line.complaint, Line.isFaulty, Transcript.reset]
    | ok e =>
      cases check <;>
        simp [Line.placed, Line.notice, Line.complaint, Line.isFaulty, ite_not]

/-- **A file is formatted line by line**, although all lines share one transcript. -/
theorem pass_eq (check : Bool) (path content : Bytes) {t : Transcript} (ht : t.hadError = false) :
    pass T check path content t =
      ⟨(file T check path content).1.stdout,
        ⟨t.output ++ (file T check path content).1.stderr, false⟩,
        (file T check path content).2⟩ := by
  have hfold : ∀ (xs : List (Bytes × Nat)) (p : Pass), p.transcript.hadError = false →
      let results := xs.map fun x => fileLine T check path x.1 x.2
      xs.foldl (fun p x => p.next T check path x.1 x.2) p =
        ⟨p.shown ++ results.flatMap (·.1.stdout),
          ⟨p.transcript.output ++ results.flatMap (·.1.stderr), false⟩,
          p.faulty || results.any (·.2)⟩ := by
    intro xs
    induction xs with
    | nil =>
      rintro ⟨shown, ⟨output, hadError⟩, faulty⟩ hp
      obtain rfl : hadError = false := hp
      simp
    | cons x xs ih =>
      intro p hp
      rw [List.foldl_cons, Pass.next_eq T check path hp]
      refine (ih _ rfl).trans ?_
      simp [Bool.or_assoc]
  refine (hfold ((lines content).zipIdx 1) ⟨[], t, false⟩ ht).trans ?_
  simp [file]

/-! ### Typed lines -/

/-- What a loop over typed lines keeps: what was printed and the transcript. -/
structure TypedPass where
  shown : Bytes
  transcript : Transcript

def TypedPass.next (p : TypedPass) (line : Bytes) : TypedPass :=
  let shown := p.shown ++ prompt
  if Text.isBlankText line then ⟨shown, p.transcript.reset⟩
  else
    let (tree, t) := Expr.parseInto T 1 line p.transcript
    ⟨shown ++ tree.elim [] (fun e => e.source T ++ [10]), t.reset⟩

/-- Answers typed lines, with a transcript that errors are reported to. -/
def typedPass (input : Bytes) (t : Transcript) : TypedPass :=
  let p := (typedLines input).1.foldl (TypedPass.next T) ⟨[], t⟩
  { p with shown := p.shown ++ prompt ++ [10] }

theorem TypedPass.next_eq {p : TypedPass} (hp : p.transcript.hadError = false) (line : Bytes) :
    p.next T line = ⟨p.shown ++ prompt ++ (typedLine T line).stdout,
      ⟨p.transcript.output ++ (typedLine T line).stderr, false⟩⟩ := by
  obtain ⟨shown, ⟨output, hadError⟩⟩ := p
  obtain rfl : hadError = false := hp
  rw [next, typedLine, Line.format]
  split
  · simp [Line.answer, Line.complaint, Transcript.reset]
  · rw [Expr.parseInto_eq T _ _ rfl]
    cases Expr.parseAt T 1 line <;> simp [Line.answer, Line.complaint, Transcript.reset]

/-- **Typed lines are answered one by one**, although they share one transcript. -/
theorem typedPass_eq (input : Bytes) {t : Transcript} (ht : t.hadError = false) :
    typedPass T input t =
      ⟨(typed T input).1.stdout, ⟨t.output ++ (typed T input).1.stderr, false⟩⟩ := by
  have hfold : ∀ (ls : List Bytes) (p : TypedPass), p.transcript.hadError = false →
      ls.foldl (TypedPass.next T) p =
        ⟨p.shown ++ (ls.map (typedLine T)).flatMap (prompt ++ ·.stdout),
          ⟨p.transcript.output ++ (ls.map (typedLine T)).flatMap (·.stderr), false⟩⟩ := by
    intro ls
    induction ls with
    | nil =>
      rintro ⟨shown, ⟨output, hadError⟩⟩ hp
      obtain rfl : hadError = false := hp
      simp
    | cons l ls ih =>
      intro p hp
      rw [List.foldl_cons, TypedPass.next_eq T hp]
      refine (ih _ rfl).trans ?_
      simp
  rw [typedPass, hfold _ ⟨[], t⟩ ht]
  simp [typed]

end Format

end Fixity
