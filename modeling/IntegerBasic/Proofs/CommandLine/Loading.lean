import IntegerBasic.CommandLine
import IntegerBasic.Proofs.Line.Retyping
import IntegerBasic.Proofs.Machine.Slices
import IntegerBasic.Proofs.Text.Completed

/-!
# Loading a file and typing it in

A file loses one carriage return at the end of a line, a line that is typed loses all of them, and
no line feed is needed after the last line of a file. Still both ways lead to the same program: what
is left at the end of a line is blank, and blanks at the end of a line do not count.

The main statement is that the interpreter, given a file that it can load, leaves behind what it
leaves behind without the file when the lines of the file are typed before the rest of the input,
and then `RUN` if the program was to be run.
-/

namespace IntegerBasic

theorem Line.fits_of_append {s w : String} (h : fits (s ++ w) = true) : fits s = true := by
  have hsize := of_decide_eq_true h
  rw [String.utf8ByteSize_append] at hsize
  exact decide_eq_true (Nat.le_trans (Nat.le_add_right _ _) hsize)

theorem Program.load_of_append {p q : Program} {s w : String}
    (hw : ∀ c ∈ w.toList, Text.isBlank c = true) (h : p.load (s ++ w) = .ok q) :
    p.load s = .ok q := by
  rw [load] at h ⊢
  split at h
  · next hfits =>
      rw [Line.ofText_append s hw] at h
      rwa [if_pos (Line.fits_of_append hfits)]
  · cases h

/-- A text that fits the line buffer and holds a line to be obeyed at once. -/
structure Line.IsForNow (s : String) : Prop where
  fits : Line.fits s = true
  number : (Line.ofText s).number = none
  tokens : (Line.ofText s).tokens ≠ []

theorem Program.load_of_isForNow (p : Program) {s : String} (h : Line.IsForNow s) :
    p.load s = .error .directInFile := by
  have hempty : ¬ (Line.ofText s).isEmpty = true := fun he => h.tokens ((Line.isEmpty_iff _).1 he)
  rw [load, if_pos h.fits]
  dsimp only
  rw [if_neg hempty, if_pos ((Line.isDirect_iff _).2 h.number)]

/-- A line that is not to be obeyed at once is dealt with in the same way whether it is typed or
stands in a file; what is an error there is queued here. -/
theorem Machine.enter_eq_of_not_isForNow {m : Machine} {s : String} (hc : m.control = .stopped)
    (hs : ¬ Line.IsForNow s) :
    (m.enter s).2 =
      match m.program.load s with
      | .ok p => { m with program := p }
      | .error e => m.post (.error e) := by
  rw [enter_of_stopped hc, enterLine, Program.load]
  by_cases hf : Line.fits s = true
  · rw [if_pos hf, if_pos hf]
    dsimp only
    by_cases he : (Line.ofText s).isEmpty = true
    · rw [if_pos he, if_pos he]
      cases (Line.ofText s).number <;> rfl
    · have hdirect : ¬ (Line.ofText s).isDirect = true := fun hd =>
        hs ⟨hf, (Line.isDirect_iff _).1 hd, fun ht => he ((Line.isEmpty_iff _).2 ht)⟩
      rw [if_neg he, if_neg he, if_neg hdirect, if_neg hdirect, enterNumbered]
      cases m.program.insert (Line.ofText s) <;> rfl
  · rw [if_neg hf, if_neg hf]

theorem Machine.enter_of_load {m : Machine} {s : String} {q : Program}
    (hc : m.control = .stopped) (h : m.program.load s = .ok q) :
    (m.enter s).2 = { m with program := q } := by
  have hs : ¬ Line.IsForNow s := fun hs => by cases h.symm.trans (m.program.load_of_isForNow hs)
  rw [enter_eq_of_not_isForNow hc hs, h]

namespace CommandLine

def reading : Option String → Reading
  | some s => ⟨.line s, false⟩
  | none => ⟨.failure FileFault.notText.message, false⟩

/-- What a session leaves behind that begins with a machine, when the console gives the readings. -/
def exitOf (m : Machine) (readings : List Reading) : Exit :=
  let transcript := Session.run
    { machine := m, console := { readings, onPrint := fun _ => {}, onError := fun _ => {} } }
  conclude (String.join (transcript.log.map written)) transcript.outcome

theorem converse_eq_exitOf (m : Machine) (stdin : List UInt8) :
    converse m stdin = exitOf m ((Text.typedLines stdin).map reading) :=
  rfl

theorem exitOf_cons_line {m : Machine} (hc : m.control = .stopped) (hq : m.queue = []) (s : String)
    (rest : List Reading) :
    exitOf m (reading (some s) :: rest) = exitOf (m.enter s).2 rest := by
  have hexecute : m.execute Session.cycles = (.stopped, m) := by
    rw [Machine.execute_of_queue_nil hq, Machine.run_of_stopped hc]
  have hturn : Session.turn ⟨m, ⟨reading (some s) :: rest, fun _ => {}, fun _ => {}, 0, 0⟩, false⟩ =
      .next (.read "" :: if (m.enter s).1 then [.history s] else [])
        ⟨(m.enter s).2, ⟨rest, fun _ => {}, fun _ => {}, 0, 0⟩, false⟩ := by
    have hready : Session.ready
        ⟨m, ⟨reading (some s) :: rest, fun _ => {}, fun _ => {}, 0, 0⟩, false⟩ = m := rfl
    rw [Session.turn, hready, hexecute]
    rfl
  rw [exitOf, Session.run_of_turn_next hturn]
  cases (m.enter s).1 <;> rfl

section

variable {ls : List (Option String)} {p q : Program} {i : Nat}

theorem exists_of_loadLines_cons {l : Option String} (h : p.loadLines i (l :: ls) = .ok q) :
    ∃ s p', l = some s ∧ p.load s = .ok p' ∧ p'.loadLines (i + 1) ls = .ok q := by
  cases l with
  | none => cases h
  | some s =>
      rw [Program.loadLines] at h
      cases hs : p.load s with
      | error e =>
          rw [hs] at h
          cases h
      | ok p' =>
          rw [hs] at h
          exact ⟨s, p', rfl, hs, h⟩

theorem none_notMem_of_loadLines (h : p.loadLines i ls = .ok q) : none ∉ ls := by
  induction ls generalizing p i with
  | nil => exact List.not_mem_nil
  | cons l ls ih =>
      obtain ⟨s, p', rfl, _, h⟩ := exists_of_loadLines_cons h
      exact List.not_mem_cons_of_ne_of_not_mem (Option.some_ne_none s).symm (ih h)

/-- Typing in the lines of a file leads to the program that is in the file. -/
theorem exitOf_append_lines {m : Machine} (hc : m.control = .stopped) (hq : m.queue = [])
    (h : m.program.loadLines i ls = .ok q) (rest : List Reading) :
    exitOf m ((ls.map (Option.map Text.stripLineEnds)).map reading ++ rest) =
      exitOf { m with program := q } rest := by
  induction ls generalizing m i with
  | nil =>
      cases h
      rfl
  | cons l ls ih =>
      obtain ⟨s, p, rfl, hs, h⟩ := exists_of_loadLines_cons h
      obtain ⟨w, hw, hend⟩ := Text.exists_stripLineEnds_append s
      have hload : m.program.load (Text.stripLineEnds s ++ w) = .ok p := by rw [hw, hs]
      have henter := Machine.enter_of_load hc (Program.load_of_append
        (fun c hc => Text.isBlank_of_isLineEnd (hend c hc)) hload)
      rw [List.map_cons, List.map_cons, Option.map_some, List.cons_append,
        exitOf_cons_line hc hq, henter]
      exact ih hc hq h

end

/-- What is typed after the lines of a file: `RUN`, if the program is to be run. -/
def runBytes (run : Bool) : List UInt8 :=
  if run then "RUN\n".toUTF8.data.toList else []

theorem isCompleted_runBytes (run : Bool) : Text.IsCompleted (runBytes run) := by
  cases run <;> decide +kernel

theorem typedLines_runBytes (run : Bool) :
    Text.typedLines (runBytes run) = if run then [some "RUN"] else [] := by
  cases run <;> decide +kernel

/-- Typing `RUN` comes to what loading the program and running it at once comes to. -/
theorem exitOf_append_runBytes {m : Machine} (hc : m.control = .stopped) (hq : m.queue = [])
    (run : Bool) (rest : List Reading) :
    exitOf m ((Text.typedLines (runBytes run)).map reading ++ rest) =
      exitOf (if run then (m.enter "RUN").2 else m) rest := by
  rw [typedLines_runBytes]
  cases run with
  | true => exact exitOf_cons_line hc hq "RUN" rest
  | false => rfl

section

variable {args args' : List String} {content content' : String → Except PathFault (List UInt8)}
  {name : String} {run : Bool} {limit : Option UInt32} {bytes : List UInt8} {p : Program}

theorem start_file (hcontent : content name = .ok bytes)
    (hload : Program.ofBytes (limit.getD Program.defaultLimit) bytes = .ok p) (run : Bool) :
    start ⟨some name, run, limit⟩ content =
      .ok (if run then
        (((Machine.new (limit.getD Program.defaultLimit)).setProgram p).enter "RUN").2
      else (Machine.new (limit.getD Program.defaultLimit)).setProgram p) := by
  rw [start]
  dsimp only
  rw [hcontent, Program.ofFile, hload]

/-- The interpreter that was given a file, which it could load, and perhaps told to run it, leaves
behind what it leaves behind without a file when the lines of the file, and then perhaps `RUN`, are
typed first. -/
theorem respond_file_eq_respond_typed
    (hargs : read {} args = .ok (.session ⟨some name, run, limit⟩))
    (hargs' : read {} args' = .ok (.session ⟨none, false, limit⟩))
    (hcontent : content name = .ok bytes)
    (hload : Program.ofBytes (limit.getD Program.defaultLimit) bytes = .ok p)
    (stdin : List UInt8) :
    respond args content stdin =
      respond args' content' (Text.completed bytes ++ runBytes run ++ stdin) := by
  let new := Machine.new (limit.getD Program.defaultLimit)
  have hloadLines : new.program.loadLines 1 (Text.fileLines bytes) = .ok p := hload
  have hfile : respond args content stdin =
      exitOf (if run then ((new.setProgram p).enter "RUN").2 else new.setProgram p)
        ((Text.typedLines stdin).map reading) := by
    rw [respond, hargs]
    dsimp only
    rw [start_file hcontent hload]
    exact converse_eq_exitOf _ stdin
  have htyped : respond args' content' (Text.completed bytes ++ runBytes run ++ stdin) =
      exitOf new
        ((Text.typedLines (Text.completed bytes ++ runBytes run ++ stdin)).map reading) := by
    rw [respond, hargs']
    exact converse_eq_exitOf new _
  have hlines (rest : List Reading) :
      exitOf new
        (((Text.fileLines bytes).map (Option.map Text.stripLineEnds)).map reading ++ rest) =
        exitOf (new.setProgram p) rest := exitOf_append_lines rfl rfl hloadLines rest
  rw [hfile, htyped, List.append_assoc, Text.typedLines_append (Text.isCompleted_completed bytes),
    Text.typedLines_append (isCompleted_runBytes run),
    Text.typedLines_completed (none_notMem_of_loadLines hloadLines), List.map_append,
    List.map_append,
    hlines, exitOf_append_runBytes rfl rfl]

/-- A file with carriage returns, an empty line, a line that removes another, and a last line that
is not ended. -/
theorem respond_file_eq_respond_typed_of_bare_line :
    let bytes := "20 PRINT X\r\r\n\n10 LET X = 5\r\n30 REM é \r\n30\n40GOTO 10".toUTF8.data.toList
    let content (name : String) : Except PathFault (List UInt8) :=
      if name = "X.BAS" then .ok bytes else .error .absent
    read {} ["X.BAS", "--run", "--line-limit", "3"] = .ok (.session ⟨some "X.BAS", true, some 3⟩) ∧
      read {} ["--line-limit=3"] = .ok (.session ⟨none, false, some 3⟩) ∧
      content "X.BAS" = .ok bytes ∧ (∃ p, Program.ofBytes 3 bytes = .ok p) ∧
      respond ["X.BAS", "--run", "--line-limit", "3"] content "LIST\n".toUTF8.data.toList =
        respond ["--line-limit=3"] content
          (Text.completed bytes ++ runBytes true ++ "LIST\n".toUTF8.data.toList) := by
  intro bytes content
  have hargs : read {} ["X.BAS", "--run", "--line-limit", "3"] =
      .ok (.session ⟨some "X.BAS", true, some 3⟩) := by rfl
  have hargs' : read {} ["--line-limit=3"] = .ok (.session ⟨none, false, some 3⟩) := by rfl
  have hok : (Program.ofBytes 3 bytes).toOption.isSome = true := by decide +kernel
  obtain ⟨p, hload⟩ : ∃ p, Program.ofBytes 3 bytes = .ok p := by
    cases h : Program.ofBytes 3 bytes with
    | error f =>
        rw [h] at hok
        cases hok
    | ok p => exact ⟨p, rfl⟩
  exact ⟨hargs, hargs', rfl, ⟨p, hload⟩,
    respond_file_eq_respond_typed hargs hargs' rfl hload "LIST\n".toUTF8.data.toList⟩

end

end CommandLine

end IntegerBasic
