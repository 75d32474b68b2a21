import IntegerBasic.Machine.Progress

/-!
# Sessions

A session lets a machine and a console take turns. In each turn the machine gets
some cycles, and the console does what its event asks for: it reads a line, which
is entered, it prints a text, or it shows an error. The user may interrupt at any
time; the next turn begins by telling the machine.

The console is given by a script: what it will give for each line that it is asked
for, and how it reacts to each text that is printed and to each error. After the
script the input is at its end. Every session ends, because each turn uses up a
part of the script or of what the machine can do by itself.
-/

namespace IntegerBasic

inductive Reply
  | line (text : String)
  | interrupt
  | endOfInput
  | failure (message : String)
  deriving DecidableEq, Repr

structure Reading where
  reply : Reply
  interrupts : Bool := false
  deriving DecidableEq, Repr

/-- How the console reacts to a text or an error: it may fail, and the user may
interrupt meanwhile. -/
structure Reaction where
  failure : Option String := none
  interrupts : Bool := false
  deriving DecidableEq, Repr

/-- A console with its script; the texts and the errors that it was given are
counted, the first of each being number one. -/
structure Console where
  readings : List Reading
  onPrint : Nat → Reaction
  onError : Nat → Reaction
  prints : Nat := 0
  errors : Nat := 0

/-- What the console was made to do. -/
inductive Entry
  | read (prompt : String)
  | print (text : String)
  | error (error : Error)
  | history (line : String)
  deriving DecidableEq, Repr

def Entry.isRead : Entry → Bool
  | .read _ => true
  | .print _ | .error _ | .history _ => false

/-- How a session ends: with an exit code, or because the console failed. -/
inductive Outcome
  | exit (code : Nat)
  | failed (message : String)
  deriving DecidableEq, Repr

structure Session where
  machine : Machine
  console : Console
  interrupted : Bool := false

structure Transcript where
  log : List Entry
  outcome : Outcome
  machine : Machine
  deriving DecidableEq, Repr

inductive Turn
  | next (entries : List Entry) (session : Session)
  | done (entries : List Entry) (outcome : Outcome) (machine : Machine)

def Event.prompt? : Event → Option String
  | .stopped => some ""
  | .input prompt => some prompt
  | .running | .message _ => none

namespace Session

def cycles : Nat := 5000

/-- Asks for a line. What is made of it is up to `take`; if the user interrupts instead of giving
one, the session goes on with the machine `interrupted`. -/
def read (s : Session) (prompt : String) (take : String → List Entry × Machine)
    (interrupted : Machine) : Turn :=
  match s.console.readings with
  | [] => .done [.read prompt] (.exit 0) s.machine
  | r :: rest =>
    let goOn (entries : List Entry) (m : Machine) : Turn :=
      .next (.read prompt :: entries)
        ⟨m, { s.console with readings := rest }, s.interrupted || r.interrupts⟩
    match r.reply with
    | .line t => goOn (take t).1 (take t).2
    | .interrupt => goOn [] interrupted
    | .endOfInput => .done [.read prompt] (.exit 0) s.machine
    | .failure msg => .done [.read prompt] (.failed msg) s.machine

/-- Reads a line at the empty prompt and enters it; lines worth keeping go into the history. An
interrupt is ignored. -/
def readLine (s : Session) : Turn :=
  s.read "" (fun t =>
    let entered := s.machine.enter t
    (if entered.1 then [.history t] else [], entered.2)) s.machine

/-- Reads a line that answers a question, and enters it. An interrupt is one of the machine. -/
def readAnswer (s : Session) (prompt : String) : Turn :=
  s.read prompt (fun t => ([], (s.machine.enter t).2)) s.machine.interrupt

def print (s : Session) (t : String) : Turn :=
  let count := s.console.prints + 1
  let reaction := s.console.onPrint count
  match reaction.failure with
  | some msg => .done [] (.failed msg) s.machine
  | none =>
    .next [.print t]
      ⟨s.machine, { s.console with prints := count }, s.interrupted || reaction.interrupts⟩

/-- Shows an error; a fatal one ends the session. -/
def report (s : Session) (e : Error) : Turn :=
  let count := s.console.errors + 1
  let reaction := s.console.onError count
  match reaction.failure with
  | some msg => .done [] (.failed msg) s.machine
  | none =>
    if e.isFatal then
      .done [.error e] (.exit 1) s.machine
    else
      .next [.error e]
        ⟨s.machine, { s.console with errors := count }, s.interrupted || reaction.interrupts⟩

def handle (s : Session) : Event → Turn
  | .stopped => s.readLine
  | .input prompt => s.readAnswer prompt
  | .running => .next [] s
  | .message (.print t) => s.print t
  | .message (.list t) => s.print (t ++ "\n")
  | .message (.error e) => s.report e
  | .message .quit => .done [] (.exit 0) s.machine

/-- The machine at the start of a turn, after it was told of an interrupt. -/
def ready (s : Session) : Machine :=
  if s.interrupted then s.machine.interrupt else s.machine

def turn (s : Session) : Turn :=
  let executed := s.ready.execute cycles
  handle ⟨executed.2, s.console, false⟩ executed.1

/-- What is left for a session to do: first of all the script. -/
def weight (s : Session) : Nat × Nat :=
  (s.console.readings.length, s.machine.potential)

theorem potential_ready_le (s : Session) : s.ready.potential ≤ s.machine.potential := by
  unfold ready
  split
  · exact s.machine.potential_interrupt_le
  · exact Nat.le_refl _

theorem readings_read {s s' : Session} {prompt : String} {take : String → List Entry × Machine}
    {interrupted : Machine} {entries : List Entry}
    (h : s.read prompt take interrupted = .next entries s') :
    s'.console.readings.length < s.console.readings.length := by
  unfold read at h
  split at h
  · cases h
  · next r rest hr =>
      rw [hr]
      dsimp only at h
      split at h <;> cases h <;> exact Nat.lt_succ_self _

theorem weight_print {s s' : Session} {t : String} {entries : List Entry}
    (h : s.print t = .next entries s') : s'.weight = s.weight := by
  unfold print at h
  dsimp only at h
  split at h <;> cases h
  rfl

theorem weight_report {s s' : Session} {e : Error} {entries : List Entry}
    (h : s.report e = .next entries s') : s'.weight = s.weight := by
  unfold report at h
  dsimp only at h
  split at h
  · cases h
  · split at h <;> cases h
    rfl

/-- Every turn but the last makes less of what is left to do. -/
theorem weight_turn {s s' : Session} {entries : List Entry}
    (h : s.turn = .next entries s') :
    Prod.Lex (· < ·) (· < ·) s'.weight s.weight := by
  have hr := s.potential_ready_le
  unfold turn at h
  dsimp only at h
  cases hx : s.ready.execute cycles with
  | mk event m =>
      rw [hx] at h
      dsimp only at h
      match event with
      | .stopped => exact .left _ _ (readings_read (s := ⟨m, s.console, false⟩) h)
      | .input _ => exact .left _ _ (readings_read (s := ⟨m, s.console, false⟩) h)
      | .running =>
          cases h
          exact .right _ (Nat.lt_of_lt_of_le
            (Machine.potential_execute_running_lt (by decide) hx) hr)
      | .message msg =>
          have hm := Nat.lt_of_lt_of_le (Machine.potential_execute_message_lt hx) hr
          match msg with
          | .print _ => exact weight_print h ▸ .right _ hm
          | .list _ => exact weight_print h ▸ .right _ hm
          | .error _ => exact weight_report h ▸ .right _ hm
          | .quit => cases h

def runFrom (log : Array Entry) (s : Session) : Transcript :=
  match _ : s.turn with
  | .done entries outcome machine => ⟨(log ++ entries).toList, outcome, machine⟩
  | .next entries s' => runFrom (log ++ entries) s'
termination_by s.weight
decreasing_by exact weight_turn ‹_›

def run (s : Session) : Transcript :=
  runFrom #[] s

theorem runFrom_of_turn_next {s s' : Session} {entries : List Entry} (log : Array Entry)
    (h : s.turn = .next entries s') : runFrom log s = runFrom (log ++ entries) s' := by
  rw [runFrom]
  split
  · next h' => rw [h] at h'; cases h'
  · next h' => rw [h] at h'; cases h'; rfl

theorem runFrom_of_turn_done {s : Session} {entries : List Entry} {outcome : Outcome}
    {machine : Machine} (log : Array Entry) (h : s.turn = .done entries outcome machine) :
    runFrom log s = ⟨log.toList ++ entries, outcome, machine⟩ := by
  rw [runFrom]
  split
  · next h' => rw [h] at h'; cases h'; simp
  · next h' => rw [h] at h'; cases h'

/-- What the console did before does not change how a session goes on. -/
theorem runFrom_append (log log' : Array Entry) (s : Session) :
    runFrom (log ++ log') s =
      ⟨log.toList ++ (runFrom log' s).log, (runFrom log' s).outcome,
        (runFrom log' s).machine⟩ := by
  fun_induction runFrom log' s with
  | case1 log' s entries outcome machine h =>
      rw [runFrom_of_turn_done _ h]
      simp
  | case2 log' s entries s' h ih =>
      rw [runFrom_of_turn_next _ h, ← ih]
      congr 1
      apply Array.toList_inj.1
      simp

theorem run_of_turn_next {s s' : Session} {entries : List Entry}
    (h : s.turn = .next entries s') :
    s.run = ⟨entries ++ s'.run.log, s'.run.outcome, s'.run.machine⟩ := by
  have := runFrom_append entries.toArray #[] s'
  rw [run, runFrom_of_turn_next _ h]
  simpa [run] using this

theorem run_of_turn_done {s : Session} {entries : List Entry} {outcome : Outcome}
    {machine : Machine} (h : s.turn = .done entries outcome machine) :
    s.run = ⟨entries, outcome, machine⟩ := by
  rw [run, runFrom_of_turn_done _ h]
  simp

end Session

end IntegerBasic
