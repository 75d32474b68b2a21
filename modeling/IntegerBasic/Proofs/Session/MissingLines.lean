import IntegerBasic.Proofs.Machine.Jumps
import IntegerBasic.Proofs.Program.History
import IntegerBasic.Proofs.Session.Breaking

/-!
# Missing lines in a session

A session `Comes` to another one in some turns, between which the user may interrupt at any time; it
`Begins` with a machine that is stopped or was just told to run. `FindsLines log s` says what there
is to say about missing lines in the next turn of the session `s`, if `log` holds the attempts that
were made before.

The main statement is that every turn of every session finds its lines: a line that is missing is
one to which the last attempt has jumped, and it is reported unless the user interrupts between two
turns. One start is left out, because it does not find its line: a machine that runs, loses its
lines to `CLEAR` and is told to run again goes on at the line that is gone, and halts silently.
-/

namespace IntegerBasic

namespace Session

/-- The machine is stopped, or was just told to run, while it was not running or had a line to
run. -/
inductive Begins (s : Session) : Prop
  | stopped (h : s.machine.control = .stopped)
  | told {m : Machine} {text : String} (hm : m.isRunning = false ∨ m.program.first? ≠ none)
      (hf : Line.fits text = true) (hc : (Line.ofText text).command? = some .run)
      (hs : s.machine = (m.enter text).2)

/-- A session comes to another one in some turns, and the user may interrupt before each of them.
The sessions that the turns begin with are listed. -/
inductive Comes (s₀ : Session) : List Session → Session → Prop
  | start : Comes s₀ [] s₀
  | turn {turns : List Session} {s t : Session} {es : List Entry} (h : Comes s₀ turns s)
      (ht : s.turn = .next es t) : Comes s₀ (turns ++ [s]) t
  | interrupt {turns : List Session} {s : Session} (h : Comes s₀ turns s) :
      Comes s₀ turns { s with interrupted := true }

def attempted (s : Session) : List Machine.Attempt :=
  s.ready.executeAttempts cycles

/-- In the next turn, a step is taken from the machine. -/
def StepsFrom (s : Session) (m : Machine) : Prop :=
  s.ready.queue = [] ∧ ∃ c, c < cycles ∧ s.ready.run c = (.running, m)

/-- In the next turn nothing is attempted; an error is reported, and the machine is stopped. -/
structure JustReports (s : Session) (e : Error) : Prop where
  event : s.event = .message (.error e)
  asking : s.asking = { s.machine with control := .stopped }
  attempted : s.attempted = []

/-- What there is to say about missing lines in the next turn, after some attempts. -/
structure FindsLines (log : List Machine.Attempt) (s : Session) : Prop where
  /-- A line to which no jump has led is there. -/
  found : ∀ m, m = s.machine ∨ m = s.ready ∨ s.StepsFrom m ∨ m = s.asking →
    ∀ n, m.control = .running n false → m.program.contains n = true
  /-- The program does not end for want of a line. -/
  missed : ∀ m n jumped, s.StepsFrom m → m.control = .running n jumped →
    m.program.contains n = false → jumped = true ∧
      m.step = (some (.message (.error .missingLine)), { m with control := .stopped })
  /-- A run that reports a missing line has jumped to it last of all, and has changed no count and
  no variable since then. -/
  reported : ∀ e, s.ready.queue = [] → s.event = .message (.error e) →
    e.kind = .lineNumberError → e = .missingLine ∧ ∃ before a t,
      log ++ s.attempted = before ++ [a] ∧ a.Jumps t ∧ a.machine.program.contains t = false ∧
      s.asking.program = a.machine.step.2.program ∧ s.asking.vars = a.machine.step.2.vars
  /-- A jump to a missing line ends the attempts of the turn. The line is reported in the same turn,
  or else in the next one, unless the user interrupts; nothing else has happened then. -/
  followed : ∀ a ∈ s.attempted, ∀ t, a.Jumps t → a.machine.program.contains t = false →
    (∃ before, s.attempted = before ++ [a]) ∧
    (s.event = .message (.error .missingLine) ∧
        s.asking = { a.machine.step.2 with control := .stopped } ∨
      s.event = .running ∧ ∃ s', s.turn = .next [] s' ∧ s'.machine = a.machine.step.2 ∧
        s'.JustReports .missingLine ∧ { s' with interrupted := true }.JustReports .interrupt)
  /-- Once a line was found, it can be counted, and its statement is there. -/
  counted : ∀ m n jumped, s.StepsFrom m → m.control = .running n jumped →
    m.program.contains n = true →
      (m.program.increment n).1 ≠ .error .missingLine ∧
      (m.program.increment n).2.contains n = true

variable {s₀ s t : Session} {turns : List Session} {log : List Machine.Attempt} {m : Machine}
  {n : LineNumber}

theorem led_of_begins (h : s.Begins) : Machine.Led [] s.machine := by
  cases h with
  | stopped h => exact .idle (by rw [Machine.isRunning, h])
  | @told m text hm hf hc hs =>
      rw [hs]
      by_cases hr : m.isRunning = false
      · exact Machine.led_enter [] hr text
      · have hw : ∀ x line, m.control ≠ .awaiting x line := fun x line hw =>
          hr (by rw [Machine.isRunning, hw])
        rw [Machine.enter_command hw hf hc]
        exact (m.complies_obey .run).led_of_run [] hm

theorem led_ready (h : Machine.Led log s.machine) : Machine.Led log s.ready := by
  rw [ready]
  split
  · exact Machine.led_interrupt log s.machine
  · exact h

theorem led_asking (h : Machine.Led log s.machine) :
    Machine.Led (log ++ s.attempted) s.asking :=
  (led_ready h).execute cycles

theorem led_of_turn {es : List Entry} (h : Machine.Led log s.machine) (ht : s.turn = .next es t) :
    Machine.Led (log ++ s.attempted) t.machine := by
  cases hline : s.line? with
  | none =>
      obtain hm | hm := machine_of_turn hline ht
      · rw [hm]
        exact led_asking h
      · rw [hm]
        exact Machine.led_interrupt _ _
  | some x =>
      obtain ⟨prompt, hp, _⟩ := exists_of_line hline
      obtain ⟨t', ht', hm⟩ := turn_of_line hp hline
      cases ht.symm.trans ht'
      rw [hm]
      exact Machine.led_enter _ (s.routes.idle x hline) x

/-- A machine in a session has come to its line by an attempt of the session. -/
theorem Comes.led (h : s₀.Comes turns s) (h₀ : s₀.Begins) :
    Machine.Led (turns.flatMap attempted) s.machine := by
  induction h with
  | start => exact led_of_begins h₀
  | turn _ ht ih =>
      rw [List.flatMap_append, List.flatMap_singleton]
      exact led_of_turn ih ht
  | interrupt _ ih => exact ih

theorem attempted_of_queue_nil (h : s.ready.queue = []) :
    s.attempted = s.ready.attempts cycles := by
  rw [attempted, Machine.executeAttempts, h]

theorem run_ready_of_queue_nil (h : s.ready.queue = []) :
    s.ready.run cycles = (s.event, s.asking) :=
  (Machine.execute_of_queue_nil h cycles).symm

theorem exists_led_of_stepsFrom (h : Machine.Led log s.machine) (hm : s.StepsFrom m) :
    ∃ log', Machine.Led log' m := by
  obtain ⟨_, c, _, hrun⟩ := hm
  have hled := (led_ready h).run c
  rw [hrun] at hled
  exact ⟨_, hled⟩

theorem justReports_missingLine {c : Console} (hc : m.control = .running n true)
    (hn : m.program.contains n = false) (hq : m.queue = []) :
    JustReports ⟨m, c, false⟩ .missingLine := by
  have hready : ready ⟨m, c, false⟩ = m := rfl
  have hqueue : (ready ⟨m, c, false⟩).queue = [] := hq
  obtain ⟨hattempts, hrun⟩ := Machine.run_of_missing_target hc hn cycles
  rw [if_neg (by decide)] at hrun
  have hend := (run_ready_of_queue_nil hqueue).symm.trans hrun
  exact ⟨congrArg Prod.fst hend, congrArg Prod.snd hend,
    (attempted_of_queue_nil hqueue).trans hattempts⟩

theorem justReports_interrupt (hi : s.interrupted = true) (hc : s.machine.control ≠ .stopped)
    (hq : s.machine.queue = []) : s.JustReports .interrupt := by
  obtain ⟨hattempts, hexecute⟩ := execute_ready_of_interrupted hi hc hq
  exact ⟨congrArg Prod.fst hexecute, congrArg Prod.snd hexecute, hattempts⟩

/-- A session finds its lines. Whenever the machine is to execute a line, and has not jumped to it,
the line is there; a line that is missing is reported, and this happens exactly if the last
statement that was executed has jumped to it. -/
theorem Comes.findsLines (h : s₀.Comes turns s) (h₀ : s₀.Begins) :
    s.FindsLines (turns.flatMap attempted) := by
  have hled := h.led h₀
  refine ⟨fun m hm n hc => ?_, fun m n jumped hm hc hn => ?_, fun e hq he hkind => ?_,
    fun a ha t hjumps ht => ?_, fun m n jumped _ _ hn => ⟨fun herror => ?_, ?_⟩⟩
  · obtain rfl | rfl | hm | rfl := hm
    · exact hled.contains_of_running hc
    · exact (led_ready hled).contains_of_running hc
    · obtain ⟨_, hm⟩ := exists_led_of_stepsFrom hled hm
      exact hm.contains_of_running hc
    · exact (led_asking hled).contains_of_running hc
  · cases jumped with
    | true => exact ⟨rfl, Machine.step_of_missing_target hc hn⟩
    | false =>
        obtain ⟨_, hm⟩ := exists_led_of_stepsFrom hled hm
        cases hn.symm.trans (hm.contains_of_running hc)
  · have hrun := run_ready_of_queue_nil hq
    rw [he] at hrun
    rw [attempted_of_queue_nil hq]
    exact (led_ready hled).exists_jump_of_run hrun hkind
  · cases hq : s.ready.queue with
    | cons msg rest =>
        rw [attempted, Machine.executeAttempts, hq] at ha
        cases ha
    | nil =>
        rw [attempted_of_queue_nil hq] at ha ⊢
        obtain ⟨hlast, hc, hmissing, hrun⟩ := Machine.run_of_jump_to_missing ha hjumps ht
        rw [run_ready_of_queue_nil hq] at hrun
        refine ⟨hlast, ?_⟩
        obtain hrun | hrun := hrun
        · obtain ⟨hevent, hasking⟩ := Prod.mk.inj hrun
          have hqueue : s.asking.queue = [] := by
            have hrunqueue := s.ready.queue_run cycles
            rwa [run_ready_of_queue_nil hq, hq] at hrunqueue
          rw [← hasking] at hc hmissing ⊢
          refine .inr ⟨hevent, ⟨s.asking, s.console, false⟩, ?_, rfl,
            justReports_missingLine hc hmissing hqueue,
            justReports_interrupt rfl (Machine.control_ne_stopped_of_running hc) hqueue⟩
          rw [turn_eq_handle, hevent]
          rfl
        · obtain ⟨hevent, hasking⟩ := Prod.mk.inj hrun
          exact .inl ⟨hevent, hasking⟩
  · rw [(m.program.increment_eq_iff n).1, hn] at herror
    cases herror
  · rw [Program.contains, Program.find?_increment, Option.isSome_map]
    exact hn

/-- A number is asked for in one turn, and in the next one it is compared and a line is missing. -/
theorem findsLines_of_answer :
    let m := (Machine.new 3).enterAll ["10 INPUT X", "20 IF X > 0 THEN 99"]
    let console : Console := ⟨[⟨.line "1", false⟩], fun _ => {}, fun _ => {}, 0, 0⟩
    let s₀ : Session := ⟨(m.enter "RUN").2, console, false⟩
    let s : Session := ⟨(s₀.asking.enter "1").2, { console with readings := [] }, false⟩
    s₀.Begins ∧ s₀.Comes [s₀] s ∧ s.event = .message (.error .missingLine) ∧
      ∃ before a t, s₀.attempted ++ s.attempted = before ++ [a] ∧ a.Jumps t ∧
        a.machine.program.contains t = false ∧
        s.asking.program = a.machine.step.2.program ∧ s.asking.vars = a.machine.step.2.vars := by
  intro m console s₀ s
  have hidle : m.isRunning = false := by decide +kernel
  have hbegins : s₀.Begins := .told (.inl hidle) (by decide) (by decide +kernel) rfl
  have hasks : s₀.event = .input " ? " := by decide +kernel
  obtain ⟨es, hturn⟩ : ∃ es, s₀.turn = .next es s := by
    rw [turn_eq_handle, hasks]
    exact ⟨_, rfl⟩
  have hcomes : s₀.Comes [s₀] s := .turn .start hturn
  have hevent : s.event = .message (.error .missingLine) := by decide +kernel
  have hqueue : s.ready.queue = [] := by decide +kernel
  obtain ⟨_, hjump⟩ := (hcomes.findsLines hbegins).reported _ hqueue hevent rfl
  rw [List.flatMap_singleton] at hjump
  exact ⟨hbegins, hcomes, hevent, hjump⟩

/-- A machine that is told to run while it is at a line to which no jump has led, and has no lines
any more, stays at that line. It halts silently, so that the session does not find its line. -/
theorem not_findsLines_of_told {text : String} {c : Console} (hc : m.control = .running n false)
    (hq : m.queue = []) (hp : m.program.first? = none) (hf : Line.fits text = true)
    (hrun : (Line.ofText text).command? = some .run) :
    let s : Session := ⟨(m.enter text).2, c, false⟩
    s.machine.control = .running n false ∧ s.machine.program.contains n = false ∧
      s.event = .stopped ∧ s.asking = { s.machine with control := .stopped } ∧
      ∀ log, ¬ s.FindsLines log := by
  intro s
  have hw : ∀ x line, m.control ≠ .awaiting x line := fun x line hw => by cases hc.symm.trans hw
  have hmachine : s.machine = { m with program := m.program.resetCounts } := by
    rw [← Machine.obey_run_of_first?_eq_none hp]
    exact congrArg Prod.snd (Machine.enter_command hw hf hrun)
  have hcontrol : s.machine.control = .running n false := by rw [hmachine, hc]
  have hmissing : s.machine.program.find? n = none := by
    rw [hmachine, Program.find?_resetCounts, Program.first?_eq_none_iff.1 hp]
    rfl
  have hcontains : s.machine.program.contains n = false := by
    rw [Program.contains, hmissing]
    rfl
  have hqueue : s.ready.queue = [] := by
    rw [ready_of_not_interrupted rfl, hmachine]
    exact hq
  have hend := run_ready_of_queue_nil hqueue
  rw [ready_of_not_interrupted rfl] at hend
  obtain ⟨hevent, hasking⟩ := Prod.mk.inj
    (hend.symm.trans (Machine.run_succ_of_missing_line hcontrol hmissing 4999))
  refine ⟨hcontrol, hcontains, hevent, hasking, fun log h => ?_⟩
  cases hcontains.symm.trans (h.found _ (.inl rfl) n hcontrol)

/-- The program is cleared while it runs, and then told to run: it halts at its missing line, which
is not reported, and the session ends with the input. -/
theorem not_findsLines_of_clear :
    let m := (Machine.new 3).enterAll ["10 GOTO 10", "RUN", "CLEAR"]
    let s : Session := ⟨(m.enter "RUN").2, ⟨[], fun _ => {}, fun _ => {}, 0, 0⟩, false⟩
    (Line.ofText "RUN").command? = some .run ∧ s.machine.control = .running 10 false ∧
      s.machine.program.contains 10 = false ∧ s.asking.control = .stopped ∧
      s.run.log = [.read ""] ∧ ¬ s.FindsLines [] := by
  intro m s
  have hrun : (Line.ofText "RUN").command? = some .run := by decide +kernel
  obtain ⟨hcontrol, hmissing, hevent, hasking, hnot⟩ := not_findsLines_of_told (m := m) (n := 10)
    (c := s.console) (by decide +kernel) (by decide +kernel) (by decide +kernel) (by decide) hrun
  have hturn : s.turn = .done [.read ""] (.exit 0) s.asking := by
    rw [turn_eq_handle, hevent]
    rfl
  refine ⟨hrun, hcontrol, hmissing, by rw [hasking], ?_, hnot []⟩
  rw [run_of_turn_done hturn]

end Session

end IntegerBasic
