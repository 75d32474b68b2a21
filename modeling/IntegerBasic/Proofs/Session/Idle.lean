import IntegerBasic.Proofs.Line.Retyping
import IntegerBasic.Proofs.Machine.Failing
import IntegerBasic.Proofs.Session.Breaking

/-!
# An interrupt while nothing is running

The user of a session may interrupt while a line is read at the empty prompt, when the machine is
stopped. The machine is told of it in the next turn, after the line was entered. `quiet` is the
session with the same script in which the user never interrupts.

A line at the empty prompt `Activates` the machine if it makes it run its program or ask for a
value. The main statement is that both sessions are the same unless the user interrupts while such
a line is read; and that otherwise their logs differ, because the line is entered and what it has
started is broken off at once.
-/

namespace IntegerBasic

def Console.quiet (c : Console) : Console :=
  { c with
    readings := c.readings.map fun r => { r with interrupts := false }
    onPrint := fun n => { c.onPrint n with interrupts := false }
    onError := fun n => { c.onError n with interrupts := false } }

namespace Machine

variable {m m' : Machine} {x : String}

/-- The line makes a machine that is stopped run its program, or ask for a value. -/
inductive Activates (m : Machine) (x : String) : Prop
  | run (hf : Line.fits x = true) (hc : (Line.ofText x).command? = some .run)
      (hp : m.program.lines ≠ [])
  | question {y : String} (hf : Line.fits x = true) (hn : (Line.ofText x).number = none)
      (hc : (Line.ofText x).command? = none) (hs : (Line.ofText x).statement = .ok (.input y))

theorem Complies.control_ne_stopped_iff (h : m.Complies .run m') (hc : m.control = .stopped) :
    m'.control ≠ .stopped ↔ m.program.lines ≠ [] := by
  cases h with
  | run hn =>
      refine iff_of_true Control.noConfusion fun hnil => ?_
      rw [Program.first?, hnil] at hn
      cases hn
  | idle hn =>
      rw [Program.first?, Option.map_eq_none_iff, List.head?_eq_none_iff] at hn
      exact iff_of_false (not_not.2 hc) (not_not.2 hn)

theorem Obeys.exists_eq_input {st : Statement} (h : m.Obeys st m') (hc : m.control = .stopped)
    (hne : m'.control ≠ .stopped) : ∃ y, st = .input y := by
  cases h with
  | input => exact ⟨_, rfl⟩
  | assign | print | fault | illegal | halt => exact absurd hc hne

theorem Activates.enter (h : m.Activates x) (hc : m.control = .stopped) :
    (m.enter x).1 = true ∧ (m.enter x).2.control ≠ .stopped := by
  cases h with
  | run hf hcommand hp =>
      have hw : ∀ y l, m.control ≠ .awaiting y l := fun y l h => by cases hc.symm.trans h
      rw [enter_command hw hf hcommand]
      exact ⟨rfl, ((m.complies_obey .run).control_ne_stopped_iff hc).2 hp⟩
  | question hf hn hcommand hs =>
      have hempty : ¬ (Line.ofText x).isEmpty = true := fun h =>
        Line.tokens_ne_nil_of_statement hs ((Line.isEmpty_iff _).1 h)
      rw [enter_of_stopped hc, enterLine, if_pos hf]
      dsimp only
      rw [if_neg hempty, if_pos ((Line.isDirect_iff _).2 hn), enterDirect, hcommand]
      dsimp only
      rw [hs]
      exact ⟨rfl, Control.noConfusion⟩

/-- No other line makes a machine that is stopped do anything. -/
theorem activates_of_enter (hc : m.control = .stopped) (hne : (m.enter x).2.control ≠ .stopped) :
    m.Activates x := by
  have h := m.enters x
  generalize m.enter x = r at h hne
  cases h with
  | answered hw | invalid hw => cases hc.symm.trans hw
  | tooLong | blank | bare | refused | stored | misread => exact absurd hc hne
  | direct _ hf hn hcommand hs ho =>
      obtain ⟨y, rfl⟩ := ho.exists_eq_input hc hne
      exact .question hf hn hcommand hs
  | @command c _ _ hf hcommand ho =>
      cases c with
      | run => exact .run hf hcommand ((ho.control_ne_stopped_iff hc).1 hne)
      | list | clear | quit =>
          cases ho
          exact absurd hc hne

theorem step_ne_interrupt (m m' : Machine) :
    m.step ≠ (some (.message (.error .interrupt)), m') := by
  intro hs
  have h := failsStep_of_step hs
  generalize he : Error.interrupt = e at h
  cases h with
  | missing | exhausted => cases he
  | @fault _ _ _ f => cases f <;> cases he

theorem execute_ne_interrupt (hq : m.queue = []) (cycles : Nat) :
    (m.execute cycles).1 ≠ .message (.error .interrupt) := by
  intro h
  rw [execute_of_queue_nil hq] at h
  have hrun : m.run cycles = (.message (.error .interrupt), (m.run cycles).2) := by rw [← h]
  obtain ⟨_, y, _, _, hy⟩ := exists_step_of_run_message hrun
  exact y.step_ne_interrupt _ hy

end Machine

theorem Call.eq_error_of_entry? {c : Call} {e : Error} (h : c.entry? = some (.error e)) :
    c = .error e none := by
  unfold entry? at h
  split at h <;> cases h
  rfl

def Session.quiet (s : Session) : Session :=
  ⟨s.machine, s.console.quiet, false⟩

def Turn.quiet : Turn → Turn
  | .next es s => .next es s.quiet
  | .done es outcome machine => .done es outcome machine

namespace Session

variable {s t u : Session} {turns : List Session} {es : List Entry}

def InterruptsAtPrompt (s : Session) : Prop :=
  ∀ turns t es u, s.Passes turns t → t.turn = .next es u → u.interrupted = true →
    t.event.prompt? = some ""

/-- The user interrupts while a line is read that makes the machine run or ask. -/
def InterruptsStart (s : Session) : Prop :=
  ∃ es u x, s.turn = .next es u ∧ u.interrupted = true ∧ s.line? = some x ∧ s.asking.Activates x

theorem InterruptsAtPrompt.prompt (h : s.InterruptsAtPrompt) (ht : s.turn = .next es t)
    (hi : t.interrupted = true) : s.event.prompt? = some "" :=
  h [] s es t .start ht hi

theorem InterruptsAtPrompt.of_turn (h : s.InterruptsAtPrompt) (ht : s.turn = .next es t) :
    t.InterruptsAtPrompt :=
  fun turns u es' v hpasses => h (s :: turns) u es' v (.turn ht hpasses)

theorem interruptsAtPrompt_of_turn (ht : s.turn = .next es t)
    (hp : t.interrupted = true → s.event.prompt? = some "") (h : t.InterruptsAtPrompt) :
    s.InterruptsAtPrompt := by
  intro turns u es' v hpasses hu hv
  cases hpasses with
  | start =>
      cases ht.symm.trans hu
      exact hp hv
  | turn ht' hpasses =>
      cases ht.symm.trans ht'
      exact h _ _ _ _ hpasses hu hv

theorem IsLast.interruptsAtPrompt (h : s.IsLast) : s.InterruptsAtPrompt := by
  obtain ⟨es, outcome, machine, ht⟩ := h
  intro turns u es' v hpasses hu hv
  cases hpasses with
  | start => cases ht.symm.trans hu
  | turn ht' => cases ht.symm.trans ht'

theorem read_quiet (s : Session) (prompt : String) (take : String → List Entry × Machine)
    (m : Machine) : s.quiet.read prompt take m = (s.read prompt take m).quiet := by
  have hreadings : s.quiet.console.readings =
      s.console.readings.map fun r => { r with interrupts := false } := rfl
  rw [read, read, hreadings]
  cases s.console.readings with
  | nil => rfl
  | cons r rest =>
      rw [List.map_cons]
      dsimp only
      cases r.reply <;> rfl

theorem print_quiet (s : Session) (x : String) : s.quiet.print x = (s.print x).quiet := by
  have hfailure : (s.quiet.console.onPrint (s.console.prints + 1)).failure =
      (s.console.onPrint (s.console.prints + 1)).failure := rfl
  have hprints : s.quiet.console.prints = s.console.prints := rfl
  rw [print, print]
  dsimp only
  rw [hprints, hfailure]
  cases (s.console.onPrint (s.console.prints + 1)).failure <;> rfl

theorem report_quiet (s : Session) (e : Error) : s.quiet.report e = (s.report e).quiet := by
  have hfailure : (s.quiet.console.onError (s.console.errors + 1)).failure =
      (s.console.onError (s.console.errors + 1)).failure := rfl
  have herrors : s.quiet.console.errors = s.console.errors := rfl
  rw [report, report]
  dsimp only
  rw [herrors, hfailure]
  cases (s.console.onError (s.console.errors + 1)).failure with
  | some msg => rfl
  | none =>
      dsimp only
      split <;> rfl

theorem handle_quiet (s : Session) (ev : Event) : s.quiet.handle ev = (s.handle ev).quiet := by
  cases ev with
  | stopped => exact s.read_quiet "" _ _
  | input prompt => exact s.read_quiet prompt _ _
  | running => rfl
  | message msg =>
      cases msg with
      | print x => exact s.print_quiet x
      | list x => exact s.print_quiet (x ++ "\n")
      | error e => exact s.report_quiet e
      | quit => rfl

/-- An interrupt of a machine that is stopped makes no difference to the turn. -/
theorem turn_quiet (h : s.interrupted = true → s.machine.control = .stopped) :
    s.quiet.turn = s.turn.quiet := by
  have hready : s.quiet.ready = s.ready := by
    cases hi : s.interrupted with
    | false =>
        rw [ready, ready, hi]
        rfl
    | true => exact (ready_of_stopped (h hi)).symm
  have hquiet : s.quiet.turn = handle (quiet ⟨s.asking, s.console, false⟩) s.event := by
    rw [turn_eq_handle, asking, event, hready]
    rfl
  rw [hquiet, handle_quiet, turn_eq_handle]

theorem turn_quiet_of_turn (h : s.interrupted = true → s.machine.control = .stopped)
    (ht : s.turn = .next es t) : s.quiet.turn = .next es t.quiet := by
  rw [turn_quiet h, ht]
  rfl

theorem stopped_of_turn (hp : t.event.prompt? = some "") (ht : t.turn = .next es u)
    (hi : u.interrupted = true) (hno : ¬ t.InterruptsStart) : u.machine.control = .stopped := by
  have hc := (queue_and_control_of_empty_prompt hp).2
  cases hline : t.line? with
  | none =>
      obtain hm | hm := machine_of_turn hline ht
      · rw [hm, hc]
      · rw [hm, Machine.control_interrupt]
  | some x =>
      obtain ⟨u', ht', hm⟩ := turn_of_line hp hline
      cases ht.symm.trans ht'
      by_contra hne
      rw [hm] at hne
      exact hno ⟨_, _, x, ht, hi, hline, Machine.activates_of_enter hc hne⟩

theorem InterruptsStart.exists_turn (h : t.InterruptsStart) (hp : t.event.prompt? = some "") :
    ∃ x u, t.line? = some x ∧ t.turn = .next [.read "", .history x] u ∧ u.interrupted = true ∧
      u.machine = (t.asking.enter x).2 ∧ u.machine.control ≠ .stopped ∧ u.machine.queue = [] := by
  obtain ⟨es, u, x, ht, hi, hline, hx⟩ := h
  obtain ⟨hq, hc⟩ := queue_and_control_of_empty_prompt hp
  obtain ⟨hkept, hcontrol⟩ := hx.enter hc
  obtain ⟨u', ht', hm⟩ := turn_of_line hp hline
  rw [hkept, if_pos rfl] at ht'
  cases ht.symm.trans ht'
  rw [← hm] at hcontrol
  have hqueue := (Machine.stopped_or_of_enter hc hq x).resolve_left (hm ▸ hcontrol)
  exact ⟨x, u, hline, ht, hi, hm, hcontrol, hm ▸ hqueue⟩

/-- The sessions are the same if the user never interrupts while the machine starts. -/
theorem run_eq_quiet (hi : s.interrupted = true → s.machine.control = .stopped)
    (hs : s.InterruptsAtPrompt) (hno : ∀ turns t, s.Passes turns t → ¬ t.InterruptsStart) :
    s.run = s.quiet.run := by
  -- At the start of each turn a machine that is about to be told of an interrupt is stopped.
  obtain ⟨turns, last, hpasses, hlast⟩ := s.exists_passes
  induction hpasses with
  | start =>
      obtain ⟨es, outcome, machine, ht⟩ := hlast
      have hquiet := turn_quiet hi
      rw [ht] at hquiet
      rw [run_of_turn_done ht, run_of_turn_done hquiet]
  | @turn s t last es turns ht _ ih =>
      have hstopped : t.interrupted = true → t.machine.control = .stopped := fun hi' =>
        stopped_of_turn (hs.prompt ht hi') ht hi' (hno [] s .start)
      have hrest := ih hstopped (hs.of_turn ht) (fun turns u h => hno _ u (.turn ht h)) hlast
      rw [run_of_turn_next ht, run_of_turn_next (turn_quiet_of_turn hi ht), hrest]

theorem error_not_mem_entries_of_prompt {e : Error} {prompt : String}
    (h : s.event.prompt? = some prompt) : .error e ∉ s.entries := by
  rw [entries_of_prompt h]
  cases s.line? with
  | none => simp
  | some x => cases (s.asking.enter x).1 <;> simp

theorem event_of_error_mem_entries {e : Error} (h : .error e ∈ s.entries) :
    s.event = .message (.error e) := by
  cases he : s.event with
  | stopped | input => exact absurd h (error_not_mem_entries_of_prompt (congrArg Event.prompt? he))
  | running =>
      rw [entries_eq_filterMap_calls, calls, he] at h
      cases h
  | message msg =>
      rw [entries_eq_filterMap_calls] at h
      obtain ⟨c, hc, hentry⟩ := List.mem_filterMap.1 h
      rw [Call.eq_error_of_entry? hentry, calls, he] at hc
      cases msg with
      | print | list | quit => simp [callsFor, callsFor.printCall] at hc
      | error => rw [(Call.error.inj (List.mem_singleton.1 hc)).1]

theorem eq_of_turn_nil (ht : s.turn = .next [] t) : t = ⟨s.asking, s.console, false⟩ := by
  have hentries : s.entries = [] := by rw [entries, ht]
  cases he : s.event with
  | stopped | input =>
      rw [entries_of_prompt (congrArg Event.prompt? he)] at hentries
      cases hentries
  | running =>
      rw [turn_eq_handle, he] at ht
      cases ht
      rfl
  | message msg =>
      rw [turn_eq_handle, he] at ht
      cases msg with
      | print | list =>
          rw [handle, print] at ht
          dsimp only at ht
          split at ht <;> cases ht
      | error =>
          rw [handle, report] at ht
          dsimp only at ht
          split at ht
          · cases ht
          · split at ht <;> cases ht
      | quit => cases ht

theorem interrupt_not_mem_entries (hi : s.interrupted = false) (hq : s.machine.queue = []) :
    .error .interrupt ∉ s.entries := by
  intro hmem
  have hevent := event_of_error_mem_entries hmem
  rw [event, ready_of_not_interrupted hi] at hevent
  exact Machine.execute_ne_interrupt hq cycles hevent

theorem head?_log_run_ne (hi : s.interrupted = false) (hq : s.machine.queue = []) :
    s.run.log.head? ≠ some (.error .interrupt) := by
  obtain ⟨turns, last, hpasses, hlast⟩ := s.exists_passes
  induction hpasses with
  | start =>
      obtain ⟨es, outcome, machine, ht⟩ := hlast
      have hnot := interrupt_not_mem_entries hi hq
      rw [entries, ht] at hnot
      rw [run_of_turn_done ht]
      exact fun hhead => hnot (List.mem_of_mem_head? hhead)
  | @turn s t last es turns ht _ ih =>
      have hnot := interrupt_not_mem_entries hi hq
      rw [entries, ht] at hnot
      rw [run_of_turn_next ht]
      cases es with
      | nil =>
          obtain rfl := eq_of_turn_nil ht
          have hqueue : s.asking.queue = [] := by
            rw [asking, ready_of_not_interrupted hi, Machine.execute_of_queue_nil hq,
              Machine.queue_run, hq]
          exact ih rfl hqueue hlast
      | cons entry es =>
          exact fun hhead => hnot (List.mem_cons.2 (.inl (Option.some.inj hhead).symm))

/-- An interrupt while the machine starts breaks off what was started. -/
theorem InterruptsStart.log_run_ne (h : s.InterruptsStart) (hp : s.event.prompt? = some "")
    (hi : s.interrupted = true → s.machine.control = .stopped)
    (hr : ∀ n, (s.console.onError n).failure = none) : s.run.log ≠ s.quiet.run.log := by
  obtain ⟨x, u, _, ht, hu, _, hc, hq⟩ := h.exists_turn hp
  have hbreaks := breaksOff_of_interrupted hu hc hq fun n => by rw [onError_of_turn ht, hr n]
  obtain ⟨rest, hlog⟩ := hbreaks.log
  rw [run_of_turn_next ht, run_of_turn_next (turn_quiet_of_turn hi ht)]
  intro heq
  have hsame : u.run.log = u.quiet.run.log := List.append_cancel_left heq
  refine head?_log_run_ne (s := u.quiet) rfl hq ?_
  rw [← hsame, hlog]
  rfl

/-- One interrupt while the machine starts is enough for the logs to differ. -/
theorem log_run_ne_of_passes (hs : s.InterruptsAtPrompt)
    (hi : s.interrupted = true → s.machine.control = .stopped)
    (hr : ∀ n, (s.console.onError n).failure = none) (hpasses : s.Passes turns t)
    (h : t.InterruptsStart) : s.run.log ≠ s.quiet.run.log := by
  -- The turns before the first such interrupt are the same in both sessions.
  induction hpasses with
  | @start s =>
      obtain ⟨es, u, _, ht, hu, _⟩ := id h
      exact h.log_run_ne (hs.prompt ht hu) hi hr
  | @turn s s' t es turns ht hpasses ih =>
      by_cases hstart : s.InterruptsStart
      · obtain ⟨es, u, _, ht, hu, _⟩ := id hstart
        exact hstart.log_run_ne (hs.prompt ht hu) hi hr
      · have hstopped : s'.interrupted = true → s'.machine.control = .stopped := fun hi' =>
          stopped_of_turn (hs.prompt ht hi') ht hi' hstart
        have hrest := ih (hs.of_turn ht) hstopped (fun n => by rw [onError_of_turn ht, hr n]) h
        rw [run_of_turn_next ht, run_of_turn_next (turn_quiet_of_turn hi ht)]
        exact fun heq => hrest (List.append_cancel_left heq)

/-- A session whose user interrupts at the empty prompt only is the same as the quiet one if the
user never does so while a line is read that makes the machine run or ask. Otherwise their logs
differ: the line is entered and goes into the history, and what it has started is broken off. An
interrupt instead of a line, and an interrupt of the machine while it asks for one, change
nothing. -/
theorem run_eq_quiet_or_breaksOff (hi : s.interrupted = false) (hs : s.InterruptsAtPrompt) :
    ((∀ turns t, s.Passes turns t → ¬ t.InterruptsStart) → s.run = s.quiet.run) ∧
    ((∀ n, (s.console.onError n).failure = none) →
      ∀ turns t, s.Passes turns t → t.InterruptsStart →
        s.run.log ≠ s.quiet.run.log ∧
        ∃ x u, t.line? = some x ∧ t.asking.Activates x ∧
          t.turn = .next [.read "", .history x] u ∧ u.machine = (t.asking.enter x).2 ∧
          u.BreaksOff) ∧
    ∀ t : Session, t.event.prompt? = some "" →
      t.asking.interrupt = t.asking ∧
      (t.console.reply = .interrupt →
        ∃ u, t.turn = .next [.read ""] u ∧ u.machine = t.asking) := by
  have hstopped : s.interrupted = true → s.machine.control = .stopped := fun h => by
    cases hi.symm.trans h
  refine ⟨run_eq_quiet hstopped hs, fun hr turns t hpasses h => ?_, fun t hp => ?_⟩
  · refine ⟨log_run_ne_of_passes hs hstopped hr hpasses h, ?_⟩
    obtain ⟨es, u, x, ht, hu, hline, hx⟩ := id h
    obtain ⟨y, v, hline', ht', hv, hm, hc, hq⟩ := h.exists_turn (hs turns t es u hpasses ht hu)
    obtain rfl : x = y := Option.some.inj (hline.symm.trans hline')
    have hbreaks : v.BreaksOff := breaksOff_of_interrupted hv hc hq fun n => by
      rw [onError_of_turn ht', hpasses.onError_eq, hr n]
    exact ⟨x, v, hline, hx, ht', hm, hbreaks⟩
  · have hsame := Machine.interrupt_of_stopped (queue_and_control_of_empty_prompt hp).2
    exact ⟨hsame, fun hreply => hsame ▸ turn_of_interrupt hp hreply⟩

def interruptedRun : Session where
  machine := ((Machine.new 9).enter "10 PRINT 1").2
  console := ⟨[⟨.line "RUN", true⟩], fun _ => {}, fun _ => {}, 0, 0⟩

theorem turn_interruptedRun :
    ∃ t u, interruptedRun.turn = .next [.read "", .history "RUN"] t ∧ t.interrupted = true ∧
      t.turn = .next [.error .interrupt] u ∧ u.interrupted = false ∧ u.IsLast := by
  let c : Console := { interruptedRun.console with readings := [] }
  let t : Session := ⟨(interruptedRun.asking.enter "RUN").2, c, true⟩
  let u : Session := ⟨t.asking, { c with errors := 1 }, false⟩
  have hfirst : interruptedRun.event = .stopped := by decide +kernel
  have hkept : (interruptedRun.asking.enter "RUN").1 = true := by decide +kernel
  have hsecond : t.event = .message (.error .interrupt) := by decide +kernel
  have hthird : u.event = .stopped := by decide +kernel
  have hread : interruptedRun.turn = .next
      (.read "" :: if (interruptedRun.asking.enter "RUN").1 then [.history "RUN"] else []) t := by
    rw [turn_eq_handle, hfirst]
    rfl
  rw [hkept, if_pos rfl] at hread
  have hreport : t.turn = .next [.error .interrupt] u := by rw [turn_eq_handle, hsecond]; rfl
  have hend : u.turn = .done [.read ""] (.exit 0) u.asking := by rw [turn_eq_handle, hthird]; rfl
  exact ⟨t, u, hread, rfl, hreport, rfl, _, _, _, hend⟩

theorem interruptsAtPrompt_interruptedRun : interruptedRun.InterruptsAtPrompt := by
  obtain ⟨t, u, ht, _, hu, hquiet, hlast⟩ := turn_interruptedRun
  have hstopped : interruptedRun.event = .stopped := by decide +kernel
  refine interruptsAtPrompt_of_turn ht (fun _ => by rw [hstopped]; rfl) ?_
  refine interruptsAtPrompt_of_turn hu (fun hi => ?_) hlast.interruptsAtPrompt
  cases hquiet.symm.trans hi

theorem interruptsStart_interruptedRun : interruptedRun.InterruptsStart := by
  obtain ⟨t, _, ht, hi, _⟩ := turn_interruptedRun
  have hstopped : interruptedRun.event = .stopped := by decide +kernel
  have hline : interruptedRun.line? = some "RUN" := by rw [line?, hstopped]; rfl
  have hprogram : interruptedRun.asking.program.lines ≠ [] := by decide +kernel
  exact ⟨_, t, "RUN", ht, hi, hline, .run (by decide) (by decide +kernel) hprogram⟩

/-- The program is entered and never prints. -/
theorem run_eq_quiet_or_breaksOff_of_run :
    interruptedRun.interrupted = false ∧ interruptedRun.InterruptsAtPrompt ∧
      interruptedRun.run.log ≠ interruptedRun.quiet.run.log ∧
      ∃ x u, interruptedRun.line? = some x ∧ interruptedRun.asking.Activates x ∧
        interruptedRun.turn = .next [.read "", .history x] u ∧
        u.machine = (interruptedRun.asking.enter x).2 ∧ u.BreaksOff := by
  have hs := interruptsAtPrompt_interruptedRun
  obtain ⟨hne, hbreaks⟩ := (run_eq_quiet_or_breaksOff rfl hs).2.1 (fun _ => rfl) [] _ .start
    interruptsStart_interruptedRun
  exact ⟨rfl, hs, hne, hbreaks⟩

/-- An interrupt at the empty prompt, while nothing is running, can make a difference. -/
theorem not_forall_run_eq_quiet :
    ¬ ∀ s : Session, s.machine.control = .stopped → s.machine.queue = [] → s.interrupted = false →
      s.InterruptsAtPrompt →
      s.run.log = s.quiet.run.log ∧ s.run.outcome = s.quiet.run.outcome := by
  intro h
  have hsame := h interruptedRun (by decide +kernel) (by decide +kernel) rfl
    interruptsAtPrompt_interruptedRun
  exact log_run_ne_of_passes interruptsAtPrompt_interruptedRun nofun (fun _ => rfl) .start
    interruptsStart_interruptedRun hsame.1

end Session

end IntegerBasic
