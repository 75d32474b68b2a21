import IntegerBasic.Proofs.Machine.Agreement
import IntegerBasic.Proofs.Machine.Entering
import IntegerBasic.Proofs.Machine.Slices

/-!
# How a machine comes to a line

`Led log m` says how the machine `m` has come to the line that it is to execute next, if there is
one: either the line is one of the program, or the last one of the attempts in `log` has jumped to
it. This holds after every step, and whatever is entered while the machine does not run keeps it.

The main statements are that only a jump can make a step report that a line is missing, and that
after a jump to a missing line nothing but this report can come.
-/

namespace IntegerBasic

namespace Machine

def Attempt.Jumps (a : Attempt) (t : LineNumber) : Prop :=
  a.takesEffect = true ∧
    ∃ e, a.machine.program.find? a.line = some e ∧ e.statement.JumpsTo a.machine.vars t

/-- How a machine has come to what it does next. -/
inductive Led (log : List Attempt) (m : Machine) : Prop
  /-- It does not run. -/
  | idle (h : m.isRunning = false)
  /-- It is at a line of the program. -/
  | line {n : LineNumber} (hc : m.control = .running n false) (hn : m.program.contains n = true)
  /-- The last attempt has jumped, and neither a count nor a variable was changed since then. -/
  | jump {before : List Attempt} {a : Attempt} {t : LineNumber} (hc : m.control = .running t true)
      (hlog : log = before ++ [a]) (ha : a.Jumps t) (hp : m.program = a.machine.step.2.program)
      (hv : m.vars = a.machine.step.2.vars)

variable {m m' x : Machine} {log : List Attempt} {n t : LineNumber} {jumped : Bool} {a : Attempt}
  {c : Nat} {e : Error}

theorem control_ne_stopped_of_running (hc : m.control = .running n jumped) :
    m.control ≠ .stopped := by
  rw [hc]
  exact Control.noConfusion

theorem Led.of_queue (h : Led log m) (queue : List Message) :
    Led log { m with queue := queue } := by
  cases h with
  | idle h => exact .idle h
  | line hc hn => exact .line hc hn
  | jump hc hlog ha hp hv => exact .jump hc hlog ha hp hv

theorem Led.contains_of_running (h : Led log m) (hc : m.control = .running n false) :
    m.program.contains n = true := by
  cases h with
  | idle h =>
      rw [isRunning, hc] at h
      cases h
  | line hc' hn =>
      cases hc.symm.trans hc'
      exact hn
  | jump hc' => cases hc.symm.trans hc'

theorem led_advance (log : List Attempt) (m : Machine) (n : LineNumber) :
    Led log (m.advance n) := by
  obtain ⟨c, hc, hadvance⟩ := m.advance_eq n
  rw [hadvance]
  cases hc with
  | next hk => exact .line rfl hk
  | last => exact .idle rfl

/-- A step leads to a line of the program, or is a jump. -/
theorem led_step (log : List Attempt) (m : Machine) :
    Led (log ++ m.attempt?.toList) m.step.2 := by
  cases hc : m.control with
  | stopped | awaiting =>
      rw [step, hc]
      refine .idle ?_
      rw [isRunning, hc]
  | running n jumped =>
      have hs := m.stepsAt n jumped
      have hstep : m.step = m.stepAt n jumped := by rw [step, hc]
      rw [← hstep] at hs
      generalize hr : m.step = r at hs ⊢
      cases hs with
      | missing | finished | exhausted | fault => exact .idle rfl
      | @follow e f vars h _ hf =>
          rw [attempt?_of_find?_eq_some hc h]
          cases f with
          | next | print => exact led_advance _ _ _
          | input | halt => exact .idle rfl
          | jump t =>
              obtain ⟨hjumps, rfl⟩ := Statement.jumpsTo_of_flow hf
              refine .jump rfl rfl ⟨?_, e, h, hjumps⟩ ?_ ?_
              · rw [Attempt.takesEffect, hr]
                rfl
              · rw [hr]
              · rw [hr]

theorem Led.run (h : Led log m) (cycles : Nat) :
    Led (log ++ m.attempts cycles) (m.run cycles).2 := by
  refine run_relates (P := fun _ => True)
    (R := fun m log' m' => ∀ log, Led log m → Led (log ++ log') m')
    (fun _ _ => trivial) (fun _ queue log h => ?_) (fun h h' log hm => ?_)
    (fun m _ log _ => led_step log m) cycles trivial log h
  · rw [List.append_nil]
    exact h.of_queue queue
  · rw [← List.append_assoc]
    exact h' _ (h log hm)

theorem Led.execute (h : Led log m) (cycles : Nat) :
    Led (log ++ m.executeAttempts cycles) (m.execute cycles).2 := by
  cases hq : m.queue with
  | nil =>
      rw [executeAttempts, hq, execute_of_queue_nil hq]
      exact h.run cycles
  | cons msg rest =>
      rw [executeAttempts, hq, Machine.execute, hq, List.append_nil]
      exact h.of_queue rest

theorem Complies.led_of_run (ho : m.Complies .run m') (log : List Attempt)
    (h : m.isRunning = false ∨ m.program.first? ≠ none) : Led log m' := by
  cases ho with
  | run hn =>
      rw [← Program.first?_resetCounts] at hn
      exact .line rfl (Program.first?_eq_some_iff.1 hn).1
  | idle hn => exact .idle (h.resolve_right fun h => h hn)

theorem obey_run_of_first?_eq_none (h : m.program.first? = none) :
    m.obey .run = { m with program := m.program.resetCounts } := by
  rw [obey]
  dsimp only
  rw [Program.first?_resetCounts, h]

theorem led_enter (log : List Attempt) (h : m.isRunning = false) (s : String) :
    Led log (m.enter s).2 := by
  have henters := m.enters s
  generalize m.enter s = r at henters ⊢
  cases henters with
  | answered _ hv =>
      rw [answer, hv]
      dsimp only
      split
      · exact led_advance _ _ _
      · exact .idle rfl
  | invalid | tooLong | blank | bare | refused | stored | misread => exact .idle h
  | @command c _ _ _ _ ho =>
      cases c with
      | run => exact ho.led_of_run log (.inl h)
      | list | clear | quit =>
          cases ho
          exact .idle h
  | direct _ _ _ _ _ ho =>
      cases ho with
      | input => exact .idle rfl
      | assign | print | fault | illegal | halt => exact .idle h

theorem led_interrupt (log : List Attempt) (m : Machine) : Led log m.interrupt := by
  refine .idle ?_
  rw [interrupt]
  split
  · next hc => rw [isRunning, hc]
  · rfl

theorem contains_step (m : Machine) (k : LineNumber) :
    m.step.2.program.contains k = m.program.contains k := by
  obtain ⟨_, hp⟩ | ⟨n, _, _, _, _, _, hp⟩ := m.attempt?_eq_none_or
  · rw [hp]
  · rw [hp, Program.contains, Program.find?_increment, Option.isSome_map, Program.contains]

theorem control_of_step_eq_error (hs : m.step = (some (.message (.error e)), m'))
    (he : e.kind = .lineNumberError) :
    ∃ t, m.control = .running t true ∧ m.program.contains t = false ∧ e = .missingLine ∧
      m' = { m with control := .stopped } := by
  cases failsStep_of_step hs with
  | @missing t hc hn =>
      refine ⟨t, hc, ?_, rfl, rfl⟩
      rw [Program.contains, hn]
      rfl
  | exhausted => cases he
  | @fault _ _ _ f => cases f <;> cases he

theorem run_of_missing_target (hc : m.control = .running t true)
    (h : m.program.contains t = false) (cycles : Nat) :
    m.attempts cycles = [] ∧ m.run cycles =
      if cycles = 0 then (.running, m)
      else (.message (.error .missingLine), { m with control := .stopped }) := by
  cases cycles with
  | zero =>
      refine ⟨rfl, ?_⟩
      rw [run, if_neg (control_ne_stopped_of_running hc), if_pos rfl]
  | succ cycles =>
      have hs := step_of_missing_target hc h
      have hattempt : m.attempt? = none := by
        rw [attempt?, hc]
        dsimp only
        rw [h]
        rfl
      refine ⟨?_, ?_⟩
      · rw [attempts, hattempt, hs]
        rfl
      · rw [run_succ_of_some hs, if_neg (Nat.succ_ne_zero cycles)]

theorem run_succ_of_missing_line (hc : m.control = .running n false)
    (h : m.program.find? n = none) (cycles : Nat) :
    m.run (cycles + 1) = (.stopped, { m with control := .stopped }) := by
  have hs : m.step = (none, { m with control := .stopped }) := by
    rw [step, hc]
    dsimp only
    rw [stepAt, h]
    rfl
  rw [run_succ_of_none hs]
  exact run_of_stopped rfl cycles

theorem eq_of_attempt? (h : m.attempt? = some a) :
    a.machine = m ∧ ∃ jumped, m.control = .running a.line jumped := by
  obtain ⟨hnone, _⟩ | ⟨n, jumped, _, hc, _, hattempt, _⟩ := m.attempt?_eq_none_or
  · cases hnone.symm.trans h
  · cases hattempt.symm.trans h
    exact ⟨rfl, jumped, hc⟩

theorem Attempt.Jumps.step_eq (h : a.Jumps t) (hc : a.machine.control = .running a.line jumped) :
    a.machine.step =
      (none, { a.machine.counted a.line with control := .running t true }) := by
  obtain ⟨heffect, e, hn, hjumps⟩ := h
  have hs := a.machine.stepsAt a.line jumped
  have hstep : a.machine.step = a.machine.stepAt a.line jumped := by rw [step, hc]
  rw [Attempt.takesEffect] at heffect
  rw [← hstep] at hs
  generalize a.machine.step = r at hs heffect ⊢
  cases hs with
  | missing hn' | finished hn' => cases hn.symm.trans hn'
  | exhausted | fault => cases heffect
  | follow hn' _ hf =>
      cases hn.symm.trans hn'
      cases (hjumps.flow_eq _).symm.trans hf
      rfl

theorem attempts_add (h : m.run c = (.running, x)) (cycles : Nat) :
    m.attempts (c + cycles) = m.attempts c ++ x.attempts cycles := by
  induction c generalizing m with
  | zero =>
      cases (Prod.mk.inj h).2
      rw [Nat.zero_add]
      rfl
  | succ c ih =>
      obtain ⟨m₁, hs, _, hrun⟩ := exists_step_of_run_succ h
      rw [Nat.succ_add, attempts, attempts, hs]
      dsimp only
      rw [ih hrun, List.append_assoc]

/-- Every attempt of a run is a step to which the run comes. -/
theorem exists_run_of_mem_attempts {cycles : Nat} (h : a ∈ m.attempts cycles) :
    ∃ c rest jumped, cycles = c + (rest + 1) ∧ m.run c = (.running, a.machine) ∧
      a.machine.attempt? = some a ∧ a.machine.control = .running a.line jumped := by
  induction cycles generalizing m with
  | zero => cases h
  | succ cycles ih =>
      rw [attempts, List.mem_append] at h
      obtain h | h := h
      · have hattempt : m.attempt? = some a := Option.mem_toList.1 h
        obtain ⟨rfl, jumped, hc⟩ := eq_of_attempt? hattempt
        refine ⟨0, cycles, jumped, (Nat.zero_add _).symm, ?_, hattempt, hc⟩
        rw [run, if_neg (control_ne_stopped_of_running hc)]
      · cases hs : m.step with
        | mk ev m₁ =>
            rw [hs] at h
            cases ev with
            | some ev => cases h
            | none =>
                obtain ⟨c, rest, jumped, rfl, hrun, hattempt⟩ := ih h
                exact ⟨c + 1, rest, jumped, (Nat.succ_add _ _).symm,
                  (run_succ_of_none hs c).trans hrun, hattempt⟩

/-- A run that has jumped to a missing line attempts nothing more. It is at the line if its cycles
are used up, and otherwise it has reported the line. -/
theorem run_of_jump_to_missing {cycles : Nat} (h : a ∈ m.attempts cycles) (ha : a.Jumps t)
    (ht : a.machine.program.contains t = false) :
    (∃ before, m.attempts cycles = before ++ [a]) ∧
      a.machine.step.2.control = .running t true ∧
      a.machine.step.2.program.contains t = false ∧
      (m.run cycles = (.running, a.machine.step.2) ∨
        m.run cycles =
          (.message (.error .missingLine), { a.machine.step.2 with control := .stopped })) := by
  obtain ⟨c, rest, jumped, rfl, hrun, hattempt, hc⟩ := exists_run_of_mem_attempts h
  have hs := ha.step_eq hc
  have hcontrol : a.machine.step.2.control = .running t true := by rw [hs]
  have hmissing : a.machine.step.2.program.contains t = false := (contains_step _ t).trans ht
  obtain ⟨hattempts, hend⟩ := run_of_missing_target hcontrol hmissing rest
  have hnone : a.machine.step = (none, a.machine.step.2) := by rw [hs]
  refine ⟨⟨m.attempts c, ?_⟩, hcontrol, hmissing, ?_⟩
  · rw [attempts_add hrun, attempts, hattempt, hnone]
    dsimp only
    rw [hattempts]
    rfl
  · rw [run_add, hrun]
    dsimp only
    rw [run_succ_of_none hnone, hend]
    split
    · exact .inl rfl
    · exact .inr rfl

/-- A run that reports a missing line has jumped to it last of all, and has changed nothing since
then. -/
theorem Led.exists_jump_of_run {cycles : Nat} (h : Led log m)
    (hrun : m.run cycles = (.message (.error e), m')) (he : e.kind = .lineNumberError) :
    e = .missingLine ∧ ∃ before a t, log ++ m.attempts cycles = before ++ [a] ∧ a.Jumps t ∧
      a.machine.program.contains t = false ∧ m'.program = a.machine.step.2.program ∧
      m'.vars = a.machine.step.2.vars := by
  obtain ⟨c, x, hlt, hx, hs⟩ := exists_step_of_run_message hrun
  obtain ⟨t, hc, hmissing, rfl, rfl⟩ := control_of_step_eq_error hs he
  have hled := h.run c
  rw [hx] at hled
  obtain ⟨cycles, rfl⟩ := Nat.exists_eq_add_of_le (Nat.le_of_lt hlt)
  rw [attempts_add hx, (run_of_missing_target hc hmissing cycles).1, List.append_nil]
  cases hled with
  | idle hidle =>
      rw [isRunning, hc] at hidle
      cases hidle
  | line hc' => cases hc.symm.trans hc'
  | jump hc' hlog ha hp hv =>
      cases hc.symm.trans hc'
      refine ⟨rfl, _, _, t, hlog, ha, ?_, hp, hv⟩
      rw [← contains_step, ← hp]
      exact hmissing

end Machine

end IntegerBasic
