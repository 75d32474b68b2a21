import IntegerBasic.Proofs.Machine.Step

/-!
# Cutting a run into slices

A run that is given its cycles in two portions comes to the same as one that is given them at
once. A portion may end anywhere: between a jump and the line it leads to, with the step that
stops the program, or before a question is asked.

The main statement says so for `execute`, which delivers queued messages first: those do not use
up cycles, and a step queues nothing.
-/

namespace IntegerBasic

namespace Machine

variable {m m' : Machine}

theorem queue_step (m : Machine) : m.step.2.queue = m.queue := by
  rw [step]
  split
  · rfl
  · rfl
  · next n jumped _ => exact queue_stepAt m n jumped

theorem queue_run (m : Machine) (cycles : Nat) : (m.run cycles).2.queue = m.queue := by
  have hstep (m' : Machine) (h : m'.queue = m.queue) : m'.step.2.queue = m.queue :=
    (queue_step m').trans h
  exact run_preserves hstep cycles rfl

theorem run_of_stopped (h : m.control = .stopped) (cycles : Nat) :
    m.run cycles = (.stopped, m) := by
  cases cycles with
  | zero => rw [run, if_pos h]
  | succ cycles =>
      have hs : m.step = (some .stopped, m) := by rw [step, h]
      exact run_succ_of_some hs cycles

/-- A run ends with an event because its cycles are used up, or because the machine is stopped, or
with the step that it comes to. -/
theorem exists_step_of_run {cycles : Nat} {ev : Event} (h : m.run cycles = (ev, m')) :
    ev = .running ∨ (ev = .stopped ∧ m'.control = .stopped) ∨
      ∃ c x, c < cycles ∧ m.run c = (.running, x) ∧ x.step = (some ev, m') := by
  induction cycles generalizing m with
  | zero =>
      rw [run] at h
      split at h
      · next hc =>
          cases h
          exact .inr (.inl ⟨rfl, hc⟩)
      · cases h
        exact .inl rfl
  | succ cycles ih =>
      cases hs : m.step with
      | mk ev' m₁ =>
          cases ev' with
          | some ev' =>
              rw [run_succ_of_some hs] at h
              cases h
              by_cases hc : m.control = .stopped
              · rw [step, hc] at hs
                cases hs
                exact .inr (.inl ⟨rfl, hc⟩)
              · exact .inr (.inr ⟨0, m, Nat.zero_lt_succ _, by rw [run, if_neg hc], hs⟩)
          | none =>
              rw [run_succ_of_none hs] at h
              obtain hev | hev | ⟨c, x, hlt, hrun, hx⟩ := ih h
              · exact .inl hev
              · exact .inr (.inl hev)
              · exact .inr (.inr ⟨c + 1, x, Nat.succ_lt_succ hlt,
                  (run_succ_of_none hs c).trans hrun, hx⟩)

/-- A run goes on with a second portion of cycles if the first is used up. -/
theorem run_add (m : Machine) (a b : Nat) :
    m.run (a + b) =
      match m.run a with
      | (.running, m') => m'.run b
      | r => r := by
  induction a generalizing m with
  | zero =>
      rw [Nat.zero_add, run]
      by_cases h : m.control = .stopped
      · rw [if_pos h]
        exact run_of_stopped h b
      · rw [if_neg h]
  | succ a ih =>
      rw [Nat.succ_add]
      cases hs : m.step with
      | mk ev m' =>
          cases ev with
          | none =>
              rw [run_succ_of_none hs, run_succ_of_none hs]
              exact ih m'
          | some ev =>
              rw [run_succ_of_some hs, run_succ_of_some hs]
              -- A step does not end with the event that would let the run go on.
              cases ev with
              | running => exact absurd hs step_ne_running
              | stopped | input | message => rfl

theorem execute_of_queue_nil (h : m.queue = []) (cycles : Nat) :
    m.execute cycles = m.run cycles := by
  rw [execute, h]

/-- Cycles given in two portions come to the same as all of them at once: either the first
portion ends with an event, which then is that of all of them, or it is used up and the machine
goes on with the second from where it is. -/
theorem execute_add (m : Machine) (a b : Nat) :
    m.execute (a + b) =
      match m.execute a with
      | (.running, m') => m'.execute b
      | r => r := by
  cases hq : m.queue with
  | cons msg rest =>
      have hx (c : Nat) : m.execute c = (.message msg, { m with queue := rest }) := by
        rw [execute, hq]
      rw [hx, hx]
  | nil =>
      rw [execute_of_queue_nil hq, execute_of_queue_nil hq, run_add]
      have hqueue := (queue_run m a).trans hq
      cases hr : m.run a with
      | mk ev m' =>
          rw [hr] at hqueue
          cases ev with
          | running => exact (execute_of_queue_nil hqueue b).symm
          | stopped | input | message => rfl

end Machine

end IntegerBasic
