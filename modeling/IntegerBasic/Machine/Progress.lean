import IntegerBasic.Machine.Execution
import IntegerBasic.Program.Remaining

/-!
# Progress

The machine cannot go on forever by itself. Its potential counts the queued
messages, the attempts that its program can still make, and whether it is active.
The main statements say that the potential falls whenever the machine uses up its
cycles or delivers a message, and that an interrupt does not raise it.
-/

namespace IntegerBasic

namespace Machine

/-- How much the machine can still do by itself. An active machine counts for
two: it may yet stop with an error. -/
def potential (m : Machine) : Nat :=
  m.queue.length + (if m.control = .stopped then 0 else 2) + m.program.remaining

theorem potential_le (m : Machine) :
    m.potential ≤ m.queue.length + 2 + m.program.remaining := by
  unfold potential
  split <;> omega

theorem potential_of_active {m : Machine} (h : m.control ≠ .stopped) :
    m.potential = m.queue.length + 2 + m.program.remaining := by
  rw [potential, if_neg h]

@[simp] theorem potential_stop (m : Machine) :
    m.stop.potential = m.queue.length + m.program.remaining := rfl

@[simp] theorem program_advance (m : Machine) (n : LineNumber) :
    (m.advance n).program = m.program := by
  unfold advance
  split <;> rfl

@[simp] theorem queue_advance (m : Machine) (n : LineNumber) :
    (m.advance n).queue = m.queue := by
  unfold advance
  split <;> rfl

@[simp] theorem program_follow (m : Machine) (n : LineNumber) (f : Flow) :
    (m.follow n f).2.program = m.program := by
  cases f <;> simp [follow, stop]

@[simp] theorem queue_follow (m : Machine) (n : LineNumber) (f : Flow) :
    (m.follow n f).2.queue = m.queue := by
  cases f <;> simp [follow, stop]

@[simp] theorem program_perform (m : Machine) (n : LineNumber) (s : Statement) :
    (m.perform n s).2.program = m.program := by
  unfold perform
  split <;> simp [fail, stop]

@[simp] theorem queue_perform (m : Machine) (n : LineNumber) (s : Statement) :
    (m.perform n s).2.queue = m.queue := by
  unfold perform
  split <;> simp [fail, stop]

theorem queue_stepAt (m : Machine) (n : LineNumber) (jumped : Bool) :
    (m.stepAt n jumped).2.queue = m.queue := by
  unfold stepAt
  split
  · split <;> rfl
  · split
    · rfl
    · simp

theorem potential_stepAt_lt {m : Machine} (n : LineNumber) (jumped : Bool)
    (h : m.control ≠ .stopped) : (m.stepAt n jumped).2.potential < m.potential := by
  rw [potential_of_active h]
  have hle := m.program.remaining_increment_le n
  unfold stepAt
  split
  · split <;> simp [fail]
  · split
    · next hp =>
        rw [hp] at hle
        dsimp only at hle
        simp only [fail, potential_stop]
        omega
    · next s _ p hp =>
        have hlt : p.remaining < m.program.remaining := by
          have := m.program.remaining_increment_lt (n := n) (by rw [hp])
          rwa [hp] at this
        have := potential_le ({ m with program := p }.perform n ‹StoredLine›.statement).2
        rw [queue_perform, program_perform] at this
        dsimp only at this
        omega

/-- A step without an event, or with a message, uses up potential. -/
theorem potential_step_lt {m : Machine} {e : Option Event} {m' : Machine}
    (h : m.step = (e, m')) (he : ∀ e', e = some e' → ∃ msg, e' = .message msg) :
    m'.potential < m.potential := by
  unfold step at h
  split at h
  · cases h; obtain ⟨_, h⟩ := he _ rfl; cases h
  · cases h; obtain ⟨_, h⟩ := he _ rfl; cases h
  · next n jumped hc =>
      have := potential_stepAt_lt n jumped (m := m) (by rw [hc]; exact Control.noConfusion)
      rwa [h] at this

theorem step_ne_running {m m' : Machine} : m.step ≠ (some .running, m') := by
  intro h
  unfold step at h
  split at h
  · cases h
  · cases h
  · unfold stepAt at h
    split at h
    · split at h <;> cases h
    · split at h
      · cases h
      · unfold perform at h
        split at h
        · cases h
        · next f _ _ => cases f <;> cases h

theorem potential_run_le {cycles : Nat} {m m' : Machine}
    (h : m.run cycles = (.running, m')) : m'.potential ≤ m.potential := by
  induction cycles generalizing m with
  | zero => exact Nat.le_of_eq (congrArg potential (Prod.mk.inj h).2.symm)
  | succ cycles ih =>
      rw [run] at h
      split at h
      · next hs => cases h; exact absurd hs step_ne_running
      · next hs =>
          exact Nat.le_trans (ih h) (Nat.le_of_lt (potential_step_lt hs nofun))

theorem potential_run_message_lt {cycles : Nat} {m m' : Machine} {msg : Message}
    (h : m.run cycles = (.message msg, m')) : m'.potential < m.potential := by
  induction cycles generalizing m with
  | zero => rw [run] at h; split at h <;> cases h
  | succ cycles ih =>
      rw [run] at h
      split at h
      · next hs =>
          cases h
          exact potential_step_lt hs fun e he => ⟨msg, (Option.some.inj he).symm⟩
      · next hs => exact Nat.lt_trans (ih h) (potential_step_lt hs nofun)

/-- Using up a positive number of cycles uses up potential. -/
theorem potential_execute_running_lt {cycles : Nat} {m m' : Machine} (hc : 0 < cycles)
    (h : m.execute cycles = (.running, m')) : m'.potential < m.potential := by
  unfold execute at h
  split at h
  · cases h
  · obtain ⟨cycles, rfl⟩ := Nat.exists_eq_succ_of_ne_zero (Nat.ne_of_gt hc)
    rw [run] at h
    split at h
    · next hs => cases h; exact absurd hs step_ne_running
    · next hs => exact Nat.lt_of_le_of_lt (potential_run_le h) (potential_step_lt hs nofun)

theorem potential_execute_message_lt {cycles : Nat} {m m' : Machine} {msg : Message}
    (h : m.execute cycles = (.message msg, m')) : m'.potential < m.potential := by
  unfold execute at h
  split at h
  · next hq => cases h; simp [potential, hq]
  · exact potential_run_message_lt h

theorem potential_interrupt_le (m : Machine) : m.interrupt.potential ≤ m.potential := by
  unfold interrupt
  split
  · exact Nat.le_refl _
  · next hc => rw [potential_of_active hc]; simp [potential, post, stop]

end Machine

end IntegerBasic
