import IntegerBasic.Proofs.Machine.Step

/-!
# What happens to the program of a machine

`Edits p s q` lists what entering the text `s` can make of the program `p`; a step changes nothing
but a count. `Operated limit m` says that the machine `m` was new and then given texts, cycles and
interrupts.

The main statement is that the lines of such a machine have every property that holds of all lines
whatever is entered, and that does not depend on their counts.
-/

namespace IntegerBasic

namespace Program

/-- What entering a text can make of a program. -/
inductive Edits (p : Program) (s : String) : Program → Prop
  | keep : Edits p s p
  | resetCounts : Edits p s p.resetCounts
  | clear : Edits p s p.clear
  | erase (n : LineNumber) : Edits p s (p.erase n)
  | insert {old : Option Line} {q : Program} (h : p.insert (Line.ofText s) = .ok (old, q)) :
      Edits p s q

def IgnoresCounts (P : LineNumber → StoredLine → Prop) : Prop :=
  ∀ n e c, P n e → P n { e with count := c }

section

variable {p q : Program} {s : String} {P : LineNumber → StoredLine → Prop}

theorem Each.edits (h : p.Each P) (he : p.Edits s q) (hcounts : IgnoresCounts P)
    (hline : ∀ n st, (Line.ofText s).number = some n → n ≠ 0 →
      (Line.ofText s).statement = .ok st → P n ⟨n, Line.ofText s, st, 0⟩) : q.Each P := by
  cases he with
  | keep => exact h
  | resetCounts => exact h.resetCounts fun n e => hcounts n e 0
  | clear => exact p.each_clear
  | erase n => exact h.erase n
  | insert hi =>
      rcases insert_eq_ok_iff.1 hi with ⟨n, st, hn, hz, hs, _, rfl⟩
      exact h.put (hline n st hn hz hs)

end

end Program

namespace Machine

theorem program_answer (m : Machine) (x : String) (l : Option LineNumber) (s : String) :
    (m.answer x l s).program = m.program := by
  rw [answer]
  split
  · rfl
  · cases l with
    | none => rfl
    | some n => exact program_advance _ n

theorem program_executeDirect (m : Machine) (s : Statement) :
    (m.executeDirect s).program = m.program := by
  have hs := m.obeys_executeDirect s
  generalize m.executeDirect s = m' at hs ⊢
  cases hs <;> rfl

theorem program_obey_run (m : Machine) : (m.obey .run).program = m.program.resetCounts := by
  rw [obey]
  dsimp only
  split <;> rfl

theorem edits_obey (m : Machine) (c : Command) (s : String) :
    m.program.Edits s (m.obey c).program := by
  cases c with
  | run =>
      rw [program_obey_run]
      exact .resetCounts
  | list | quit => exact .keep
  | clear => exact .clear

theorem edits_enterDirect (m : Machine) (l : Line) (s : String) :
    m.program.Edits s (m.enterDirect l).program := by
  rw [enterDirect]
  split
  · exact m.edits_obey _ s
  · split
    · exact .keep
    · rw [program_executeDirect]
      exact .keep

theorem edits_enterNumbered (m : Machine) (s : String) :
    m.program.Edits s (m.enterNumbered (Line.ofText s)).program := by
  rw [enterNumbered]
  split
  · exact .keep
  · next h => exact .insert h

theorem edits_enter (m : Machine) (s : String) : m.program.Edits s (m.enter s).2.program := by
  rw [enter]
  split
  · rw [program_answer]
    exact .keep
  · rw [enterLine]
    dsimp only
    split
    · split
      · split
        · exact .erase _
        · exact .keep
      · split
        · exact m.edits_enterDirect _ s
        · exact m.edits_enterNumbered s
    · exact .keep

theorem program_step (m : Machine) :
    m.step.2.program = m.program ∨ ∃ n, m.step.2.program = (m.program.increment n).2 := by
  rw [step]
  split
  · exact .inl rfl
  · exact .inl rfl
  · next n jumped _ =>
      have hs := m.stepsAt n jumped
      generalize m.stepAt n jumped = r at hs ⊢
      cases hs with
      | missing | finished => exact .inl rfl
      | exhausted | fault => exact .inr ⟨n, rfl⟩
      | follow => exact .inr ⟨n, program_follow _ _ _⟩

inductive Operated (limit : UInt32) : Machine → Prop
  | new : Operated limit (.new limit)
  | enter {m : Machine} (h : Operated limit m) (s : String) : Operated limit (m.enter s).2
  | execute {m : Machine} (h : Operated limit m) (cycles : Nat) :
      Operated limit (m.execute cycles).2
  | interrupt {m : Machine} (h : Operated limit m) : Operated limit m.interrupt

theorem program_interrupt (m : Machine) : m.interrupt.program = m.program := by
  rw [interrupt]
  split <;> rfl

section

variable {m : Machine} {P : LineNumber → StoredLine → Prop}

theorem each_step (hcounts : Program.IgnoresCounts P) (h : m.program.Each P) :
    m.step.2.program.Each P := by
  rcases m.program_step with hp | ⟨n, hp⟩
  · exact hp ▸ h
  · rw [hp]
    exact h.increment fun e _ => hcounts n e _

/-- The lines of a machine that was operated have every property of the lines that are read from
texts, if it does not depend on their counts. -/
theorem Operated.each {limit : UInt32} (h : Operated limit m) (hcounts : Program.IgnoresCounts P)
    (hlines : ∀ s n st, (Line.ofText s).number = some n → n ≠ 0 →
      (Line.ofText s).statement = .ok st → P n ⟨n, Line.ofText s, st, 0⟩) : m.program.Each P := by
  induction h with
  | new => exact Program.each_empty limit
  | @enter m _ s ih => exact ih.edits (m.edits_enter s) hcounts (hlines s)
  | execute _ cycles ih =>
      exact execute_preserves (P := fun m => m.program.Each P) (fun _ => each_step hcounts)
        (fun _ _ _ _ h => h) cycles ih
  | @interrupt m _ ih => exact m.program_interrupt ▸ ih

end

end Machine

end IntegerBasic
