import IntegerBasic.Proofs.Machine.Changes

/-!
# What every operation leaves as it is

`Program.Adds p added q` says that the program `q` has the lines of `p`, and that the count of line
`n` is greater by `added n`. Executing does no more to a program than to add the attempts that are
made on its lines, and interrupting and answering do nothing to it. A text that is entered while no
question is open concerns the line whose number it carries, unless it is a command: `CLEAR` removes
all lines, and `RUN` sets all counts to zero.

The main statement puts this together with what changes the variables.
-/

namespace IntegerBasic

/-- The stored line is the same, and its count is greater by so many. -/
structure StoredLine.Counted (added : Nat) (e f : StoredLine) : Prop where
  same : f = { e with count := f.count }
  count_eq : f.count.toNat = e.count.toNat + added

namespace Program

structure Adds (p : Program) (added : LineNumber → Nat) (q : Program) : Prop where
  limit_eq : q.limit = p.limit
  counted : ∀ n, Option.Rel (StoredLine.Counted (added n)) (p.find? n) (q.find? n)

namespace Adds

variable {p q r : Program} {a b : LineNumber → Nat}

theorem refl (p : Program) : p.Adds (fun _ => 0) p where
  limit_eq := rfl
  counted n := by
    cases p.find? n with
    | none => exact .none
    | some e => exact .some ⟨rfl, rfl⟩

theorem trans (h : p.Adds a q) (h' : q.Adds b r) : p.Adds (fun n => a n + b n) r where
  limit_eq := h'.limit_eq.trans h.limit_eq
  counted n := by
    have hq := h.counted n
    have hr := h'.counted n
    generalize p.find? n = o at hq ⊢
    generalize q.find? n = o' at hq hr
    generalize r.find? n = o'' at hr ⊢
    cases hq with
    | none =>
        cases hr
        exact .none
    | some hf =>
        cases hr with
        | some hg =>
            refine .some ⟨?_, ?_⟩
            · rw [hg.same, hf.same]
            · rw [hg.count_eq, hf.count_eq, Nat.add_assoc]

theorem increment {n : LineNumber} {e : StoredLine} (hn : p.find? n = some e)
    (hup : (countUp e.count).toNat = e.count.toNat + 1) :
    p.Adds (fun k => if n = k then 1 else 0) (p.increment n).2 where
  limit_eq := p.limit_increment n
  counted k := by
    rw [find?_increment]
    by_cases hk : n = k
    · subst hk
      rw [hn, Option.map_some, if_pos rfl, if_pos rfl]
      exact .some ⟨rfl, hup⟩
    · rw [if_neg hk]
      cases p.find? k with
      | none => exact .none
      | some f =>
          rw [Option.map_some, if_neg (Ne.symm hk)]
          exact .some ⟨rfl, rfl⟩

end Adds

end Program

namespace Machine

variable {m : Machine}

def Counts (m : Machine) (log : List Attempt) (m' : Machine) : Prop :=
  m.program.Adds (fun n => Attempt.tries n log) m'.program

namespace Counts

variable {m₁ m₂ : Machine} {log log' : List Attempt}

theorem of_program_eq (h : m₁.program = m.program) : m.Counts [] m₁ := by
  rw [Counts, h]
  exact .refl m.program

theorem trans (h : m.Counts log m₁) (h' : m₁.Counts log' m₂) : m.Counts (log ++ log') m₂ := by
  simp only [Counts, Attempt.tries_append]
  exact Program.Adds.trans h h'

end Counts

namespace Coherent

theorem counts_step (h : m.Coherent) : m.Counts m.attempt?.toList m.step.2 := by
  obtain ⟨hattempt, hp⟩ | ⟨n, jumped, e, hc, hn, hattempt, hp⟩ := m.attempt?_eq_none_or
  · rw [hattempt]
    exact .of_program_eq hp
  · have hup := h.toNat_countUp (.inl ⟨n, jumped, hc⟩) hn
    rw [hattempt, Counts, hp]
    simp only [Option.toList_some, Attempt.tries_singleton]
    exact .increment hn hup

/-- Executing counts the attempts that are made meanwhile. -/
theorem counts_execute (h : m.Coherent) (cycles : Nat) :
    m.Counts (m.executeAttempts cycles) (m.execute cycles).2 :=
  execute_relates (fun _ hm => hm.step) (fun _ _ => Counts.of_program_eq rfl) Counts.trans
    (fun _ hm => hm.counts_step) cycles h

end Coherent

/-- A text that is no `CLEAR` and no `RUN` leaves every line as it is but the one whose number it
carries. -/
theorem find?_of_enters {s : String} {r : Bool × Machine} (h : m.Enters s r)
    (hc : Line.fits s = true →
      (Line.ofText s).command? ≠ some .clear ∧ (Line.ofText s).command? ≠ some .run)
    {n : LineNumber} (hn : (Line.ofText s).number ≠ some n) :
    r.2.program.find? n = m.program.find? n := by
  cases h with
  | answered => rw [program_answer]
  | invalid | tooLong | blank | refused | misread => rfl
  | bare _ _ _ hk =>
      rw [Program.find?_erase, if_neg]
      rintro rfl
      exact hn hk
  | stored _ _ _ _ hi =>
      obtain ⟨k, st, hk, _, _, _, rfl⟩ := Program.insert_eq_ok_iff.1 hi
      rw [Program.find?_put, if_neg]
      rintro rfl
      exact hn hk
  | command _ hf hcommand ho =>
      obtain ⟨hclear, hrun⟩ := hc hf
      rw [hcommand] at hclear hrun
      cases ho with
      | run | idle => exact absurd rfl hrun
      | clear => exact absurd rfl hclear
      | list | quit => rfl
  | direct _ _ _ _ _ ho => cases ho <;> rfl

theorem Reachable.exists_drive (h : m.Reachable) :
    ∃ limit requests, (Machine.new limit).drive requests = m := by
  have hconcat (limit : UInt32) (requests : List Request) (r : Request) :
      (Machine.new limit).drive (requests ++ [r]) =
        ((Machine.new limit).drive requests).meet r := by
    rw [drive, List.foldl_append]
    rfl
  induction h with
  | new limit => exact ⟨limit, [], rfl⟩
  | enter _ s ih =>
      obtain ⟨limit, requests, rfl⟩ := ih
      exact ⟨limit, requests ++ [.enter s], hconcat _ _ _⟩
  | execute _ cycles ih =>
      obtain ⟨limit, requests, rfl⟩ := ih
      exact ⟨limit, requests ++ [.execute cycles], hconcat _ _ _⟩
  | interrupt _ ih =>
      obtain ⟨limit, requests, rfl⟩ := ih
      exact ⟨limit, requests ++ [.interrupt], hconcat _ _ _⟩
  | @setProgram _ _ p _ ih =>
      obtain ⟨limit, requests, rfl⟩ := ih
      exact ⟨limit, requests ++ [.setProgram p], hconcat _ _ _⟩

/-- Every operation leaves the lines, the counts and the variables as they are, but for what it
names. Executing adds the attempts made on a line to its count. A text that is entered while no
question is open changes the line whose number it carries; `CLEAR` removes all lines, and `RUN`
sets all counts to zero. After any history of requests that leads to the machine a variable has the
value that was stored for it last, by a `LET` or as an answer, if it was not cleared since. -/
theorem Reachable.changes_only_what_is_named (h : m.Reachable) :
    (∀ cycles, m.Counts (m.executeAttempts cycles) (m.execute cycles).2) ∧
    m.interrupt.program = m.program ∧
    (∀ x line s, m.control = .awaiting x line → (m.enter s).2.program = m.program) ∧
    (∀ s, (∀ x line, m.control ≠ .awaiting x line) →
      (Line.fits s = true → (Line.ofText s).command? = some .clear →
        ∀ n, (m.enter s).2.program.find? n = none) ∧
      (Line.fits s = true → (Line.ofText s).command? = some .run →
        ∀ n, (m.enter s).2.program.find? n =
          (m.program.find? n).map fun e => { e with count := 0 }) ∧
      ((Line.fits s = true →
          (Line.ofText s).command? ≠ some .clear ∧ (Line.ofText s).command? ≠ some .run) →
        ∀ n, (Line.ofText s).number ≠ some n →
          (m.enter s).2.program.find? n = m.program.find? n)) ∧
    (∃ limit requests, (Machine.new limit).drive requests = m) ∧
    (∀ limit requests, (Machine.new limit).drive requests = m → ∀ x,
      let changes := ((Machine.new limit).records requests).flatMap Record.changes
      (∀ v, m.vars.fetch x = .ok v ↔ Variables.Latest x v changes) ∧
      (m.vars.fetch x = .error .undefinedVariable ↔ ∀ v, ¬ Variables.Latest x v changes)) ∧
    ∀ r, m.changes r = [] → (m.meet r).vars = m.vars := by
  refine ⟨h.coherent.counts_execute, m.program_interrupt, fun x line s hc => ?_,
    fun s hw => ⟨fun hf hc n => ?_, fun hf hc n => ?_, fun hc n hn => ?_⟩, h.exists_drive,
    fun limit requests hm x => ?_, fun r hr => ?_⟩
  · rw [enter_of_awaiting hc]
    exact m.program_answer x line s
  · rw [enter_command hw hf hc]
    exact Program.find?_empty _ n
  · rw [enter_command hw hf hc, program_obey_run]
    exact m.program.find?_resetCounts n
  · exact find?_of_enters (m.enters s) hc hn
  · subst hm
    have hlatest (v : Value) :=
      fetch?_drive_new_eq_some_iff (x := x) (v := v) limit requests
    exact ⟨fun v => Variables.fetch_eq_ok_iff.trans (hlatest v),
      Variables.fetch_eq_error_iff.trans (forall_congr' fun v => not_congr (hlatest v))⟩
  · rw [vars_meet, hr]
    rfl

/-- A direct `LET` is cleared, and a `CLEAR` that is typed for an answer clears nothing. -/
theorem changes_only_what_is_named_of_question :
    let requests : List Request := [.enter "LET Y=1", .enter "CLEAR", .enter "10 LET x=2",
      .enter "20 INPUT X", .enter "RUN", .execute 9, .enter "CLEAR", .enter "7", .interrupt]
    let m := (Machine.new 5).drive requests
    let changes := ((Machine.new 5).records requests).flatMap Record.changes
    m.Reachable ∧ Variables.Latest "X" 7 changes ∧ Variables.Latest "x" 2 changes ∧
      (∀ v, ¬ Variables.Latest "Y" v changes) ∧ m.Counts [] (m.execute 3).2 ∧
      (m.enter "20").2.program.find? 10 = m.program.find? 10 := by
  intro requests m changes
  have hprogram : ((Machine.new 5).drive (requests.take 4)).Reachable :=
    ((((Reachable.new 5).enter "LET Y=1").enter "CLEAR").enter "10 LET x=2").enter "20 INPUT X"
  have hm : m.Reachable := ((((hprogram.enter "RUN").execute 9).enter "CLEAR").enter "7").interrupt
  have hstopped : m.control = .stopped := by decide +kernel
  have hw : ∀ x line, m.control ≠ .awaiting x line := fun x line hc => by
    cases hstopped.symm.trans hc
  obtain ⟨hexecute, _, _, henter, _, hfetch, _⟩ := Reachable.changes_only_what_is_named hm
  obtain ⟨hX, _⟩ := hfetch 5 requests rfl "X"
  obtain ⟨hx, _⟩ := hfetch 5 requests rfl "x"
  obtain ⟨_, hY⟩ := hfetch 5 requests rfl "Y"
  have hattempts : m.executeAttempts 3 = [] := by decide +kernel
  refine ⟨hm, (hX 7).1 (by decide +kernel), (hx 2).1 (by decide +kernel), hY.1 (by decide +kernel),
    hattempts ▸ hexecute 3, (henter "20" hw).2.2 (by decide +kernel) 10 (by decide +kernel)⟩

end Machine

end IntegerBasic
