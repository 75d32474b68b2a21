import IntegerBasic.Proofs.Machine.Edits
import IntegerBasic.Proofs.Machine.Entering
import IntegerBasic.Proofs.Machine.Reachable
import IntegerBasic.Proofs.Machine.Slices
import Mathlib.Data.List.Induction

/-!
# Attempts and the limit

An attempt is a step of a running program on a stored line. `Proceeds m₀ log m` says that the
machine `m` comes from `m₀` by executing, interrupting and entering texts that leave the program
alone, and that `log` are the attempts made meanwhile. While a program runs, the count of a line
is the number of attempts on it, so the limit bounds them.

The main statement is that in a run no statement takes effect as often as the limit says, that the
attempt with that number reports so, and that a number of cycles is known that no run uses up.
-/

namespace IntegerBasic

namespace Program

theorem remaining_le (p : Program) : p.remaining ≤ p.size * p.limit.toNat := by
  have hsum (l : List StoredLine) : attemptsLeft p.limit l ≤ l.length * p.limit.toNat := by
    induction l with
    | nil => exact Nat.zero_le _
    | cons e l ih =>
        rw [attemptsLeft, List.length_cons, Nat.add_one_mul]
        omega
  exact hsum p.lines

theorem size_le_remaining {p : Program} (h : ∀ e ∈ p.lines, e.count.toNat < p.limit.toNat) :
    p.size ≤ p.remaining := by
  have hsum (l : List StoredLine) (hl : ∀ e ∈ l, e.count.toNat < p.limit.toNat) :
      l.length ≤ attemptsLeft p.limit l := by
    induction l with
    | nil => exact Nat.zero_le _
    | cons e l ih =>
        obtain ⟨he, hl⟩ := List.forall_mem_cons.1 hl
        have := ih hl
        rw [attemptsLeft, List.length_cons]
        omega
  exact hsum p.lines h

@[simp] theorem size_increment (p : Program) (n : LineNumber) :
    (p.increment n).2.size = p.size := by
  unfold increment
  split
  · rfl
  · exact List.length_map _

end Program

namespace Machine

structure Attempt where
  line : LineNumber
  machine : Machine

namespace Attempt

/-- The statement of the line takes effect: the step does not end with an error. -/
def takesEffect (a : Attempt) : Bool :=
  match a.machine.step.1 with
  | some (.message (.error _)) => false
  | _ => true

def tries (n : LineNumber) (log : List Attempt) : Nat :=
  log.countP fun a => a.line = n

theorem tries_singleton (n : LineNumber) (a : Attempt) :
    tries n [a] = if a.line = n then 1 else 0 := by
  by_cases h : a.line = n <;> simp [tries, h]

theorem tries_append (n : LineNumber) (before after : List Attempt) :
    tries n (before ++ after) = tries n before + tries n after :=
  List.countP_append

theorem tries_concat (n : LineNumber) (log : List Attempt) (a : Attempt) :
    tries n (log ++ [a]) = tries n log + if a.line = n then 1 else 0 := by
  rw [tries_append, tries_singleton]

end Attempt

/-- The attempt that the next step of the machine is, if it is one. -/
def attempt? (m : Machine) : Option Attempt :=
  match m.control with
  | .running n _ => if m.program.contains n then some ⟨n, m⟩ else none
  | .stopped | .awaiting _ _ => none

def attempts : Nat → Machine → List Attempt
  | 0, _ => []
  | cycles + 1, m =>
    m.attempt?.toList ++
      match m.step with
      | (some _, _) => []
      | (none, m) => m.attempts cycles

/-- The attempts that are made when so many cycles are given: none, if a message is delivered. -/
def executeAttempts (m : Machine) (cycles : Nat) : List Attempt :=
  match m.queue with
  | _ :: _ => []
  | [] => m.attempts cycles

/-- What a machine comes to, with the attempts that are made meanwhile, as long as the program is
left alone: no line is stored or removed, and no count is reset. -/
inductive Proceeds (m₀ : Machine) : List Attempt → Machine → Prop
  | start : Proceeds m₀ [] m₀
  | execute {log : List Attempt} {m : Machine} (h : Proceeds m₀ log m) (cycles : Nat) :
      Proceeds m₀ (log ++ m.executeAttempts cycles) (m.execute cycles).2
  | enter {log : List Attempt} {m : Machine} (h : Proceeds m₀ log m) {s : String}
      (hp : (m.enter s).2.program = m.program) : Proceeds m₀ log (m.enter s).2
  | interrupt {log : List Attempt} {m : Machine} (h : Proceeds m₀ log m) :
      Proceeds m₀ log m.interrupt

variable {m m₀ m' : Machine} {limit : UInt32} {log : List Attempt} {n : LineNumber}

section

variable {jumped : Bool} (hc : m.control = .running n jumped)

include hc

theorem attempt?_of_find?_eq_some {e : StoredLine} (hn : m.program.find? n = some e) :
    m.attempt? = some ⟨n, m⟩ := by
  rw [attempt?, hc]
  dsimp only
  rw [Program.contains, hn]
  rfl

theorem attempt?_of_find?_eq_none (hn : m.program.find? n = none) : m.attempt? = none := by
  rw [attempt?, hc]
  dsimp only
  rw [Program.contains, hn]
  rfl

end

section

variable {P : Machine → Prop} {R : Machine → List Attempt → Machine → Prop}
  (hP : ∀ m, P m → P m.step.2) (hqueue : ∀ m queue, R m [] { m with queue := queue })
  (htrans : ∀ {m₁ m₂ m₃ log log'}, R m₁ log m₂ → R m₂ log' m₃ → R m₁ (log ++ log') m₃)
  (hstep : ∀ m, P m → R m m.attempt?.toList m.step.2)

include hP hqueue htrans hstep

/-- What relates a machine to the next one by the attempt between them relates it to what it comes
to in a run by the attempts of the run. -/
theorem run_relates (cycles : Nat) (h : P m) : R m (m.attempts cycles) (m.run cycles).2 := by
  induction cycles generalizing m with
  | zero => exact hqueue m m.queue
  | succ cycles ih =>
      have hm := hP m h
      have hr := hstep m h
      rw [attempts]
      cases hs : m.step with
      | mk ev m' =>
          rw [hs] at hm hr
          cases ev with
          | some ev =>
              rw [run_succ_of_some hs]
              exact htrans hr (hqueue m' m'.queue)
          | none =>
              rw [run_succ_of_none hs]
              exact htrans hr (ih hm)

theorem execute_relates (cycles : Nat) (h : P m) :
    R m (m.executeAttempts cycles) (m.execute cycles).2 := by
  cases hq : m.queue with
  | nil =>
      rw [executeAttempts, hq, execute_of_queue_nil hq]
      exact run_relates hP hqueue htrans hstep cycles h
  | cons msg rest =>
      rw [executeAttempts, hq, Machine.execute, hq]
      exact hqueue m rest

end

theorem Proceeds.reachable (h : m₀.Proceeds log m) (h₀ : m₀.Reachable) : m.Reachable := by
  induction h with
  | start => exact h₀
  | execute _ cycles ih => exact ih.execute cycles
  | enter _ _ ih => exact ih.enter _
  | interrupt _ ih => exact ih.interrupt

theorem program_stepAt {e : StoredLine} (h : m.program.find? n = some e) (jumped : Bool) :
    (m.stepAt n jumped).2.program = (m.program.increment n).2 := by
  have hs := m.stepsAt n jumped
  generalize m.stepAt n jumped = r at hs ⊢
  cases hs with
  | missing h' | finished h' => cases h.symm.trans h'
  | exhausted | fault => rfl
  | follow => exact program_follow _ _ _

/-- A step is an attempt on a stored line, which is counted, or leaves the program as it is. -/
theorem attempt?_eq_none_or (m : Machine) :
    m.attempt? = none ∧ m.step.2.program = m.program ∨
      ∃ n jumped e, m.control = .running n jumped ∧ m.program.find? n = some e ∧
        m.attempt? = some ⟨n, m⟩ ∧ m.step.2.program = (m.program.increment n).2 := by
  cases hc : m.control with
  | stopped | awaiting =>
      rw [step, attempt?, hc]
      exact .inl ⟨rfl, rfl⟩
  | running n jumped =>
      have hs : m.step = m.stepAt n jumped := by rw [step, hc]
      rw [hs]
      cases hn : m.program.find? n with
      | none =>
          refine .inl ⟨attempt?_of_find?_eq_none hc hn, ?_⟩
          rw [stepAt, hn]
          cases jumped <;> rfl
      | some e =>
          exact .inr ⟨n, jumped, e, rfl, hn, attempt?_of_find?_eq_some hc hn, program_stepAt hn _⟩

theorem Coherent.toNat_countUp (h : m.Coherent) (ha : m.Active) {e : StoredLine}
    (hn : m.program.find? n = some e) :
    (Program.countUp e.count).toNat = e.count.toNat + 1 := by
  have hlt : e.count.toNat < max m.program.limit.toNat 1 := h.active ha n e hn
  have hlimit := m.program.limit.toNat_lt
  rw [Program.toNat_countUp]
  omega

/-- The attempt is made after others, each of which was counted. -/
def Attempt.After (limit : UInt32) (before : List Attempt) (a : Attempt) : Prop :=
  ∃ jumped e, a.machine.step = a.machine.stepAt a.line jumped ∧ a.machine.program.limit = limit ∧
    a.machine.program.find? a.line = some e ∧
    (Program.countUp e.count).toNat = Attempt.tries a.line before + 1 ∧
    Attempt.tries a.line before < max limit.toNat 1

def InOrder (limit : UInt32) (log : List Attempt) : Prop :=
  ∀ before a after, log = before ++ a :: after → a.After limit before

theorem InOrder.concat {a : Attempt} (h : InOrder limit log) (ha : a.After limit log) :
    InOrder limit (log ++ [a]) := by
  intro before b after heq
  rcases concat_eq_append_cons_iff.1 heq with ⟨_, rfl, rfl⟩ | ⟨after', _, heq⟩
  · exact ha
  · exact h before b after' heq

theorem InOrder.of_concat {a : Attempt} (h : InOrder limit (log ++ [a])) : InOrder limit log :=
  fun before b after heq => h before b (after ++ [a]) (by rw [heq]; simp)

/-- The counts of the program are the numbers of attempts made. -/
structure Tallies (limit : UInt32) (log : List Attempt) (m : Machine) : Prop where
  limit_eq : m.program.limit = limit
  counts : m.program.Each fun n e => e.count.toNat = Attempt.tries n log
  inOrder : InOrder limit log

namespace Tallies

theorem of_program_eq (h : Tallies limit log m) (hp : m'.program = m.program) :
    Tallies limit log m' :=
  ⟨hp ▸ h.limit_eq, hp ▸ h.counts, h.inOrder⟩

/-- The next attempt on a line comes after those that were counted. -/
theorem after (h : Tallies limit log m) (hm : m.Coherent) {jumped : Bool}
    (hc : m.control = .running n jumped) {e : StoredLine} (hn : m.program.find? n = some e) :
    Attempt.After limit log ⟨n, m⟩ := by
  have ha : m.Active := .inl ⟨n, jumped, hc⟩
  have hcount : e.count.toNat = Attempt.tries n log := h.counts n e hn
  refine ⟨jumped, e, ?_, h.limit_eq, hn, ?_, ?_⟩
  · rw [Machine.step, hc]
  · rw [hm.toNat_countUp ha hn, hcount]
  · rw [← hcount, ← h.limit_eq]
    exact hm.active ha n e hn

theorem counts_increment (h : Tallies limit log m) {e : StoredLine}
    (hn : m.program.find? n = some e)
    (hup : (Program.countUp e.count).toNat = Attempt.tries n log + 1) :
    (m.program.increment n).2.Each fun k f =>
      f.count.toNat = Attempt.tries k (log ++ [⟨n, m⟩]) := by
  intro k f hk
  rw [Program.find?_increment, Option.map_eq_some_iff] at hk
  obtain ⟨g, hg, rfl⟩ := hk
  rw [Attempt.tries_concat]
  by_cases hkn : k = n
  · subst hkn
    obtain rfl : e = g := Option.some.inj (hn.symm.trans hg)
    rw [if_pos rfl, if_pos rfl]
    exact hup
  · rw [if_neg hkn, if_neg (Ne.symm hkn)]
    exact h.counts k g hg

theorem step (h : Tallies limit log m) (hm : m.Coherent) :
    Tallies limit (log ++ m.attempt?.toList) m.step.2 := by
  obtain ⟨hattempt, hp⟩ | ⟨n, jumped, e, hc, hn, hattempt, hp⟩ := m.attempt?_eq_none_or
  · rw [hattempt]
    exact (List.append_nil log).symm ▸ h.of_program_eq hp
  · have hafter := h.after hm hc hn
    rw [hattempt]
    refine ⟨?_, ?_, h.inOrder.concat hafter⟩
    · rw [hp, Program.limit_increment]
      exact h.limit_eq
    · rw [hp]
      refine h.counts_increment hn ?_
      rw [hm.toNat_countUp (.inl ⟨n, jumped, hc⟩) hn, h.counts n e hn]

theorem execute (h : Tallies limit log m) (hm : m.Coherent) (cycles : Nat) :
    Tallies limit (log ++ m.executeAttempts cycles) (m.execute cycles).2 := by
  refine execute_relates (P := Coherent)
    (R := fun m log' m' => ∀ log, Tallies limit log m → Tallies limit (log ++ log') m')
    (fun _ hm => hm.step) (fun _ _ log h => ?_) (fun h₁ h₂ log h => ?_)
    (fun _ hm _ h => h.step hm) cycles hm log h
  · exact (List.append_nil log).symm ▸ h.of_program_eq rfl
  · rw [← List.append_assoc]
    exact h₂ _ (h₁ log h)

/-- As long as the program is left alone, its counts go with the attempts. -/
theorem of_proceeds (h₀ : Tallies limit [] m₀) (hm₀ : m₀.Reachable) (h : m₀.Proceeds log m) :
    Tallies limit log m := by
  induction h with
  | start => exact h₀
  | execute h cycles ih => exact ih.execute (h.reachable hm₀).coherent cycles
  | enter _ hp ih => exact ih.of_program_eq hp
  | @interrupt _ m _ ih => exact ih.of_program_eq m.program_interrupt

theorem obey_run (m : Machine) : Tallies m.program.limit [] (m.obey .run) := by
  have hp := m.program_obey_run
  refine ⟨hp ▸ rfl, ?_, fun before a after h => ?_⟩
  · intro n e hn
    rw [hp, Program.find?_resetCounts, Option.map_eq_some_iff] at hn
    obtain ⟨_, _, rfl⟩ := hn
    rfl
  · cases before <;> cases h

end Tallies

namespace Attempt

variable {a : Attempt} {before : List Attempt}

/-- The attempt with the number of the limit fails, and stops the machine. -/
theorem After.step_of_limit_le (h : a.After limit before)
    (hl : limit.toNat ≤ tries a.line before + 1) :
    a.machine.step = (a.machine.counted a.line).fail .limitReached := by
  obtain ⟨jumped, e, hs, hlimit, hn, hup, _⟩ := h
  rw [hs]
  refine stepAt_of_limit_le hn ?_ jumped
  rw [UInt32.le_iff_toNat_le, hlimit, hup]
  exact hl

theorem After.step_ne_of_lt_limit (h : a.After limit before)
    (hl : tries a.line before + 1 < limit.toNat) :
    a.machine.step.1 ≠ some (.message (.error .limitReached)) := by
  obtain ⟨jumped, e, hs, hlimit, hn, hup, _⟩ := h
  have hlt : Program.countUp e.count < a.machine.program.limit := by
    rw [UInt32.lt_iff_toNat_lt, hlimit, hup]
    exact hl
  rw [hs, stepAt_of_lt_limit hn hlt]
  cases hf : e.statement.flow a.machine.program a.machine.vars with
  | error err =>
      obtain ⟨f, rfl⟩ := Statement.exists_of_flow_eq_error hf
      rw [perform_counted_of_error hf]
      cases f <;> nofun
  | ok r =>
      obtain ⟨f, vars⟩ := r
      rw [perform_counted_of_ok hf]
      cases f <;> nofun

theorem After.lt_limit_of_takesEffect (h : a.After limit before) (ha : a.takesEffect = true) :
    tries a.line before + 1 < limit.toNat := by
  refine Nat.lt_of_not_le fun hl => ?_
  rw [takesEffect, h.step_of_limit_le hl] at ha
  cases ha

end Attempt

/-- A statement takes effect less often than the limit says. -/
theorem InOrder.countP_takesEffect_le (h : InOrder limit log) (n : LineNumber) :
    log.countP (fun a => a.line = n && a.takesEffect) ≤ max limit.toNat 1 - 1 := by
  induction log using List.reverseRecOn with
  | nil => exact Nat.zero_le _
  | append_singleton log a ih =>
      have hlog := ih h.of_concat
      rw [List.countP_append, List.countP_singleton]
      split
      · next ha =>
          obtain ⟨hn, heffect⟩ := Bool.and_eq_true_iff.1 ha
          obtain rfl : a.line = n := of_decide_eq_true hn
          have hlt := (h log a [] rfl).lt_limit_of_takesEffect heffect
          have hle : log.countP (fun b => b.line = a.line && b.takesEffect) ≤
              Attempt.tries a.line log :=
            List.countP_mono_left fun b _ hb => (Bool.and_eq_true_iff.1 hb).1
          omega
      · exact hlog

theorem remaining_step_lt (hs : m.step = (none, m')) (hc : m'.control ≠ .stopped) :
    m'.program.remaining < m.program.remaining := by
  have hm : m.control ≠ .stopped := fun h => by
    rw [step, h] at hs
    cases hs
  have hqueue : m'.queue = m.queue := by
    rw [← m.queue_step, hs]
  have hlt := potential_step_lt hs fun _ he => by cases he
  rw [potential_of_active hm, potential_of_active hc, hqueue] at hlt
  omega

theorem exists_step_of_run_succ {cycles : Nat} (h : m.run (cycles + 1) = (.running, m')) :
    ∃ m₁, m.step = (none, m₁) ∧ m₁.control ≠ .stopped ∧ m₁.run cycles = (.running, m') := by
  cases hs : m.step with
  | mk ev m₁ =>
      cases ev with
      | some ev =>
          rw [run_succ_of_some hs] at h
          cases h
          exact absurd hs step_ne_running
      | none =>
          rw [run_succ_of_none hs] at h
          refine ⟨m₁, rfl, fun hc => ?_, h⟩
          rw [run_of_stopped hc] at h
          cases h

/-- A run that uses up its cycles uses up as many of the remaining attempts. -/
theorem remaining_run_add_le {cycles : Nat} (h : m.run cycles = (.running, m')) :
    m'.program.remaining + cycles ≤ m.program.remaining := by
  induction cycles generalizing m with
  | zero =>
      rw [run] at h
      cases (Prod.mk.inj h).2
      exact Nat.le_refl _
  | succ cycles ih =>
      obtain ⟨m₁, hs, hc, hrun⟩ := exists_step_of_run_succ h
      have hlt := remaining_step_lt hs hc
      have hle := ih hrun
      omega

theorem active_of_step_none (hs : m.step = (none, m')) (hc : m'.control ≠ .stopped) :
    m'.Active := by
  rw [step] at hs
  split at hs
  · cases hs
  · cases hs
  · next n jumped _ =>
      have h := m.stepsAt n jumped
      rw [hs] at h
      generalize hr : (none, m') = r at h
      cases h with
      | missing | exhausted | fault => cases hr
      | finished =>
          cases hr
          exact absurd rfl hc
      | @follow e f vars =>
          cases f with
          | print | input => cases hr
          | jump target =>
              cases hr
              exact .inl ⟨target, true, rfl⟩
          | halt =>
              cases hr
              exact absurd rfl hc
          | next =>
              rw [follow, advance] at hr
              split at hr
              · next k _ =>
                  cases hr
                  exact .inl ⟨k, false, rfl⟩
              · cases hr
                exact absurd rfl hc

theorem active_of_run_succ {cycles : Nat} (h : m.run (cycles + 1) = (.running, m')) :
    m'.Active := by
  induction cycles generalizing m with
  | zero =>
      obtain ⟨m₁, hs, hc, hrun⟩ := exists_step_of_run_succ h
      rw [run] at hrun
      cases (Prod.mk.inj hrun).2
      exact active_of_step_none hs hc
  | succ cycles ih =>
      obtain ⟨m₁, _, _, hrun⟩ := exists_step_of_run_succ h
      exact ih hrun

theorem size_and_limit_run (m : Machine) (cycles : Nat) :
    (m.run cycles).2.program.size = m.program.size ∧
      (m.run cycles).2.program.limit = m.program.limit := by
  refine run_preserves (P := fun m' => m'.program.size = m.program.size ∧
    m'.program.limit = m.program.limit) (fun m' h => ?_) cycles ⟨rfl, rfl⟩
  rcases m'.program_step with hp | ⟨n, hp⟩
  · rw [hp]
    exact h
  · rw [hp, Program.size_increment, Program.limit_increment]
    exact h

/-- A run uses up no more cycles than there are attempts below the limit. -/
theorem Coherent.cycles_le_of_run {cycles : Nat} (h : m'.Coherent)
    (hr : m.run (cycles + 1) = (.running, m')) :
    cycles + 1 ≤ m.program.size * (m.program.ceiling - 1) := by
  obtain ⟨hsize, hlimit⟩ := m.size_and_limit_run (cycles + 1)
  rw [hr] at hsize hlimit
  dsimp only at hsize hlimit
  have hused := remaining_run_add_le hr
  have hmost := m.program.remaining_le
  -- A program without attempts left cannot use up a cycle, so the limit is not zero.
  have hpos : m.program.ceiling = m.program.limit.toNat := by
    refine Nat.max_eq_left (Nat.pos_of_ne_zero fun hz => ?_)
    rw [hz, Nat.mul_zero] at hmost
    omega
  have hleast : m'.program.size ≤ m'.program.remaining := by
    refine Program.size_le_remaining fun e he => ?_
    rw [hlimit, ← hpos, Program.ceiling, ← hlimit]
    exact (h.active (active_of_run_succ hr)).of_mem he
  have hmul : m.program.size * (m.program.limit.toNat - 1) + m.program.size =
      m.program.size * m.program.limit.toNat := by
    rw [← Nat.mul_add_one, Nat.sub_add_cancel (hpos ▸ m.program.ceiling_pos)]
  rw [hpos]
  omega

/-- A machine that is given a cycle more than there are attempts below the limit does not use
them up. -/
theorem Reachable.execute_ne_running (h : m.Reachable) {cycles : Nat}
    (hc : m.program.size * (m.program.ceiling - 1) + 1 ≤ cycles) :
    (m.execute cycles).1 ≠ .running := by
  intro hrunning
  obtain ⟨c, rfl⟩ := Nat.exists_eq_add_of_le' (Nat.le_of_add_left_le hc)
  have hcoherent := (h.execute (c + 1)).coherent
  cases hq : m.queue with
  | cons msg rest =>
      rw [Machine.execute, hq] at hrunning
      cases hrunning
  | nil =>
      rw [execute_of_queue_nil hq] at hrunning hcoherent
      have hle := hcoherent.cycles_le_of_run (Prod.ext hrunning rfl)
      omega

/-- The limit bounds every run. From the command to run on, as long as the program is left alone,
no statement takes effect as often as the limit says, and the attempt with that number, or the
first one if the limit is zero, is the one that fails because of the limit: it stops the machine
and changes no variable. So a machine that is given a cycle for every attempt below the limit, and
one more, does not use them up. -/
theorem Reachable.attempts_within_limit (h : m.Reachable) :
    (∀ s, (∀ x l, m.control ≠ .awaiting x l) → Line.fits s = true →
      (Line.ofText s).command? = some .run →
      ∀ log m', Proceeds (m.enter s).2 log m' →
        (∀ n, log.countP (fun a => a.line = n && a.takesEffect) ≤ m.program.ceiling - 1) ∧
        ∀ before a after, log = before ++ a :: after →
          (a.machine.step.1 = some (.message (.error .limitReached)) ↔
            before.countP (fun b => b.line = a.line) + 1 = m.program.ceiling) ∧
          (before.countP (fun b => b.line = a.line) + 1 = m.program.ceiling →
            a.machine.step.2.control = .stopped ∧ a.machine.step.2.vars = a.machine.vars)) ∧
    ∀ cycles, m.program.size * (m.program.ceiling - 1) + 1 ≤ cycles →
      (m.execute cycles).1 ≠ .running := by
  refine ⟨fun s hw hf hc log m' hlog => ?_, fun cycles hcycles => h.execute_ne_running hcycles⟩
  have hrun := h.enter s
  have hbegin := Tallies.obey_run m
  rw [enter_command hw hf hc] at hlog hrun
  have horder := (hbegin.of_proceeds hrun hlog).inOrder
  refine ⟨horder.countP_takesEffect_le, fun before a after heq => ?_⟩
  have hafter := horder before a after heq
  have hstep : before.countP (fun b => b.line = a.line) + 1 = m.program.ceiling →
      a.machine.step = (a.machine.counted a.line).fail .limitReached := fun hlast =>
    hafter.step_of_limit_le (hlast ▸ Nat.le_max_left _ _)
  refine ⟨⟨fun herror => ?_, fun hlast => ?_⟩, fun hlast => ?_⟩
  · obtain ⟨_, _, _, _, _, _, hle⟩ := id hafter
    refine Nat.le_antisymm hle (Nat.max_le.2 ⟨?_, Nat.le_add_left 1 _⟩)
    exact Nat.le_of_not_lt fun hlt => hafter.step_ne_of_lt_limit hlt herror
  · rw [hstep hlast]
    rfl
  · rw [hstep hlast]
    exact ⟨rfl, rfl⟩

/-- A question is answered between two attempts on its line, the second of which is too many. -/
theorem attempts_within_limit_of_question :
    let m := (((Machine.new 2).enter "10 INPUT X").2.enter "20 GOTO 10").2
    let m₁ := (m.enter "RUN").2
    let m₂ := ((m₁.execute 100).2.enter "7").2
    let log := m₁.executeAttempts 100 ++ m₂.executeAttempts 100
    m.Reachable ∧ Proceeds m₁ log (m₂.execute 100).2 ∧ log.map Attempt.line = [10, 20, 10] ∧
      log.countP (fun a => a.line = 10 && a.takesEffect) ≤ 1 ∧
      (∃ before a, log = before ++ [a] ∧
        a.machine.step.1 = some (.message (.error .limitReached))) ∧
      (m₁.execute 3).1 ≠ .running := by
  intro m m₁ m₂ log
  have hm : m.Reachable := ((Reachable.new 2).enter _).enter _
  have hlog : Proceeds m₁ log (m₂.execute 100).2 :=
    ((Proceeds.start.execute 100).enter (by decide +kernel)).execute 100
  have hlines : log.map Attempt.line = [10, 20, 10] := by decide +kernel
  have hceiling : m.program.ceiling = 2 := by decide +kernel
  have hstopped : m.control = .stopped := by decide +kernel
  obtain ⟨hruns, _⟩ := Reachable.attempts_within_limit hm
  obtain ⟨heffects, herrors⟩ := hruns "RUN" (fun x l hc => by cases hstopped.symm.trans hc)
    (by decide) (by decide +kernel) log _ hlog
  obtain ⟨_, hcycles⟩ := Reachable.attempts_within_limit (hm.enter "RUN")
  rw [hceiling] at heffects herrors
  refine ⟨hm, hlog, hlines, heffects 10, ?_, hcycles 3 (by decide +kernel)⟩
  rcases List.eq_nil_or_concat log with hnil | ⟨before, a, hlast⟩
  · rw [hnil] at hlines
    cases hlines
  · rw [List.concat_eq_append] at hlast
    rw [hlast, List.map_append] at hlines
    have hcut : before.map Attempt.line ++ [a.line] = [10, 20] ++ [10] := hlines
    obtain ⟨hbefore, hline⟩ := List.append_inj' hcut rfl
    have hcount : before.countP (fun b => b.line = a.line) + 1 = 2 := by
      have hlines' : before.countP (fun b => b.line = a.line) =
          (before.map Attempt.line).countP (fun n => n = a.line) := by
        rw [List.countP_map]
        rfl
      rw [hlines', hbefore, (List.cons.inj hline).1]
      rfl
    exact ⟨before, a, hlast, (herrors before a [] hlast).1.2 hcount⟩

end Machine

end IntegerBasic
