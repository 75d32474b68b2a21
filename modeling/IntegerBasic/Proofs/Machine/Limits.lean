import IntegerBasic.Proofs.Machine.Delivery
import IntegerBasic.Proofs.Machine.Edits
import IntegerBasic.Proofs.Machine.Slices
import IntegerBasic.Proofs.Machine.Watching

/-!
# One program under two limits

A program is run twice, with the same variables and answers, but under two limits. As long as
the smaller limit is not reached, a step of one machine is that of the other, since the counts
decide about nothing else. `CutOff t t'` says what may become of the events.

The main statement is that the run under the smaller limit shows what the other one shows, or a
beginning of it that is cut off by the error that says so.
-/

namespace IntegerBasic

namespace Machine

def limited (m : Machine) (limit : UInt32) : Machine :=
  { m with program := { m.program with limit := limit } }

/-- What is shown is the same, or it is cut off by the limit. -/
def CutOff (t t' : Trace) : Prop :=
  t = t' ∨ ∃ begin vars, begin <+: t' ∧
    t = begin ++ [(.message (.error .limitReached), vars), (.stopped, vars)]

theorem CutOff.append {t t' : Trace} (h : CutOff t t') (shown : Trace) :
    CutOff (shown ++ t) (shown ++ t') := by
  rcases h with rfl | ⟨begin, vars, hbegin, rfl⟩
  · exact .inl rfl
  · exact .inr ⟨shown ++ begin, vars, (List.prefix_append_right_inj shown).2 hbegin,
      (List.append_assoc _ _ _).symm⟩

/-- The machine shows this; under a smaller limit it may be cut off. -/
structure YieldsUnder (m : Machine) (answers : List String) (t' : Trace) : Prop where
  yields : m.Yields answers t'
  limited : ∀ limit ≤ m.program.limit, ∃ t, (m.limited limit).Yields answers t ∧ CutOff t t'

variable {m m' : Machine} {limit : UInt32} {t : Trace} {answers : List String}

theorem counted_limited (m : Machine) (limit : UInt32) (n : LineNumber) :
    (m.limited limit).counted n = (m.counted n).limited limit := by
  have hfind : (m.limited limit).program.find? n = m.program.find? n := rfl
  simp only [counted, Program.increment, hfind]
  cases m.program.find? n <;> rfl

theorem advance_limited (m : Machine) (limit : UInt32) (n : LineNumber) :
    (m.limited limit).advance n = (m.advance n).limited limit := by
  have hnext : (m.limited limit).program.next? n = m.program.next? n := rfl
  rw [advance, advance, hnext]
  cases m.program.next? n <;> rfl

theorem perform_limited (m : Machine) (limit : UInt32) (n : LineNumber) (s : Statement) :
    (m.limited limit).perform n s = ((m.perform n s).1, (m.perform n s).2.limited limit) := by
  have hflow : s.flow (m.limited limit).program (m.limited limit).vars =
      s.flow m.program m.vars := Statement.flow_eq_flow _ _ _ _
  rw [perform, perform, hflow]
  cases s.flow m.program m.vars with
  | error e => rfl
  | ok r =>
      obtain ⟨f, vars⟩ := r
      cases f with
      | next | print => exact congrArg (Prod.mk _) (advance_limited { m with vars := vars } limit n)
      | input | jump | halt => rfl

/-- A step under a smaller limit is the same step, or the limit is reached with it. -/
theorem step_limited (hle : limit ≤ m.program.limit) :
    (m.limited limit).step = (m.step.1, m.step.2.limited limit) ∨
      ∃ x : Machine, (m.limited limit).step = x.fail .limitReached ∧ x.queue = m.queue ∧
        x.vars = m.vars := by
  have hcontrol : (m.limited limit).control = m.control := rfl
  rw [step, step, hcontrol]
  cases m.control with
  | stopped | awaiting => exact .inl rfl
  | running n jumped =>
      dsimp only
      have hfind : (m.limited limit).program.find? n = m.program.find? n := rfl
      cases hn : m.program.find? n with
      | none =>
          rw [stepAt, stepAt, hfind, hn]
          cases jumped <;> exact .inl rfl
      | some e =>
          by_cases hl : limit ≤ Program.countUp e.count
          · exact .inr ⟨_, stepAt_of_limit_le (hfind.trans hn) hl jumped, rfl, rfl⟩
          · have hlt := UInt32.not_le.1 hl
            have hlt' := UInt32.lt_of_lt_of_le hlt hle
            rw [stepAt_of_lt_limit (hfind.trans hn) hlt, stepAt_of_lt_limit hn hlt',
              counted_limited]
            exact .inl (perform_limited (m.counted n) limit n e.statement)

theorem limit_step (m : Machine) : m.step.2.program.limit = m.program.limit := by
  rw [step]
  split
  · rfl
  · rfl
  · next n jumped _ =>
      have hs := m.stepsAt n jumped
      generalize m.stepAt n jumped = r at hs ⊢
      cases hs with
      | missing | finished => rfl
      | exhausted | fault => exact limit_counted m n
      | follow => rw [program_follow]; exact limit_counted m n

theorem enter_limited {x : String} {line : Option LineNumber} (hc : m.control = .awaiting x line)
    (limit : UInt32) (s : String) :
    ((m.limited limit).enter s).2 = (m.enter s).2.limited limit := by
  rw [enter_of_awaiting hc, enter_of_awaiting (m := m.limited limit) hc, answer, answer]
  cases Value.ofAnswer? s with
  | none => rfl
  | some v =>
      cases line with
      | none => rfl
      | some n => exact advance_limited { m with vars := m.vars.store x v } limit n

theorem obey_run_limited (m : Machine) (limit : UInt32) :
    (m.limited limit).obey .run = (m.obey .run).limited limit := by
  have hfirst : (m.limited limit).program.resetCounts.first? = m.program.resetCounts.first? := rfl
  simp only [obey, hfirst]
  cases m.program.resetCounts.first? <;> rfl

namespace YieldsUnder

theorem of_yields (h : m.Yields answers t) (h' : ∀ limit, (m.limited limit).Yields answers t) :
    m.YieldsUnder answers t :=
  ⟨h, fun limit _ => ⟨t, h' limit, .inl rfl⟩⟩

/-- A step is followed by the rest, unless the smaller limit is reached with it; `shown` is what
such a step adds. -/
theorem of_step {ev : Option Event} (shown : Trace) (hq : m.queue = []) (hs : m.step = (ev, m'))
    (hshown : ∀ (x x' : Machine) t, x.queue = [] → x.step = (ev, x') → x'.queue = [] →
      x'.vars = m'.vars → x'.control = m'.control → x'.Yields answers t →
      x.Yields answers (shown ++ t))
    (h : m'.YieldsUnder answers t) : m.YieldsUnder answers (shown ++ t) := by
  have hq' : m'.queue = [] := by rw [← hq, ← queue_step m, hs]
  have hlimit : m'.program.limit = m.program.limit := by rw [← limit_step m, hs]
  refine ⟨hshown m m' t hq hs hq' rfl rfl h.yields, fun limit hle => ?_⟩
  rcases step_limited hle with hsame | ⟨x, hfail, hqx, hvars⟩
  · rw [hs] at hsame
    obtain ⟨u, hu, hcut⟩ := h.limited limit (hlimit ▸ hle)
    exact ⟨_, hshown _ _ u hq hsame hq' rfl rfl hu, hcut.append shown⟩
  · exact ⟨_, yields_of_fail hq hfail (hqx.trans hq) hvars, .inr ⟨[], _, List.nil_prefix, rfl⟩⟩

theorem of_step_none (hq : m.queue = []) (hs : m.step = (none, m'))
    (h : m'.YieldsUnder answers t) : m.YieldsUnder answers t :=
  of_step [] hq hs (fun _ _ _ hqx hsx hqx' _ _ => yields_of_step_none hqx hsx hqx') h

theorem of_step_message {msg : Message} (hq : m.queue = [])
    (hs : m.step = (some (.message msg), m')) (h : m'.YieldsUnder answers t) :
    m.YieldsUnder answers ((.message msg, m'.vars) :: t) :=
  of_step [_] hq hs (fun _ _ _ hqx hsx _ hv _ hx =>
    yields_of_message (fun _ hb => execute_of_step hqx hsx hb) hx hv) h

theorem of_step_input {x : String} {line : Option LineNumber} (hq : m.queue = [])
    (hs : m.step = (some (.input inputPrompt), m')) (hc : m'.control = .awaiting x line)
    (h : m'.YieldsUnder answers t) : m.YieldsUnder answers t :=
  of_step [] hq hs (fun _ _ _ hqx hsx hqx' _ hcx hx =>
    yields_of_execute_eq (fun _ hb => (execute_of_step hqx hsx hb).trans
      (execute_of_awaiting hqx' (hcx.trans hc) hb).symm) hx) h

section

variable {x s : String} {line : Option LineNumber}

theorem of_unanswered (hq : m.queue = []) (hc : m.control = .awaiting x line) :
    m.YieldsUnder [] [(.input inputPrompt, m.vars)] := by
  have hopen (y : Machine) (hq : y.queue = []) (hc : y.control = .awaiting x line) :
      y.Yields [] [(.input inputPrompt, y.vars)] :=
    yields_singleton fun _ _ hb => watch_nil_of_input (execute_of_awaiting hq hc hb)
  exact of_yields (hopen m hq hc) fun limit => hopen (m.limited limit) hq hc

theorem of_answer (hq : m.queue = []) (hc : m.control = .awaiting x line)
    (h : (m.enter s).2.YieldsUnder answers t) :
    m.YieldsUnder (s :: answers) ((.input inputPrompt, m.vars) :: t) := by
  refine ⟨yields_cons (fun _ _ hb => watch_cons_of_input (execute_of_awaiting hq hc hb)) h.yields,
    fun limit hle => ?_⟩
  have hlimit : (m.enter s).2.program.limit = m.program.limit := by
    rw [enter_of_awaiting hc, program_answer]
  obtain ⟨u, hu, hcut⟩ := h.limited limit (hlimit ▸ hle)
  rw [← enter_limited hc] at hu
  exact ⟨_, yields_cons (fun _ _ hb => watch_cons_of_input
    (execute_of_awaiting (m := m.limited limit) hq hc hb)) hu, hcut.append [_]⟩

theorem of_invalid (hq : m.queue = []) (hc : m.control = .awaiting x line)
    (hs : Value.ofAnswer? s = none) (h : m.YieldsUnder answers t) :
    (m.enter s).2.YieldsUnder answers
      ((.message (.print "INVALID NUMBER\n"), m.vars) :: t) := by
  refine ⟨yields_of_invalid hq hc hs h.yields, fun limit hle => ?_⟩
  rw [enter_of_awaiting hc, program_answer] at hle
  obtain ⟨u, hu, hcut⟩ := h.limited limit hle
  rw [← enter_limited hc]
  exact ⟨_, yields_of_invalid (m := m.limited limit) hq hc hs hu, hcut.append [_]⟩

end

end YieldsUnder

theorem potential_enter_le {x s : String} {line : Option LineNumber}
    (hc : m.control = .awaiting x line) {v : Value} (hs : Value.ofAnswer? s = some v) :
    (m.enter s).2.potential ≤ m.potential := by
  have hactive : m.control ≠ .stopped := by
    rw [hc]
    exact Control.noConfusion
  have hq : (m.answer x line s).queue.length = m.queue.length := by
    rw [queue_answer, hs, List.append_nil]
  rw [enter_of_awaiting hc, potential_of_active hactive, ← hq, ← program_answer m x line s]
  exact potential_le _

/-- A machine with nothing queued comes to an end or to an open question, and smaller limits only
cut off what it shows. -/
theorem exists_yieldsUnder (hq : m.queue = []) (answers : List String) :
    ∃ t, m.YieldsUnder answers t := by
  -- A step uses up potential; an invalid answer uses up no potential, but it is one less.
  induction hr : answers.length + m.potential using Nat.strongRecOn generalizing m answers with
  | ind r ih =>
      subst hr
      cases hc : m.control with
      | stopped =>
          exact ⟨_, .of_yields (yields_of_stopped hq hc) fun limit =>
            yields_of_stopped (m := m.limited limit) hq hc⟩
      | awaiting x line =>
          cases answers with
          | nil => exact ⟨_, .of_unanswered hq hc⟩
          | cons s answers =>
              have hlt := Nat.lt_succ_self answers.length
              cases hs : Value.ofAnswer? s with
              | none =>
                  obtain ⟨t, ht⟩ := ih _ (Nat.add_lt_add_right hlt _) hq answers rfl
                  exact ⟨_, .of_answer hq hc (.of_invalid hq hc hs ht)⟩
              | some v =>
                  have hq' : (m.enter s).2.queue = [] := by
                    rw [enter_of_awaiting hc, queue_answer, hs, hq, List.append_nil]
                  obtain ⟨t, ht⟩ := ih _ (Nat.add_lt_add_of_lt_of_le hlt
                    (potential_enter_le hc hs)) hq' answers rfl
                  exact ⟨_, .of_answer hq hc ht⟩
      | running n jumped =>
          have hstep : m.step = m.stepAt n jumped := by rw [step, hc]
          have hlt : (m.stepAt n jumped).2.potential < m.potential :=
            potential_stepAt_lt n jumped (by rw [hc]; exact Control.noConfusion)
          have hq' : (m.stepAt n jumped).2.queue = [] := (queue_stepAt m n jumped).trans hq
          obtain ⟨t, ht⟩ := ih _ (Nat.add_lt_add_left hlt _) hq' answers rfl
          have hs := m.stepsAt n jumped
          generalize m.stepAt n jumped = r at hstep ht hs
          cases hs with
          | missing | exhausted | fault => exact ⟨_, .of_step_message hq hstep ht⟩
          | finished => exact ⟨_, .of_step_none hq hstep ht⟩
          | @follow _ f =>
              cases f with
              | next | jump | halt => exact ⟨_, .of_step_none hq hstep ht⟩
              | print => exact ⟨_, .of_step_message hq hstep ht⟩
              | input => exact ⟨_, .of_step_input hq hstep rfl ht⟩

/-- Raising the limit changes nothing before the limit is reached: what the machine shows under
the smaller limit is what it shows under the larger one, with the same variables at every event,
or a beginning of it, followed by the error that the limit was reached. -/
theorem yields_limited {m : Machine} (hc : m.control = .stopped) (hq : m.queue = [])
    {limit limit' : UInt32} (hle : limit ≤ limit') (answers : List String) :
    ∃ t t', ((m.limited limit).enter "RUN").2.Yields answers t ∧
      ((m.limited limit').enter "RUN").2.Yields answers t' ∧
      (t = t' ∨ ∃ begin vars, begin <+: t' ∧
        t = begin ++ [(.message (.error .limitReached), vars), (.stopped, vars)]) := by
  have hq' : ((m.limited limit').obey .run).queue = [] := by
    rw [queue_obey]
    exact (List.append_nil _).trans hq
  have hlimit : ((m.limited limit').obey .run).program.limit = limit' := by
    rw [program_obey_run]
    rfl
  obtain ⟨t', ht'⟩ := exists_yieldsUnder hq' answers
  obtain ⟨t, ht, hcut⟩ := ht'.limited limit (hlimit.symm ▸ hle)
  rw [← obey_run_limited] at ht
  rw [enter_run (m := m.limited limit) hc, enter_run (m := m.limited limit') hc]
  exact ⟨t, t', ht, ht'.yields, hcut⟩

/-- Under the smaller limit the loop of this program is cut off, under the larger one its
question is left open. -/
theorem yields_limited_of_question :
    let m := (((Machine.new 9).enter "10 INPUT X").2.enter "20 GOTO 10").2
    m.control = .stopped ∧ m.queue = [] ∧ (2 : UInt32) ≤ 4 ∧
      ∃ t t', ((m.limited 2).enter "RUN").2.Yields ["5", "6"] t ∧
        ((m.limited 4).enter "RUN").2.Yields ["5", "6"] t' ∧
        (t = t' ∨ ∃ begin vars, begin <+: t' ∧
          t = begin ++ [(.message (.error .limitReached), vars), (.stopped, vars)]) := by
  intro m
  have hc : m.control = .stopped := by decide +kernel
  have hq : m.queue = [] := by decide +kernel
  exact ⟨hc, hq, by decide, yields_limited hc hq (by decide) ["5", "6"]⟩

end Machine

end IntegerBasic
