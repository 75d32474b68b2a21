import IntegerBasic.Machine.Progress
import IntegerBasic.Proofs.Program.Stored

/-!
# What a step can do

`StepsAt m n jumped` lists all that executing line `n` can come to, each with what must be
the case for it, `FailsStep m` lists the ways in which a step ends with an error, and `Obeys m s`
does so for obeying a direct statement, as `Complies m c` does for a command. The main statements
are that nothing else can happen, and that what every step preserves is preserved by a run and by
`execute`.
-/

namespace IntegerBasic

/-- Which program is running does not matter to a statement of it. -/
theorem Statement.flow_eq_flow (p q : Program) (vars : Variables) (s : Statement) :
    s.flow p vars = s.flow q vars := by
  cases s <;> rfl

theorem Statement.exists_of_flow_eq_error {s : Statement} {p : Program} {vars : Variables}
    {err : Error} (h : s.flow p vars = .error err) : ∃ f : EvalFault, err = f.toError := by
  cases s with
  | input | remark | goto | halt => cases h
  | assign x e | print e =>
      rw [Statement.flow, Statement.execute] at h
      split at h
      · next f _ =>
          cases h
          exact ⟨f, rfl⟩
      · cases h
  | branch l rel r n =>
      rw [Statement.flow] at h
      split at h
      · next f _ =>
          cases h
          exact ⟨f, rfl⟩
      · cases h
      · cases h

namespace Machine

variable {m : Machine} {n : LineNumber} {jumped : Bool} {e : StoredLine}

def counted (m : Machine) (n : LineNumber) : Machine :=
  { m with program := (m.program.increment n).2 }

@[simp] theorem vars_counted (m : Machine) (n : LineNumber) : (m.counted n).vars = m.vars := rfl

@[simp] theorem control_counted (m : Machine) (n : LineNumber) :
    (m.counted n).control = m.control := rfl

@[simp] theorem limit_counted (m : Machine) (n : LineNumber) :
    (m.counted n).program.limit = m.program.limit := m.program.limit_increment n

@[simp] theorem vars_advance (m : Machine) (n : LineNumber) :
    (m.advance n).vars = m.vars := by
  unfold advance
  split <;> rfl

inductive StepsAt (m : Machine) (n : LineNumber) (jumped : Bool) :
    Option Event × Machine → Prop
  | missing (h : m.program.find? n = none) (hj : jumped = true) :
      StepsAt m n jumped (m.fail .missingLine)
  | finished (h : m.program.find? n = none) (hj : jumped = false) :
      StepsAt m n jumped (none, m.stop)
  | exhausted {e : StoredLine} (h : m.program.find? n = some e)
      (hl : m.program.limit ≤ Program.countUp e.count) :
      StepsAt m n jumped ((m.counted n).fail .limitReached)
  | fault {e : StoredLine} {err : Error} (h : m.program.find? n = some e)
      (hl : Program.countUp e.count < m.program.limit)
      (hf : e.statement.flow m.program m.vars = .error err) :
      StepsAt m n jumped ((m.counted n).fail err)
  | follow {e : StoredLine} {f : Flow} {vars : Variables} (h : m.program.find? n = some e)
      (hl : Program.countUp e.count < m.program.limit)
      (hf : e.statement.flow m.program m.vars = .ok (f, vars)) :
      StepsAt m n jumped ({ m.counted n with vars := vars }.follow n f)

theorem stepAt_of_limit_le (h : m.program.find? n = some e)
    (hl : m.program.limit ≤ Program.countUp e.count) (jumped : Bool) :
    m.stepAt n jumped = (m.counted n).fail .limitReached := by
  simp only [stepAt, h, Program.increment, if_pos hl, counted]

theorem stepAt_of_lt_limit (h : m.program.find? n = some e)
    (hl : Program.countUp e.count < m.program.limit) (jumped : Bool) :
    m.stepAt n jumped = (m.counted n).perform n e.statement := by
  simp only [stepAt, h, Program.increment, if_neg (UInt32.not_le.2 hl), counted]

theorem perform_counted_of_error {s : Statement} {err : Error}
    (h : s.flow m.program m.vars = .error err) :
    (m.counted n).perform n s = (m.counted n).fail err := by
  rw [perform, Statement.flow_eq_flow _ m.program, vars_counted, h]

theorem perform_counted_of_ok {s : Statement} {f : Flow} {vars : Variables}
    (h : s.flow m.program m.vars = .ok (f, vars)) :
    (m.counted n).perform n s = { m.counted n with vars := vars }.follow n f := by
  rw [perform, Statement.flow_eq_flow _ m.program, vars_counted, h]

/-- Nothing else can happen. -/
theorem stepsAt (m : Machine) (n : LineNumber) (jumped : Bool) :
    StepsAt m n jumped (m.stepAt n jumped) := by
  cases hn : m.program.find? n with
  | none =>
      rw [stepAt, hn]
      cases jumped with
      | true => exact .missing hn rfl
      | false => exact .finished hn rfl
  | some e =>
      by_cases hl : m.program.limit ≤ Program.countUp e.count
      · rw [stepAt_of_limit_le hn hl]
        exact .exhausted hn hl
      · have hlt := UInt32.not_le.1 hl
        rw [stepAt_of_lt_limit hn hlt]
        cases hf : e.statement.flow m.program m.vars with
        | error err =>
            rw [perform_counted_of_error hf]
            exact .fault hn hlt hf
        | ok r =>
            rw [perform_counted_of_ok hf]
            exact .follow hn hlt hf

/-- What a step of a running program that ends with an error can be: the error and the machine
after it, which is stopped. -/
inductive FailsStep (m : Machine) : Error → Machine → Prop
  | missing {n : LineNumber} (hc : m.control = .running n true) (h : m.program.find? n = none) :
      FailsStep m .missingLine m.stop
  | exhausted {n : LineNumber} {jumped : Bool} {e : StoredLine}
      (hc : m.control = .running n jumped) (h : m.program.find? n = some e)
      (hl : m.program.limit ≤ Program.countUp e.count) :
      FailsStep m .limitReached (m.counted n).stop
  | fault {n : LineNumber} {jumped : Bool} {e : StoredLine} {f : EvalFault}
      (hc : m.control = .running n jumped) (h : m.program.find? n = some e)
      (hl : Program.countUp e.count < m.program.limit)
      (hf : e.statement.flow m.program m.vars = .error f.toError) :
      FailsStep m f.toError (m.counted n).stop

theorem failsStep_of_step {m' : Machine} {err : Error}
    (hs : m.step = (some (.message (.error err)), m')) : m.FailsStep err m' := by
  cases hc : m.control with
  | stopped | awaiting =>
      rw [step, hc] at hs
      cases hs
  | running n jumped =>
      have h := m.stepsAt n jumped
      rw [step, hc] at hs
      dsimp only at hs
      rw [hs] at h
      generalize hr : (some (Event.message (.error err)), m') = r at h
      cases h with
      | missing hn hj =>
          cases hr
          exact .missing (hj ▸ hc) hn
      | finished => cases hr
      | exhausted hn hl =>
          cases hr
          exact .exhausted hc hn hl
      | fault hn hl hf =>
          cases hr
          obtain ⟨f, rfl⟩ := Statement.exists_of_flow_eq_error hf
          exact .fault hc hn hl hf
      | @follow _ f => cases f <;> cases hr

inductive Obeys (m : Machine) : Statement → Machine → Prop
  | assign {x : String} {e : Expr} {v : Value} (h : e.eval m.vars = .ok v) :
      Obeys m (.assign x e) { m with vars := m.vars.store x v }
  | print {e : Expr} {v : Value} (h : e.eval m.vars = .ok v) :
      Obeys m (.print e) { m with queue := m.queue ++ [.print (v.text ++ "\n")] }
  | input {x : String} : Obeys m (.input x) { m with control := .awaiting x none }
  | fault {s : Statement} {err : Error} (h : s.execute m.program m.vars = .error err) :
      Obeys m s { m with queue := m.queue ++ [.error err] }
  | illegal {s : Statement} (h : (∃ r, s = .remark r) ∨ s.target? ≠ none) :
      Obeys m s { m with queue := m.queue ++ [.error SyntaxFault.illegalDirect.toError] }
  | halt : Obeys m .halt { m with queue := m.queue ++ [.quit] }

theorem obeys_executeDirect (m : Machine) (s : Statement) : Obeys m s (m.executeDirect s) := by
  cases s with
  | assign x e =>
      rw [executeDirect]
      cases he : e.eval m.vars with
      | error f =>
          have hs : (Statement.assign x e).execute m.program m.vars = .error f.toError := by
            rw [Statement.execute, he]
          rw [hs]
          exact .fault hs
      | ok v =>
          have hs : (Statement.assign x e).execute m.program m.vars =
              .ok (.next, m.vars.store x v) := by
            rw [Statement.execute, he]
          rw [hs]
          exact .assign he
  | print e =>
      rw [executeDirect]
      cases he : e.eval m.vars with
      | error f =>
          have hs : (Statement.print e).execute m.program m.vars = .error f.toError := by
            rw [Statement.execute, he]
          rw [hs]
          exact .fault hs
      | ok v =>
          have hs : (Statement.print e).execute m.program m.vars =
              .ok (.print (v.text ++ "\n"), m.vars) := by
            rw [Statement.execute, he]
          rw [hs]
          exact .print he
  | input x => exact .input
  | remark r => exact .illegal (.inl ⟨r, rfl⟩)
  | goto n => exact .illegal (.inr nofun)
  | branch l rel r n => exact .illegal (.inr nofun)
  | halt => exact .halt

/-- What obeying a command can come to. If there is no line to run, the counts are reset and the
machine does next what it would have done without the command. -/
inductive Complies (m : Machine) : Command → Machine → Prop
  | run {n : LineNumber} (hn : m.program.first? = some n) :
      Complies m .run { m with program := m.program.resetCounts, control := .running n false }
  | idle (hn : m.program.first? = none) :
      Complies m .run { m with program := m.program.resetCounts }
  | list : Complies m .list
      { m with queue := m.queue ++ m.program.lines.map fun e => .list e.line.text }
  | clear : Complies m .clear { m with program := m.program.clear, vars := .empty }
  | quit : Complies m .quit { m with queue := m.queue ++ [.quit] }

theorem complies_obey (m : Machine) (c : Command) : Complies m c (m.obey c) := by
  cases c with
  | run =>
      rw [obey]
      dsimp only
      rw [Program.first?_resetCounts]
      cases hn : m.program.first? with
      | some n => exact .run hn
      | none => exact .idle hn
  | list => exact .list
  | clear => exact .clear
  | quit => exact .quit

theorem enter_of_awaiting {x : String} {line : Option LineNumber}
    (hc : m.control = .awaiting x line) (s : String) : m.enter s = (false, m.answer x line s) := by
  rw [enter, hc]

theorem enter_of_not_awaiting (hw : ∀ x l, m.control ≠ .awaiting x l) (s : String) :
    m.enter s = m.enterLine s := by
  rw [enter]
  split
  · next x l hc => exact absurd hc (hw x l)
  · rfl

theorem enter_of_stopped (hc : m.control = .stopped) (s : String) : m.enter s = m.enterLine s := by
  rw [enter, hc]

theorem statement_of_flow_input {s : Statement} {p : Program} {vars vars' : Variables}
    {x : String} (h : s.flow p vars = .ok (.input x, vars')) : s = .input x := by
  cases s with
  | input y => cases h; rfl
  | remark | goto | halt => cases h
  | assign y e | print e =>
      rw [Statement.flow, Statement.execute] at h
      split at h <;> cases h
  | branch l rel r n =>
      rw [Statement.flow] at h
      split at h <;> cases h

theorem run_succ_of_some {m' : Machine} {ev : Event} (h : m.step = (some ev, m'))
    (cycles : Nat) : m.run (cycles + 1) = (ev, m') := by
  rw [run, h]

theorem run_succ_of_none {m' : Machine} (h : m.step = (none, m')) (cycles : Nat) :
    m.run (cycles + 1) = m'.run cycles := by
  rw [run, h]

section

variable {P : Machine → Prop}

/-- What every step preserves is preserved by a run. -/
theorem run_preserves (hstep : ∀ m, P m → P m.step.2) (cycles : Nat) (h : P m) :
    P (m.run cycles).2 := by
  induction cycles generalizing m with
  | zero => exact h
  | succ cycles ih =>
      have hm := hstep m h
      cases hs : m.step with
      | mk ev m' =>
          rw [hs] at hm
          cases ev with
          | some ev => rwa [run_succ_of_some hs]
          | none =>
              rw [run_succ_of_none hs]
              exact ih hm

theorem execute_preserves (hstep : ∀ m, P m → P m.step.2)
    (hqueue : ∀ m msg rest, m.queue = msg :: rest → P m → P { m with queue := rest })
    (cycles : Nat) (h : P m) : P (m.execute cycles).2 := by
  rw [execute]
  split
  · next msg rest hq => exact hqueue m msg rest hq h
  · exact run_preserves hstep cycles h

end

end Machine

end IntegerBasic
