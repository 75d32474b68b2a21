import IntegerBasic.Proofs.Machine.Attempts
import IntegerBasic.Proofs.Statement.InPlace

/-!
# What an error leaves behind

A text that cannot be taken is reported by one error and changes nothing else. A step of a running
program that fails stops the machine; apart from that it leaves behind the attempt that was
counted, and a jump to a missing line not even that.

The main statement says so for every reachable machine, together with what holds of the statements
alone: one that is executed in place and fails has not changed a variable.
-/

namespace IntegerBasic

namespace Program

theorem lines_increment (p : Program) (n : LineNumber) :
    (p.increment n).2.lines = p.lines.map fun e =>
      { e with count := if e.number = n then countUp e.count else e.count } := by
  cases hn : p.find? n with
  | none =>
      have habsent : ∀ e ∈ p.lines, e.number ≠ n := fun e he hen => by
        cases hn.symm.trans (find?_eq_some_iff.2 ⟨he, hen⟩)
      rw [increment, hn, List.map_congr_left (g := id), List.map_id]
      intro e he
      rw [if_neg (habsent e he)]
      rfl
  | some e =>
      rw [increment_of_find? hn]
      refine List.map_congr_left fun f hf => ?_
      by_cases hfn : f.number = n
      · obtain rfl : e = f := Option.some.inj (hn.symm.trans (find?_eq_some_iff.2 ⟨hf, hfn⟩))
        rfl
      · dsimp only
        rw [if_neg hfn, if_neg hfn]

theorem countUp_eq_add_one {c : UInt32} (h : (countUp c).toNat = c.toNat + 1) :
    countUp c = c + 1 := by
  rw [countUp] at h ⊢
  split
  · next hmax =>
      rw [if_pos hmax] at h
      omega
  · rfl

theorem lines_increment_of_toNat_countUp {p : Program} {n : LineNumber}
    (h : ∀ e ∈ p.lines, e.number = n → (countUp e.count).toNat = e.count.toNat + 1) :
    (p.increment n).2.lines = p.lines.map fun e =>
      { e with count := if e.number = n then e.count + 1 else e.count } := by
  refine (p.lines_increment n).trans (List.map_congr_left fun e he => ?_)
  by_cases hen : e.number = n
  · rw [if_pos hen, if_pos hen, countUp_eq_add_one (h e he hen)]
  · rw [if_neg hen, if_neg hen]

end Program

namespace Machine

variable {m m' : Machine} {n : LineNumber}

/-- The messages that the machine has queued on its way to another one: if there is an error among
them, it is the only one, and nothing else has happened. -/
def Reports (m m' : Machine) : Prop :=
  ∃ new, m'.queue = m.queue ++ new ∧
    ∀ e, .error e ∈ new → new = [.error e] ∧ m' = { m with queue := m.queue ++ [.error e] }

theorem Reports.of_queue_eq (h : m'.queue = m.queue) : m.Reports m' :=
  ⟨[], h.trans (List.append_nil _).symm, nofun⟩

theorem Reports.message (m : Machine) (msg : Message) :
    m.Reports { m with queue := m.queue ++ [msg] } := by
  refine ⟨[msg], rfl, fun e he => ?_⟩
  obtain rfl := List.mem_singleton.1 he
  exact ⟨rfl, rfl⟩

theorem Complies.reports {c : Command} (h : m.Complies c m') : m.Reports m' := by
  cases h with
  | run | idle | clear => exact .of_queue_eq rfl
  | list =>
      refine ⟨m.program.lines.map fun e => .list e.line.text, rfl, fun e he => ?_⟩
      obtain ⟨_, _, h⟩ := List.mem_map.1 he
      cases h
  | quit => exact .message m _

theorem Obeys.reports {s : Statement} (h : m.Obeys s m') : m.Reports m' := by
  cases h with
  | assign | input => exact .of_queue_eq rfl
  | print | fault | illegal | halt => exact .message m _

theorem reports_answer (m : Machine) (x : String) (line : Option LineNumber) (s : String) :
    m.Reports (m.answer x line s) := by
  rw [answer]
  split
  · exact .message m _
  · cases line with
    | none => exact .of_queue_eq rfl
    | some n => exact .of_queue_eq (queue_advance _ n)

/-- Entering a text changes nothing if it is reported as an error. -/
theorem reports_enter (m : Machine) (s : String) : m.Reports (m.enter s).2 := by
  have h := m.enters s
  generalize m.enter s = r at h ⊢
  cases h with
  | answered => exact reports_answer m _ _ s
  | invalid | tooLong | refused | misread => exact .message m _
  | blank | bare | stored => exact .of_queue_eq rfl
  | command _ _ _ ho => exact ho.reports
  | direct _ _ _ _ _ ho => exact ho.reports

/-- What the machine is after a step on line `n` that has failed: it is stopped, and one more
attempt is counted if there is such a line. -/
structure FailsAt (m : Machine) (n : LineNumber) (m' : Machine) : Prop where
  control : m'.control = .stopped
  vars : m'.vars = m.vars
  queue : m'.queue = m.queue
  limit : m'.program.limit = m.program.limit
  lines : m'.program.lines =
    m.program.lines.map fun e => { e with count := if e.number = n then e.count + 1 else e.count }
  count : ∀ e ∈ m.program.lines, e.number = n → (e.count + 1).toNat = e.count.toNat + 1

theorem counted_of_missing (h : m.program.find? n = none) : m.counted n = m := by
  rw [counted, Program.increment, h]

theorem Coherent.failsAt_stop_counted (h : m.Coherent) (ha : m.Active) (n : LineNumber) :
    m.FailsAt n (m.counted n).stop := by
  have hup (e : StoredLine) (he : e ∈ m.program.lines) (hen : e.number = n) :
      (Program.countUp e.count).toNat = e.count.toNat + 1 :=
    h.toNat_countUp ha (Program.find?_eq_some_iff.2 ⟨he, hen⟩)
  refine ⟨rfl, rfl, rfl, limit_counted m n, Program.lines_increment_of_toNat_countUp hup,
    fun e he hen => ?_⟩
  rw [← Program.countUp_eq_add_one (hup e he hen)]
  exact hup e he hen

/-- A step that ends with an error is one of a running program. -/
theorem Coherent.failsAt_of_step {e : Error} (h : m.Coherent)
    (hs : m.step = (some (.message (.error e)), m')) :
    ∃ n jumped, m.control = .running n jumped ∧ m.FailsAt n m' := by
  cases failsStep_of_step hs with
  | @missing n hc hn =>
      have hfails := h.failsAt_stop_counted (.inl ⟨n, true, hc⟩) n
      rw [counted_of_missing hn] at hfails
      exact ⟨n, true, hc, hfails⟩
  | @exhausted n jumped _ hc | @fault n jumped _ _ hc =>
      exact ⟨n, jumped, hc, h.failsAt_stop_counted (.inl ⟨n, jumped, hc⟩) n⟩

theorem exists_step_of_run_message {cycles : Nat} {msg : Message}
    (h : m.run cycles = (.message msg, m')) :
    ∃ c x, c < cycles ∧ m.run c = (.running, x) ∧ x.step = (some (.message msg), m') := by
  obtain hev | ⟨hev, _⟩ | hstep := exists_step_of_run h
  · cases hev
  · cases hev
  · exact hstep

/-- Every error leaves the state as it was. If entering a text queues an error, it queues nothing
else and changes nothing else. If a program that is executed comes to an error, the step that fails
stops it and counts one attempt on its line, if there is one; all that the steps before it did
remains. And a statement that is executed in place and fails has not changed the variables. -/
theorem Reachable.errors_leave_state (h : m.Reachable) :
    (∀ s, ∃ new, (m.enter s).2.queue = m.queue ++ new ∧
      ∀ e, .error e ∈ new →
        new = [.error e] ∧ (m.enter s).2 = { m with queue := m.queue ++ [.error e] }) ∧
    (∀ cycles e m', m.queue = [] → m.execute cycles = (.message (.error e), m') →
      ∃ c x n jumped, c < cycles ∧ m.execute c = (.running, x) ∧
        x.control = .running n jumped ∧ x.step = (some (.message (.error e)), m') ∧
        x.FailsAt n m') ∧
    ∀ (st : Statement) p vars e vars', (st.executeInPlace p).run vars = .error e vars' ↔
      st.execute p vars = .error e ∧ vars' = vars := by
  refine ⟨fun s => reports_enter m s, fun cycles e m' hq hm' => ?_, fun st p vars e vars' => ?_⟩
  · rw [execute_of_queue_nil hq] at hm'
    obtain ⟨c, x, hlt, hrun, hx⟩ := exists_step_of_run_message hm'
    have hexecute : m.execute c = (.running, x) := (execute_of_queue_nil hq c).trans hrun
    have hreachable := h.execute c
    rw [hexecute] at hreachable
    obtain ⟨n, jumped, hc, hfails⟩ := hreachable.coherent.failsAt_of_step hx
    exact ⟨c, x, n, jumped, hlt, hexecute, hc, hx, hfails⟩
  · rw [Statement.run_executeInPlace]
    exact settled_eq_error_iff

/-- A division by zero fails in a direct line, and in the second line of a program, where the
first one has taken effect. -/
theorem errors_leave_state_of_division :
    let m := (((Machine.new 5).enter "10 LET X = 1").2.enter "20 PRINT X / 0").2
    let m₁ := (m.enter "RUN").2
    let e := EvalFault.divisionByZero.toError
    m₁.Reachable ∧ m₁.queue = [] ∧ (m₁.enter "LET Y = 1 / 0").2.queue = [.error e] ∧
      (m₁.enter "LET Y = 1 / 0").2 = { m₁ with queue := m₁.queue ++ [.error e] } ∧
      (m₁.execute 9).1 = .message (.error e) ∧ (m₁.execute 9).2.vars.fetch? "X" = some 1 ∧
      ∃ c x n jumped, c < 9 ∧ m₁.execute c = (.running, x) ∧ x.control = .running n jumped ∧
        x.step = (some (.message (.error e)), (m₁.execute 9).2) ∧ x.FailsAt n (m₁.execute 9).2 := by
  intro m m₁ e
  have hm : m₁.Reachable := (((Reachable.new 5).enter _).enter _).enter _
  have hq : m₁.queue = [] := by decide +kernel
  have hdirect : (m₁.enter "LET Y = 1 / 0").2.queue = [.error e] := by decide +kernel
  have hprogram : (m₁.execute 9).1 = .message (.error e) := by decide +kernel
  obtain ⟨henter, hexecute, _⟩ := Reachable.errors_leave_state hm
  obtain ⟨new, hnew, herror⟩ := henter "LET Y = 1 / 0"
  rw [hdirect, hq, List.nil_append] at hnew
  refine ⟨hm, hq, hdirect, (herror e (hnew ▸ List.mem_singleton_self _)).2, hprogram,
    by decide +kernel, hexecute 9 e _ hq (Prod.ext hprogram rfl)⟩

end Machine

end IntegerBasic
