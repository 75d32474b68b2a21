import IntegerBasic.Proofs.Machine.Failing
import IntegerBasic.Proofs.Machine.Listing

/-!
# Steps and statements executed on their own

A statement that is executed on its own looks up the target of its jump first and decides then
whether to jump; a step of a running program decides first, and a missing line shows one step later.
`Does m n r s` says that `s` is a step on line `n` that does what an outcome `r` of the statement
asks for, and has counted one attempt.

The main statement is that a step does what the statement does on its own, if there is no line for
the statement to miss; and what becomes of a step otherwise.
-/

namespace IntegerBasic

namespace Statement

/-- With these variables, the statement jumps to a line. -/
inductive JumpsTo (vars : Variables) (t : LineNumber) : Statement → Prop
  | goto : JumpsTo vars t (.goto t)
  | branch {l r : Expr} {rel : Relation}
      (h : (Statement.branch l rel r t).condition vars = .ok true) :
      JumpsTo vars t (.branch l rel r t)

variable {p : Program} {vars vars' : Variables} {s : Statement} {t : LineNumber}

theorem JumpsTo.flow_eq (h : s.JumpsTo vars t) (p : Program) :
    s.flow p vars = .ok (.jump t, vars) := by
  cases h with
  | goto => rfl
  | branch h => rw [flow, h]

theorem jumpsTo_of_flow (h : s.flow p vars = .ok (.jump t, vars')) :
    s.JumpsTo vars t ∧ vars' = vars := by
  cases s with
  | input | remark | halt => cases h
  | assign x e | print e =>
      rw [flow, execute] at h
      split at h <;> cases h
  | goto n =>
      cases h
      exact ⟨.goto, rfl⟩
  | branch l rel r n =>
      rw [flow] at h
      split at h
      · cases h
      · next hc =>
          cases h
          exact ⟨.branch hc, rfl⟩
      · cases h

/-- A statement executed on its own differs from one of a running program only by its look at the
target. -/
theorem flow_eq_execute (h : ∀ t, s.target? = some t → p.contains t = true) (vars : Variables) :
    s.flow p vars = s.execute p vars := by
  cases s with
  | assign | print | input | remark | halt => rfl
  | goto n => rw [flow, execute, if_pos (h n rfl)]
  | branch l rel r n => rw [flow, execute, if_pos (h n rfl)]

theorem execute_of_missing (ht : s.target? = some t) (h : p.contains t = false)
    (vars : Variables) : s.execute p vars = .error .missingLine := by
  have hn : ¬ p.contains t = true := ne_true_of_eq_false h
  cases s with
  | assign | print | input | remark | halt => cases ht
  | goto n | branch l rel r n =>
      cases ht
      rw [execute, if_neg hn]

end Statement

namespace Machine

/-- What comes after line `n`: the least line of the program above it, or nothing after the last
one. -/
inductive GoesOn (p : Program) (n : LineNumber) : Control → Prop
  | next {k : LineNumber} (hk : p.contains k = true) (hlt : n < k)
      (hleast : ∀ j, p.contains j = true → n < j → k ≤ j) : GoesOn p n (.running k false)
  | last (h : ∀ j, p.contains j = true → ¬ n < j) : GoesOn p n .stopped

/-- What a machine has become by an attempt on line `n` that has left these variables and what is to
be done next. Nothing else has changed. -/
structure Leaves (m : Machine) (n : LineNumber) (vars : Variables) (c : Control) (m' : Machine) :
    Prop where
  lines : m'.program.lines =
    m.program.lines.map fun e => { e with count := if e.number = n then e.count + 1 else e.count }
  count : ∀ e ∈ m.program.lines, e.number = n → (e.count + 1).toNat = e.count.toNat + 1
  limit : m'.program.limit = m.program.limit
  queue : m'.queue = m.queue
  vars : m'.vars = vars
  control : m'.control = c

/-- A step on line `n` does what an outcome of its statement asks for. -/
inductive Does (m : Machine) (n : LineNumber) :
    EStateM.Result Error Variables Flow → Option Event × Machine → Prop
  | next {vars : Variables} {c : Control} {m' : Machine} (hc : GoesOn m.program n c)
      (h : Leaves m n vars c m') : Does m n (.ok .next vars) (none, m')
  | print {s : String} {vars : Variables} {c : Control} {m' : Machine}
      (hc : GoesOn m.program n c) (h : Leaves m n vars c m') :
      Does m n (.ok (.print s) vars) (some (.message (.print s)), m')
  | input {x : String} {vars : Variables} {m' : Machine}
      (h : Leaves m n vars (.awaiting x (some n)) m') :
      Does m n (.ok (.input x) vars) (some (.input " ? "), m')
  | jump {t : LineNumber} {vars : Variables} {m' : Machine}
      (h : Leaves m n vars (.running t true) m') : Does m n (.ok (.jump t) vars) (none, m')
  | halt {vars : Variables} {m' : Machine} (h : Leaves m n vars .stopped m') :
      Does m n (.ok .halt vars) (none, m')
  | error {err : Error} {vars : Variables} {m' : Machine} (h : Leaves m n vars .stopped m') :
      Does m n (.error err vars) (some (.message (.error err)), m')

variable {m m' : Machine} {n t : LineNumber} {jumped : Bool} {e : StoredLine} {c : Control}
  {vars : Variables}

theorem Leaves.contains_eq (h : m.Leaves n vars c m') (k : LineNumber) :
    m'.program.contains k = m.program.contains k := by
  rw [Bool.eq_iff_iff, Program.contains_iff, Program.contains_iff, h.lines]
  simp only [List.mem_map, exists_exists_and_eq_and]

theorem advance_eq (m : Machine) (n : LineNumber) :
    ∃ c, GoesOn m.program n c ∧ m.advance n = { m with control := c } := by
  rw [advance]
  cases hn : m.program.next? n with
  | none => exact ⟨_, .last (Program.next?_eq_none_iff.1 hn), rfl⟩
  | some k =>
      obtain ⟨hk, hlt, hleast⟩ := Program.next?_eq_some_iff.1 hn
      exact ⟨_, .next hk hlt hleast, rfl⟩

theorem GoesOn.of_contains_eq {p q : Program} (h : GoesOn p n c)
    (hpq : ∀ k, p.contains k = q.contains k) : GoesOn q n c := by
  cases h with
  | next hk hlt hleast =>
      simp only [hpq] at hk hleast
      exact .next hk hlt hleast
  | last h =>
      simp only [hpq] at h
      exact .last h

section

variable (hn : m.program.find? n = some e) (hl : e.count.toNat + 1 < m.program.limit.toNat)

include hn hl

theorem leaves_counted (vars : Variables) (c : Control) :
    m.Leaves n vars c { m.counted n with vars := vars, control := c } := by
  have hup (f : StoredLine) (hf : f ∈ m.program.lines) (hfn : f.number = n) :
      (Program.countUp f.count).toNat = f.count.toNat + 1 := by
    have hmax := m.program.limit.toNat_lt
    obtain rfl : f = e :=
      Option.some.inj ((Program.find?_eq_some_iff.2 ⟨hf, hfn⟩).symm.trans hn)
    rw [Program.toNat_countUp]
    omega
  refine ⟨Program.lines_increment_of_toNat_countUp hup, fun f hf hfn => ?_, limit_counted m n, rfl,
    rfl, rfl⟩
  rw [← Program.countUp_eq_add_one (hup f hf hfn)]
  exact hup f hf hfn

theorem goesOn_advance_counted (vars : Variables) : ∃ c, GoesOn m.program n c ∧
    { m.counted n with vars := vars }.advance n =
      { m.counted n with vars := vars, control := c } := by
  obtain ⟨c, hc, hadvance⟩ := advance_eq { m.counted n with vars := vars } n
  exact ⟨c, hc.of_contains_eq (leaves_counted hn hl vars c).contains_eq, hadvance⟩

/-- A step does what the statement does that it executes. -/
theorem does_stepAt (jumped : Bool) :
    m.Does n (settled m.vars (e.statement.flow m.program m.vars)) (m.stepAt n jumped) := by
  have hlt : Program.countUp e.count < m.program.limit := by
    have hmax := m.program.limit.toNat_lt
    rw [UInt32.lt_iff_toNat_lt, Program.toNat_countUp]
    omega
  rw [stepAt_of_lt_limit hn hlt]
  cases hf : e.statement.flow m.program m.vars with
  | error err =>
      rw [perform_counted_of_error hf]
      exact .error (leaves_counted hn hl m.vars .stopped)
  | ok r =>
      obtain ⟨f, vars⟩ := r
      rw [perform_counted_of_ok hf]
      obtain ⟨c, hc, hadvance⟩ := goesOn_advance_counted hn hl vars
      have hleaves (c : Control) := leaves_counted hn hl vars c
      cases f with
      | next =>
          rw [follow, hadvance]
          exact .next hc (hleaves c)
      | print s =>
          rw [follow, hadvance]
          exact .print hc (hleaves c)
      | input x => exact .input (hleaves _)
      | jump t => exact .jump (hleaves _)
      | halt => exact .halt (hleaves _)

end

theorem step_of_missing_target (hc : m.control = .running t true)
    (h : m.program.contains t = false) :
    m.step = (some (.message (.error .missingLine)), { m with control := .stopped }) := by
  have hfind : m.program.find? t = none :=
    Option.isNone_iff_eq_none.1 (Option.isSome_eq_false_iff.1 h)
  rw [step, hc]
  dsimp only
  rw [stepAt, hfind]
  rfl

/-- A step of a running program on a line whose count is at least two below the limit. If the
statement of the line has no target, or its target is a line of the program, the step does what the
statement does that is executed on its own. Otherwise the statement fails on its own; but the step
jumps, if the statement does, and changes nothing by that, and then the next step fails with the
same error and just stops. If the condition of the statement is false, the step goes on; if it
cannot be evaluated, the step fails with the fault of the condition. -/
theorem step_does_execute (hc : m.control = .running n jumped)
    (hn : m.program.find? n = some e) (hl : e.count.toNat + 1 < m.program.limit.toNat) :
    ((∀ t, e.statement.target? = some t → m.program.contains t = true) →
      m.Does n ((e.statement.executeInPlace m.program).run m.vars) m.step) ∧
    ∀ t, e.statement.target? = some t → m.program.contains t = false →
      (e.statement.executeInPlace m.program).run m.vars = .error .missingLine m.vars ∧
      (e.statement.JumpsTo m.vars t → ∃ m', m.step = (none, m') ∧
        m.Leaves n m.vars (.running t true) m' ∧
        m'.step = (some (.message (.error .missingLine)), { m' with control := .stopped })) ∧
      ∀ l rel r, e.statement = .branch l rel r t →
        (e.statement.condition m.vars = .ok false → ∃ c m', m.step = (none, m') ∧
          GoesOn m.program n c ∧ m.Leaves n m.vars c m') ∧
        ∀ f, e.statement.condition m.vars = .error f → ∃ m',
          m.step = (some (.message (.error f.toError)), m') ∧ m.Leaves n m.vars .stopped m' := by
  have hdoes : m.Does n (settled m.vars (e.statement.flow m.program m.vars)) m.step := by
    rw [step, hc]
    exact does_stepAt hn hl jumped
  refine ⟨fun h => ?_, fun t ht h => ⟨?_, fun hjumps => ?_, fun l rel r hs => ⟨fun hfalse => ?_,
    fun f hfault => ?_⟩⟩⟩
  · rwa [Statement.run_executeInPlace, ← Statement.flow_eq_execute h]
  · rw [Statement.run_executeInPlace, Statement.execute_of_missing ht h]
    rfl
  · rw [hjumps.flow_eq] at hdoes
    generalize m.step = s at hdoes
    cases hdoes with
    | @jump _ _ m' hleaves =>
        have hmissing : m'.program.contains t = false := (hleaves.contains_eq t).trans h
        exact ⟨m', rfl, hleaves, step_of_missing_target hleaves.control hmissing⟩
  · have hflow : e.statement.flow m.program m.vars = .ok (.next, m.vars) := by
      rw [hs] at hfalse ⊢
      rw [Statement.flow, hfalse]
    rw [hflow] at hdoes
    generalize m.step = s at hdoes
    cases hdoes with
    | next hc hleaves => exact ⟨_, _, rfl, hc, hleaves⟩
  · have hflow : e.statement.flow m.program m.vars = .error f.toError := by
      rw [hs] at hfault ⊢
      rw [Statement.flow, hfault]
    rw [hflow] at hdoes
    generalize m.step = s at hdoes
    cases hdoes with
    | error hleaves => exact ⟨_, rfl, hleaves⟩

/-- A value is stored, and then a line is missing that is to be executed if the value is there. -/
theorem step_does_execute_of_missing_target :
    let m := (new 3).enterAll ["10 LET A = 1", "20 IF A = 1 THEN 99", "RUN"]
    let s₁ := Statement.assign "A" (.int 1)
    let s₂ := Statement.branch (.var "A") .equal (.int 1) 99
    let m₁ := m.step.2
    m.Does 10 ((s₁.executeInPlace m.program).run m.vars) m.step ∧
    (s₂.executeInPlace m₁.program).run m₁.vars = .error .missingLine m₁.vars ∧
    ∃ m₂, m₁.step = (none, m₂) ∧ m₁.Leaves 20 m₁.vars (.running 99 true) m₂ ∧
      m₂.step = (some (.message (.error .missingLine)), { m₂ with control := .stopped }) := by
  intro m s₁ s₂ m₁
  have hn : m.program.find? 10 = some ⟨10, Line.ofText "10 LET A = 1", s₁, 0⟩ := by
    decide +kernel
  have hn₁ : m₁.program.find? 20 = some ⟨20, Line.ofText "20 IF A = 1 THEN 99", s₂, 0⟩ := by
    decide +kernel
  have hc : m.control = .running 10 false := by decide +kernel
  have hc₁ : m₁.control = .running 20 false := by decide +kernel
  have hl : m.program.limit.toNat = 3 := by decide +kernel
  have hl₁ : m₁.program.limit.toNat = 3 := by decide +kernel
  have hjumps : s₂.JumpsTo m₁.vars 99 := .branch (by decide +kernel)
  obtain ⟨hstored, _⟩ := step_does_execute hc hn (hl ▸ by decide)
  obtain ⟨_, hmissing⟩ := step_does_execute hc₁ hn₁ (hl₁ ▸ by decide)
  obtain ⟨hfails, hjump, _⟩ := hmissing 99 rfl (by decide +kernel)
  exact ⟨hstored nofun, hfails, hjump hjumps⟩

end Machine

end IntegerBasic
