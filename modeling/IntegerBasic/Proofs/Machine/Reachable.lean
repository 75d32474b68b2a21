import IntegerBasic.Proofs.Machine.Step

/-!
# Reachable machines

A machine is reachable if it comes from a new one by entering texts, executing,
interrupting, and setting programs that were built line by line. `Coherent` is what holds of
all of them: it ties together the program, its counts, the control and the queue.

Each operation is shown to keep it; the main statement is that it holds of every reachable
machine.
-/

namespace IntegerBasic

namespace Program

inductive Built : Program → Prop
  | empty (limit : UInt32) : Built (.empty limit)
  | insert {p q : Program} {l : Line} {old : Option Line} (h : Built p)
      (hi : p.insert l = .ok (old, q)) : Built q
  | load {p q : Program} {s : String} (h : Built p) (hl : p.load s = .ok q) : Built q

/-- A line stored under a number has that number, and says the statement stored with it. -/
def Sound (n : LineNumber) (e : StoredLine) : Prop :=
  (1 ≤ n.toNat ∧ n.toNat ≤ 4294967295) ∧ e.number = n ∧ e.line.number = some n ∧
    e.line.statement = .ok e.statement

theorem admits_sound : Admits Sound := by
  intro n l s hn hz hs
  have hpos : n.toNat ≠ 0 := fun h => hz (UInt32.toNat_inj.1 h)
  have hlt := n.toNat_lt
  exact ⟨⟨Nat.one_le_iff_ne_zero.2 hpos, by omega⟩, rfl, hn, hs⟩

theorem Built.each {p : Program} (h : Built p) {P : LineNumber → StoredLine → Prop}
    (hP : Admits P) : p.Each P := by
  induction h with
  | empty limit => exact each_empty limit
  | insert _ hi ih => exact ih.insert hP hi
  | load _ hl ih => exact ih.load hP hl

/-- The greatest count that a line can have. -/
def ceiling (p : Program) : Nat :=
  max p.limit.toNat 1

theorem ceiling_pos (p : Program) : 0 < p.ceiling :=
  Nat.lt_of_lt_of_le Nat.one_pos (Nat.le_max_right _ _)

theorem toNat_countUp_le (c : UInt32) : (countUp c).toNat ≤ c.toNat + 1 := by
  rw [toNat_countUp]
  exact Nat.min_le_left _ _

end Program

namespace Machine

inductive Reachable : Machine → Prop
  | new (limit : UInt32) : Reachable (.new limit)
  | enter {m : Machine} (h : Reachable m) (s : String) : Reachable (m.enter s).2
  | execute {m : Machine} (h : Reachable m) (cycles : Nat) : Reachable (m.execute cycles).2
  | interrupt {m : Machine} (h : Reachable m) : Reachable m.interrupt
  | setProgram {m : Machine} (h : Reachable m) {p : Program} (hp : p.Built) :
      Reachable (m.setProgram p)

/-- The machine runs its program, or awaits a value on behalf of a line of it. -/
def Active (m : Machine) : Prop :=
  (∃ n jumped, m.control = .running n jumped) ∨ ∃ x n, m.control = .awaiting x (some n)

structure Coherent (m : Machine) : Prop where
  stored : m.program.Each Program.Sound
  awaiting : ∀ x n, m.control = .awaiting x (some n) →
    ∃ e, m.program.find? n = some e ∧ e.statement = .input x
  queued : ∀ ev ∈ m.queue.map Event.message, (∃ t, ev = .message (.print t)) ∨
    (∃ t, ev = .message (.list t)) ∨ (∃ e, ev = .message (.error e)) ∨ ev = .message .quit
  active : m.Active → m.program.Each fun _ e => e.count.toNat < m.program.ceiling
  counts : m.program.Each fun _ e => e.count.toNat ≤ m.program.ceiling

theorem queued_of_messages (queue : List Message) : ∀ ev ∈ queue.map Event.message,
    (∃ t, ev = .message (.print t)) ∨ (∃ t, ev = .message (.list t)) ∨
      (∃ e, ev = .message (.error e)) ∨ ev = .message .quit := by
  intro ev hev
  rcases List.mem_map.1 hev with ⟨msg, _, rfl⟩
  cases msg with
  | print t => exact .inl ⟨t, rfl⟩
  | list t => exact .inr (.inl ⟨t, rfl⟩)
  | error e => exact .inr (.inr (.inl ⟨e, rfl⟩))
  | quit => exact .inr (.inr (.inr rfl))

namespace Coherent

variable {m m' : Machine} {n : LineNumber}

theorem of_program_eq (h : m.Coherent) (hp : m'.program = m.program) (ha : m'.Active → m.Active)
    (hw : ∀ x n, m'.control = .awaiting x (some n) → m.control = .awaiting x (some n)) :
    m'.Coherent where
  stored := hp ▸ h.stored
  awaiting x n hc := hp ▸ h.awaiting x n (hw x n hc)
  queued := queued_of_messages m'.queue
  active hm := hp ▸ h.active (ha hm)
  counts := hp ▸ h.counts

theorem of_control_eq (h : m.Coherent) (hp : m'.program = m.program)
    (hc : m'.control = m.control) : m'.Coherent := by
  refine h.of_program_eq hp (fun ha => ?_) fun x n hw => hc ▸ hw
  rw [Active, hc] at ha
  exact ha

theorem not_active_of_stopped (hc : m.control = .stopped) : ¬ m.Active := by
  rw [Active, hc]
  rintro (⟨_, _, h⟩ | ⟨_, _, h⟩) <;> cases h

theorem of_stopped (h : m.Coherent) (hp : m'.program = m.program) (hc : m'.control = .stopped) :
    m'.Coherent :=
  h.of_program_eq hp (fun ha => absurd ha (not_active_of_stopped hc)) fun x n hw => by
    rw [hc] at hw
    cases hw

theorem of_running (h : m.Coherent) (ha : m.Active) (hp : m'.program = m.program)
    {jumped : Bool} (hc : m'.control = .running n jumped) : m'.Coherent :=
  h.of_program_eq hp (fun _ => ha) fun x n hw => by
    rw [hc] at hw
    cases hw

/-- Changing lines of the program keeps the parts together while none is awaiting a value. -/
theorem of_edit (h : m.Coherent) (hw : ∀ x l, m.control ≠ .awaiting x l) {p : Program}
    (hl : p.limit = m.program.limit)
    (he : ∀ P, Program.Admits P → m.program.Each P → p.Each P) :
    Coherent { m with program := p } where
  stored := he _ Program.admits_sound h.stored
  awaiting x n hx := absurd hx (hw x _)
  queued := h.queued
  active ha := by
    rw [Program.ceiling, hl]
    exact he _ (fun _ _ _ _ _ _ => m.program.ceiling_pos) (h.active ha)
  counts := by
    rw [Program.ceiling, hl]
    exact he _ (fun _ _ _ _ _ _ => Nat.zero_le _) h.counts

theorem of_resetCounts (h : m.Coherent) (hp : m'.program = m.program.resetCounts)
    (hw : ∀ x l, m'.control ≠ .awaiting x l) : m'.Coherent := by
  have hzero : m'.program.Each fun _ e => e.count.toNat = 0 := by
    intro n e hn
    rw [hp, Program.find?_resetCounts, Option.map_eq_some_iff] at hn
    obtain ⟨f, _, rfl⟩ := hn
    rfl
  refine ⟨?_, fun x n hx => absurd hx (hw x _), queued_of_messages _, fun _ n e hn => ?_,
    fun n e hn => ?_⟩
  · rw [hp]
    exact h.stored.resetCounts fun _ _ he => he
  · exact Nat.lt_of_le_of_lt (Nat.le_of_eq (hzero n e hn)) m'.program.ceiling_pos
  · exact Nat.le_trans (Nat.le_of_eq (hzero n e hn)) (Nat.zero_le _)

theorem post (h : m.Coherent) (msg : Message) : (m.post msg).Coherent :=
  h.of_control_eq rfl rfl

theorem stop (h : m.Coherent) : m.stop.Coherent :=
  h.of_stopped rfl rfl

theorem advance (h : m.Coherent) (ha : m.Active) (n : LineNumber) : (m.advance n).Coherent := by
  rw [Machine.advance]
  split
  · exact h.of_running ha rfl rfl
  · exact h.stop

theorem answer (h : m.Coherent) {x : String} {l : Option LineNumber}
    (hc : m.control = .awaiting x l) (s : String) : (m.answer x l s).Coherent := by
  rw [Machine.answer]
  split
  · exact h.post _
  · next v _ =>
      have hstore : Coherent { m with vars := m.vars.store x v } := h.of_control_eq rfl rfl
      cases l with
      | none => exact hstore.stop
      | some n => exact hstore.advance (.inr ⟨x, n, hc⟩) n

theorem executeDirect (h : m.Coherent) (s : Statement) : (m.executeDirect s).Coherent := by
  have hs := m.obeys_executeDirect s
  generalize m.executeDirect s = m' at hs ⊢
  cases hs with
  | assign => exact h.of_control_eq rfl rfl
  | print | fault | illegal | halt => exact h.post _
  | input =>
      refine h.of_program_eq rfl (fun ha => ?_) fun x n hx => by cases hx
      rcases ha with ⟨_, _, hc⟩ | ⟨_, _, hc⟩ <;> cases hc

section

variable (hw : ∀ x l, m.control ≠ .awaiting x l)

include hw

theorem obey (h : m.Coherent) (c : Command) : (m.obey c).Coherent := by
  cases c with
  | run =>
      rw [Machine.obey]
      dsimp only
      split
      · exact h.of_resetCounts rfl (fun x l => Control.noConfusion)
      · exact h.of_resetCounts rfl hw
  | list => exact h.of_control_eq rfl rfl
  | clear =>
      have hclear := h.of_edit (p := m.program.clear) hw rfl fun P _ _ => m.program.each_clear
      exact hclear.of_control_eq rfl rfl
  | quit => exact h.post _

theorem enterNumbered (h : m.Coherent) (l : Line) : (m.enterNumbered l).Coherent := by
  rw [Machine.enterNumbered]
  split
  · exact h.post _
  · next p hi => exact h.of_edit hw (Program.limit_insert hi) fun P hP hm => hm.insert hP hi

theorem enterDirect (h : m.Coherent) (l : Line) : (m.enterDirect l).Coherent := by
  rw [Machine.enterDirect]
  split
  · exact h.obey hw _
  · split
    · exact h.post _
    · exact h.executeDirect _

theorem enterLine (h : m.Coherent) (s : String) : (m.enterLine s).2.Coherent := by
  rw [Machine.enterLine]
  dsimp only
  split
  · split
    · split
      · next n _ => exact h.of_edit hw rfl fun P _ hm => hm.erase n
      · exact h
    · split
      · exact h.enterDirect hw _
      · exact h.enterNumbered hw _
  · exact h.post _

end

theorem enter (h : m.Coherent) (s : String) : (m.enter s).2.Coherent := by
  rw [Machine.enter]
  split
  · next x l hc => exact h.answer hc s
  · next hw => exact h.enterLine hw s

theorem ceiling_counted (m : Machine) (n : LineNumber) :
    (m.counted n).program.ceiling = m.program.ceiling := by
  rw [Program.ceiling, limit_counted, Program.ceiling]

theorem stored_counted (h : m.Coherent) (n : LineNumber) :
    (m.counted n).program.Each Program.Sound :=
  h.stored.increment fun _ _ he => he

theorem counts_counted (h : m.Coherent) (ha : m.Active) (n : LineNumber) :
    (m.counted n).program.Each fun _ e => e.count.toNat ≤ (m.counted n).program.ceiling := by
  rw [ceiling_counted]
  refine h.counts.increment fun e hn _ => ?_
  exact Nat.le_trans (Program.toNat_countUp_le e.count) (h.active ha n e hn)

theorem stop_counted (h : m.Coherent) (ha : m.Active) (n : LineNumber) :
    (m.counted n).stop.Coherent :=
  ⟨h.stored_counted n, nofun, h.queued, fun hs => absurd hs (not_active_of_stopped rfl),
    h.counts_counted ha n⟩

/-- Counting an attempt below the limit keeps the parts together. -/
theorem counted (h : m.Coherent) {jumped : Bool} (hc : m.control = .running n jumped)
    {e : StoredLine} (hn : m.program.find? n = some e)
    (hl : Program.countUp e.count < m.program.limit) : (m.counted n).Coherent := by
  have ha : m.Active := .inl ⟨n, jumped, hc⟩
  refine ⟨h.stored_counted n, fun x k hx => ?_, h.queued, fun _ => ?_, h.counts_counted ha n⟩
  · rw [control_counted, hc] at hx
    cases hx
  · rw [ceiling_counted]
    refine (h.active ha).increment fun e' hn' _ => ?_
    obtain rfl : e = e' := Option.some.inj (hn.symm.trans hn')
    exact Nat.lt_of_lt_of_le (UInt32.lt_iff_toNat_lt.1 hl) (Nat.le_max_left _ _)

theorem follow (h : m.Coherent) (ha : m.Active) {f : Flow}
    (hf : ∀ x, f = .input x → ∃ e, m.program.find? n = some e ∧ e.statement = .input x) :
    (m.follow n f).2.Coherent := by
  cases f with
  | next => exact h.advance ha n
  | print t => exact h.advance ha n
  | input x =>
      refine ⟨h.stored, fun y k hy => ?_, h.queued, fun _ => h.active ha, h.counts⟩
      cases hy
      exact hf x rfl
  | jump t => exact h.of_running ha rfl rfl
  | halt => exact h.stop

theorem step (h : m.Coherent) : m.step.2.Coherent := by
  rw [Machine.step]
  split
  · exact h
  · exact h
  · next n jumped hc =>
      have ha : m.Active := .inl ⟨n, jumped, hc⟩
      have hs := m.stepsAt n jumped
      generalize m.stepAt n jumped = r at hs ⊢
      cases hs with
      | missing | finished => exact h.stop
      | exhausted | fault => exact h.stop_counted ha n
      | @follow e f vars hn hl hf =>
          have hcounted := h.counted hc hn hl
          have hvars : Coherent { m.counted n with vars := vars } :=
            hcounted.of_control_eq rfl rfl
          refine hvars.follow ha fun x hx => ?_
          subst hx
          refine ⟨{ e with count := Program.countUp e.count }, ?_, statement_of_flow_input hf⟩
          simp [Machine.counted, Program.find?_increment, hn]

theorem execute (h : m.Coherent) (cycles : Nat) : (m.execute cycles).2.Coherent :=
  execute_preserves (fun _ hm => hm.step) (fun _ _ _ _ hm => hm.of_control_eq rfl rfl) cycles h

theorem interrupt (h : m.Coherent) : m.interrupt.Coherent := by
  rw [Machine.interrupt]
  split
  · exact h
  · exact h.stop.post _

theorem setProgram (h : m.Coherent) {p : Program} (hp : p.Built) :
    (m.setProgram p).Coherent :=
  ⟨hp.each Program.admits_sound, nofun, h.queued,
    fun hs => absurd hs (not_active_of_stopped rfl), hp.each fun _ _ _ _ _ _ => Nat.zero_le _⟩

theorem new (limit : UInt32) : (Machine.new limit).Coherent :=
  ⟨Program.each_empty limit, nofun, nofun, fun _ => Program.each_empty limit,
    Program.each_empty limit⟩

end Coherent

/-- The parts of every reachable machine fit together. -/
theorem Reachable.coherent {m : Machine} (h : m.Reachable) : m.Coherent := by
  induction h with
  | new limit => exact .new limit
  | enter _ s ih => exact ih.enter s
  | execute _ cycles ih => exact ih.execute cycles
  | interrupt _ ih => exact ih.interrupt
  | setProgram _ hp ih => exact ih.setProgram hp

/-- A machine that awaits a value on behalf of line 10 is reachable. -/
theorem coherent_of_awaiting_line :
    (((Machine.new 3).enter "10 INPUT X").2.enter "RUN").2.Reachable ∧
      ((((Machine.new 3).enter "10 INPUT X").2.enter "RUN").2.execute 5).2.control =
        .awaiting "X" (some 10) ∧
      ((((Machine.new 3).enter "10 INPUT X").2.enter "RUN").2.execute 5).2.Coherent := by
  have h := ((Reachable.new 3).enter "10 INPUT X").enter "RUN"
  exact ⟨h, by decide +kernel, Reachable.coherent (h.execute 5)⟩

end Machine

end IntegerBasic
