import IntegerBasic.Proofs.Machine.Attempts
import IntegerBasic.Proofs.Session.Prompts

/-!
# An interrupt while a text is printed

`interruptAt k` lets the user interrupt a session at its print with the number `k`. The session is
compared with the one in which this does not happen: up to that print both are `Alike`, and after it
they still are if the machine is stopped by then. Otherwise the session breaks off: `BreaksOff` says
that it shows the interrupt and reads a line, and that nothing else happens before.

The machine has nothing left to tell while it is active and something is printed; `Settled` is what
holds of it at the beginning of each turn.
-/

namespace IntegerBasic

def Entry.isPrint : Entry → Bool
  | .print _ => true
  | .read _ | .error _ | .history _ => false

def Console.interruptAt (c : Console) (k : Nat) : Console :=
  { c with
    onPrint := fun n => { c.onPrint n with interrupts := n = k || (c.onPrint n).interrupts } }

namespace Machine

variable {m : Machine}

/-- A machine that is active has nothing to tell, except that an answer was no number. -/
def Settled (m : Machine) : Prop :=
  m.control = .stopped ∨ m.queue = [] ∨
    (∃ x line, m.control = .awaiting x line) ∧ m.queue = [.print "INVALID NUMBER\n"]

theorem control_interrupt (m : Machine) : m.interrupt.control = .stopped := by
  rw [interrupt]
  split
  · assumption
  · rfl

theorem interrupt_of_stopped (h : m.control = .stopped) : m.interrupt = m := by
  rw [interrupt, h]

theorem interrupt_of_not_stopped (h : m.control ≠ .stopped) :
    m.interrupt = m.stop.post (.error .interrupt) := by
  rw [interrupt]
  split
  · next hc => exact absurd hc h
  · rfl

theorem Obeys.stopped_or {s : Statement} {m' : Machine} (h : m.Obeys s m')
    (hc : m.control = .stopped) (hq : m.queue = []) : m'.control = .stopped ∨ m'.queue = [] := by
  cases h with
  | assign | print | fault | illegal | halt => exact .inl hc
  | input => exact .inr hq

/-- A line that is entered while the machine is stopped and has nothing to tell gives it something
to tell or something to do, but not both. -/
theorem stopped_or_of_enter (hc : m.control = .stopped) (hq : m.queue = []) (s : String) :
    (m.enter s).2.control = .stopped ∨ (m.enter s).2.queue = [] := by
  have h := m.enters s
  generalize m.enter s = r at h ⊢
  cases h with
  | answered hw | invalid hw => cases hc.symm.trans hw
  | tooLong | blank | bare | refused | stored | misread => exact .inl hc
  | direct _ _ _ _ _ ho => exact ho.stopped_or hc hq
  | command _ _ _ ho =>
      cases ho with
      | run => exact .inr hq
      | idle | list | clear | quit => exact .inl hc

theorem settled_of_answer {x : String} {line : Option LineNumber}
    (hc : m.control = .awaiting x line) (hq : m.queue = []) (s : String) : (m.enter s).2.Settled := by
  rw [enter_of_awaiting hc]
  cases hv : Value.ofAnswer? s with
  | none =>
      rw [answer_of_invalid hv]
      exact .inr (.inr ⟨⟨x, line, hc⟩, by rw [post, hq]; rfl⟩)
  | some v => exact .inr (.inl ((vars_and_queue_answer hv line).2.trans hq))

theorem Settled.stopped_or_of_execute (h : m.Settled) (cycles : Nat) :
    (m.execute cycles).2.control = .stopped ∨ (m.execute cycles).2.queue = [] := by
  cases hq : m.queue with
  | nil =>
      rw [execute_of_queue_nil hq, queue_run]
      exact .inr hq
  | cons msg rest =>
      rw [execute_of_queue_cons hq]
      rcases h with hc | hnil | ⟨_, hone⟩
      · exact .inl hc
      · cases hq.symm.trans hnil
      · cases hq.symm.trans hone
        exact .inr rfl

theorem attempts_of_stopped (h : m.control = .stopped) (cycles : Nat) : m.attempts cycles = [] := by
  cases cycles with
  | zero => rfl
  | succ cycles =>
      rw [attempts, attempt?, h, step, h]
      rfl

end Machine

namespace Session

variable {s s' t u u' : Session} {turns : List Session} {k : Nat} {text : String}
  {es before : List Entry}

def interruptAt (s : Session) (k : Nat) : Session :=
  { s with console := s.console.interruptAt k }

/-- A session that comes to its print with the number `k`: it has logged `before` until then, prints
the text, and goes on as `u`. -/
def PrintsAt (s : Session) (k : Nat) (before : List Entry) (text : String) (u : Session) : Prop :=
  s.console.prints + before.countP Entry.isPrint + 1 = k ∧
    ∃ turns t, s.Passes turns t ∧ turns.flatMap entries = before ∧ t.turn = .next [.print text] u

/-- A session that shows an interrupt and then reads a line at the empty prompt. No line of the
program is attempted before, and the machine is only stopped, with nothing left to tell. -/
structure BreaksOff (s : Session) : Prop where
  log : ∃ rest, s.run.log = .error .interrupt :: .read "" :: rest
  queue : s.machine.queue = []
  turns : ∃ t, s.turn = .next [.error .interrupt] t ∧ t.event.prompt? = some "" ∧
    s.asking = { s.machine with control := .stopped } ∧
    t.asking = { s.machine with control := .stopped } ∧
    s.ready.executeAttempts cycles = [] ∧ t.ready.executeAttempts cycles = []

/-- Two sessions that differ by the interrupt at the print with the number `k`. -/
structure Alike (k : Nat) (s s' : Session) : Prop where
  machine : s'.machine = s.machine
  ready : s'.ready = s.ready
  console : s'.console = s.console.interruptAt k

/-- Two sessions of which the second one was interrupted at its latest print, with the number
`k`. -/
structure Cut (k : Nat) (s s' : Session) : Prop where
  machine : s'.machine = s.machine
  console : s'.console = s.console.interruptAt k
  prints : s.console.prints = k
  interrupted : s'.interrupted = true

/-- How the turns of two sessions that are alike compare, where `c` is the console of the first one
before. -/
inductive Compares (k : Nat) (c : Console) : Turn → Turn → Prop
  | done {es : List Entry} {outcome : Outcome} {machine : Machine}
      (hes : es.countP Entry.isPrint = 0) :
      Compares k c (.done es outcome machine) (.done es outcome machine)
  /-- The text with the number `k` is not printed in this turn. -/
  | next {es : List Entry} {u u' : Session}
      (hes : u.console.prints = c.prints + es.countP Entry.isPrint)
      (herror : u.console.onError = c.onError) (hk : c.prints < k ↔ u.console.prints < k)
      (h : Alike k u u') : Compares k c (.next es u) (.next es u')
  | cut {text : String} {u u' : Session} (hk : c.prints + 1 = k)
      (herror : u.console.onError = c.onError) (h : Cut k u u') :
      Compares k c (.next [.print text] u) (.next [.print text] u')

theorem alike_interruptAt (s : Session) (k : Nat) : Alike k s (s.interruptAt k) :=
  ⟨rfl, rfl, rfl⟩

theorem Alike.prints (h : Alike k s s') : s'.console.prints = s.console.prints := by
  rw [h.console]
  rfl

theorem compares_read (s : Session) (k : Nat) {prompt : String}
    {take : String → List Entry × Machine} {m : Machine}
    (htake : ∀ x, (take x).1.countP Entry.isPrint = 0) :
    Compares k s.console (s.read prompt take m) ((s.interruptAt k).read prompt take m) := by
  have hreadings : (s.interruptAt k).console.readings = s.console.readings := rfl
  rw [read, read, hreadings]
  cases s.console.readings with
  | nil => exact .done rfl
  | cons r rest =>
      dsimp only
      cases r.reply with
      | line x =>
          have hnone : (Entry.read prompt :: (take x).1).countP Entry.isPrint = 0 :=
            (List.countP_cons_of_neg Bool.false_ne_true).trans (htake x)
          exact .next (by rw [hnone]; rfl) rfl Iff.rfl (alike_interruptAt _ k)
      | interrupt => exact .next rfl rfl Iff.rfl (alike_interruptAt _ k)
      | endOfInput | failure => exact .done rfl

theorem compares_readLine (s : Session) (k : Nat) :
    Compares k s.console s.readLine (s.interruptAt k).readLine :=
  s.compares_read k fun x => by
    dsimp only
    cases (s.machine.enter x).1 <;> rfl

theorem compares_readAnswer (s : Session) (k : Nat) (prompt : String) :
    Compares k s.console (s.readAnswer prompt) ((s.interruptAt k).readAnswer prompt) :=
  s.compares_read k fun _ => rfl

theorem compares_print (s : Session) (k : Nat) (x : String) :
    Compares k s.console (s.print x) ((s.interruptAt k).print x) := by
  have hfailure : ((s.interruptAt k).console.onPrint (s.console.prints + 1)).failure =
      (s.console.onPrint (s.console.prints + 1)).failure := rfl
  have hprints : (s.interruptAt k).console.prints = s.console.prints := rfl
  rw [print, print]
  dsimp only
  rw [hprints, hfailure]
  cases (s.console.onPrint (s.console.prints + 1)).failure with
  | some msg => exact .done rfl
  | none =>
      have hinterrupts : ((s.interruptAt k).console.onPrint (s.console.prints + 1)).interrupts =
          (decide (s.console.prints + 1 = k) ||
            (s.console.onPrint (s.console.prints + 1)).interrupts) := rfl
      rw [hinterrupts]
      by_cases hk : s.console.prints + 1 = k
      · refine .cut hk rfl ⟨rfl, rfl, hk, ?_⟩
        rw [decide_eq_true hk, Bool.true_or, Bool.or_true]
      · rw [decide_eq_false hk, Bool.false_or]
        refine .next rfl rfl ?_ (alike_interruptAt _ k)
        dsimp only
        omega

theorem compares_report (s : Session) (k : Nat) (e : Error) :
    Compares k s.console (s.report e) ((s.interruptAt k).report e) := by
  have herror : (s.interruptAt k).console.onError = s.console.onError := rfl
  have herrors : (s.interruptAt k).console.errors = s.console.errors := rfl
  rw [report, report]
  dsimp only
  rw [herrors, herror]
  cases (s.console.onError (s.console.errors + 1)).failure with
  | some msg => exact .done rfl
  | none =>
      dsimp only
      split
      · exact .done rfl
      · exact .next rfl rfl Iff.rfl (alike_interruptAt _ k)

theorem compares_handle (s : Session) (k : Nat) (ev : Event) :
    Compares k s.console (s.handle ev) ((s.interruptAt k).handle ev) := by
  cases ev with
  | stopped => exact s.compares_readLine k
  | input prompt => exact s.compares_readAnswer k prompt
  | running => exact .next rfl rfl Iff.rfl (alike_interruptAt s k)
  | message msg =>
      cases msg with
      | print x => exact s.compares_print k x
      | list x => exact s.compares_print k (x ++ "\n")
      | error e => exact s.compares_report k e
      | quit => exact .done rfl

theorem Alike.compares (h : Alike k s s') : Compares k s.console s.turn s'.turn := by
  have hturn : s'.turn = (interruptAt ⟨s.asking, s.console, false⟩ k).handle s.event := by
    rw [turn_eq_handle, asking, event, h.ready, h.console]
    rfl
  rw [hturn]
  exact compares_handle ⟨s.asking, s.console, false⟩ k s.event

theorem onError_of_turn (h : s.turn = .next es t) : t.console.onError = s.console.onError := by
  have hc := (alike_interruptAt s 0).compares
  rw [h] at hc
  generalize (s.interruptAt 0).turn = r at hc
  cases hc with
  | next _ herror | cut _ herror => exact herror

/-- What every turn preserves holds of whatever a session comes to. -/
theorem Passes.preserves {P : Session → Prop} (h : s.Passes turns t) (hs : P s)
    (hP : ∀ {s es t}, P s → s.turn = .next es t → P t) : P t := by
  induction h with
  | start => exact hs
  | turn ht _ ih => exact ih (hP hs ht)

theorem Passes.onError_eq (h : s.Passes turns t) : t.console.onError = s.console.onError :=
  h.preserves (P := fun t => t.console.onError = s.console.onError) rfl
    fun h ht => (onError_of_turn ht).trans h

theorem stopped_or_asking (h : s.machine.Settled) :
    s.asking.control = .stopped ∨ s.asking.queue = [] := by
  have hready : s.ready.Settled := by
    rw [ready]
    split
    · exact .inl (Machine.control_interrupt _)
    · exact h
  exact hready.stopped_or_of_execute cycles

theorem settled_of_turn (h : s.machine.Settled) (ht : s.turn = .next es t) :
    t.machine.Settled := by
  have hasking := stopped_or_asking h
  cases hline : s.line? with
  | none =>
      obtain hm | hm := machine_of_turn hline ht
      · rw [hm]
        exact hasking.imp_right .inl
      · rw [hm]
        exact .inl (Machine.control_interrupt _)
  | some x =>
      obtain ⟨prompt, hp, _⟩ := exists_of_line hline
      obtain ⟨t', ht', hm⟩ := turn_of_line hp hline
      cases ht.symm.trans ht'
      rw [hm]
      obtain ⟨hq, ⟨_, hc⟩ | ⟨_, y, line, hc⟩⟩ := queue_and_control_asking hp
      · exact (Machine.stopped_or_of_enter hc hq x).imp_right .inl
      · exact Machine.settled_of_answer hc hq x

theorem stopped_or_of_print (h : t.machine.Settled) (ht : t.turn = .next [.print text] u) :
    u.machine.control = .stopped ∨ u.machine.queue = [] := by
  cases hline : t.line? with
  | none =>
      obtain hm | hm := machine_of_turn hline ht
      · rw [hm]
        exact stopped_or_asking h
      · rw [hm]
        exact .inl (Machine.control_interrupt _)
  | some x =>
      obtain ⟨prompt, hp, _⟩ := exists_of_line hline
      obtain ⟨_, ht', _⟩ := turn_of_line hp hline
      cases ht.symm.trans ht'

theorem PrintsAt.of_turn (h : t.PrintsAt k before text u) (ht : s.turn = .next es t)
    (hes : t.console.prints = s.console.prints + es.countP Entry.isPrint) :
    s.PrintsAt k (es ++ before) text u := by
  obtain ⟨hk, turns, t', hpasses, rfl, ht'⟩ := h
  refine ⟨?_, s :: turns, t', .turn ht hpasses, ?_, ht'⟩
  · rw [List.countP_append]
    omega
  · rw [List.flatMap_cons, entries, ht]

theorem PrintsAt.run_eq (h : s.PrintsAt k before text u) :
    s.run = ⟨before ++ .print text :: u.run.log, u.run.outcome, u.run.machine⟩ := by
  obtain ⟨_, turns, t, hpasses, rfl, ht⟩ := h
  rw [hpasses.run_eq, run_of_turn_next ht]
  rfl

theorem PrintsAt.lt_and_le (h : s.PrintsAt k before text u) :
    s.console.prints < k ∧ k ≤ s.console.prints + s.run.log.countP Entry.isPrint := by
  obtain ⟨hk, _⟩ := id h
  rw [h.run_eq, List.countP_append, List.countP_cons_of_pos rfl]
  omega

/-- Sessions that are alike come to the same end if they do not come to the print with the number
`k`; otherwise they come to it with the same log, and only the second one is interrupted there. -/
theorem Alike.run_eq_or (h : Alike k s s') :
    ((k ≤ s.console.prints ∨ s.console.prints + s.run.log.countP Entry.isPrint < k) ∧
        s'.run = s.run) ∨
      ∃ before text u u', s.PrintsAt k before text u ∧ s'.PrintsAt k before text u' ∧
        Cut k u u' := by
  -- The second session takes the same turns as the first one until it is cut.
  obtain ⟨turns, last, hpasses, hlast⟩ := s.exists_passes
  induction hpasses generalizing s' with
  | @start s =>
      obtain ⟨es, outcome, machine, ht⟩ := hlast
      have hc := h.compares
      rw [ht] at hc
      generalize ht' : s'.turn = r at hc
      cases hc with
      | done hes =>
          rw [run_of_turn_done ht, run_of_turn_done ht', hes]
          exact .inl ⟨(Nat.lt_or_ge _ _).symm, rfl⟩
  | @turn s t last es turns ht _ ih =>
      have hc := h.compares
      rw [ht] at hc
      generalize ht' : s'.turn = r at hc
      cases hc with
      | @next _ _ t' hes _ hk ha =>
          have hes' : t'.console.prints = s'.console.prints + es.countP Entry.isPrint := by
            rw [h.prints, ha.prints, hes]
          obtain ⟨hrange, heq⟩ | ⟨before, text, u, u', hu, hu', hcut⟩ := ih ha hlast
          · refine .inl ⟨?_, by rw [run_of_turn_next ht, run_of_turn_next ht', heq]⟩
            rw [run_of_turn_next ht, List.countP_append]
            omega
          · exact .inr ⟨es ++ before, text, u, u', hu.of_turn ht hes, hu'.of_turn ht' hes', hcut⟩
      | @cut text _ u' hk _ hcut =>
          exact .inr ⟨[], text, t, u', ⟨hk, [], s, .start, rfl, ht⟩,
            ⟨h.prints ▸ hk, [], s', .start, rfl, ht'⟩, hcut⟩

theorem ready_of_not_interrupted (hi : s.interrupted = false) : s.ready = s.machine := by
  rw [ready, hi, if_neg Bool.false_ne_true]

theorem ready_of_stopped (h : s.machine.control = .stopped) : s.ready = s.machine := by
  rw [ready]
  split
  · exact Machine.interrupt_of_stopped h
  · rfl

theorem Cut.run_eq (h : Cut k u u') (hc : u.machine.control = .stopped) : u'.run = u.run := by
  have hc' : u'.machine.control = .stopped := h.machine ▸ hc
  have ha : Alike k u u' := by
    refine ⟨h.machine, ?_, h.console⟩
    rw [ready_of_stopped hc, ready_of_stopped hc', h.machine]
  obtain ⟨_, heq⟩ | ⟨_, _, _, _, hprints, _⟩ := ha.run_eq_or
  · exact heq
  · exact absurd hprints.lt_and_le.1 (by rw [h.prints]; exact Nat.lt_irrefl k)

theorem exists_log_run (s : Session) : ∃ rest, s.run.log = s.entries ++ rest := by
  cases ht : s.turn with
  | next es t => exact ⟨t.run.log, by rw [run_of_turn_next ht, entries, ht]⟩
  | done es outcome machine =>
      exact ⟨[], by rw [run_of_turn_done ht, entries, ht, List.append_nil]⟩

theorem execute_ready_of_stopped (hc : s.machine.control = .stopped) (hq : s.machine.queue = []) :
    s.ready.execute cycles = (.stopped, s.machine) := by
  rw [ready_of_stopped hc, Machine.execute_of_queue_nil hq, Machine.run_of_stopped hc]

theorem ready_of_interrupted (hi : s.interrupted = true) (hc : s.machine.control ≠ .stopped) :
    s.ready = s.machine.stop.post (.error .interrupt) := by
  rw [ready, if_pos hi, Machine.interrupt_of_not_stopped hc]

theorem execute_ready_of_interrupted (hi : s.interrupted = true)
    (hc : s.machine.control ≠ .stopped) (hq : s.machine.queue = []) :
    s.ready.executeAttempts cycles = [] ∧
      s.ready.execute cycles = (.message (.error .interrupt), s.machine.stop) := by
  rw [ready_of_interrupted hi hc, Machine.executeAttempts, Machine.execute, Machine.post,
    Machine.stop, hq]
  exact ⟨rfl, rfl⟩

/-- A turn that shows the interrupt leaves the machine alone. -/
theorem exists_turn_of_interrupt (he : s.event = .message (.error .interrupt))
    (hr : (s.console.onError (s.console.errors + 1)).failure = none) :
    ∃ t, s.turn = .next [.error .interrupt] t ∧ t.machine = s.asking := by
  rw [turn_eq_handle, he, handle, report]
  dsimp only
  rw [hr]
  exact ⟨_, rfl, rfl⟩

/-- An interrupt of a machine that is not stopped, and has nothing to tell, breaks the session
off. -/
theorem breaksOff_of_interrupted (hi : s.interrupted = true) (hc : s.machine.control ≠ .stopped)
    (hq : s.machine.queue = []) (hr : ∀ n, (s.console.onError n).failure = none) :
    s.BreaksOff := by
  obtain ⟨hattempts, hexecute⟩ := execute_ready_of_interrupted hi hc hq
  have hasking : s.asking = s.machine.stop := by rw [asking, hexecute]
  obtain ⟨t, ht, hm⟩ : ∃ t, s.turn = .next [.error .interrupt] t ∧ t.machine = s.asking :=
    exists_turn_of_interrupt (by rw [event, hexecute]) (hr _)
  rw [hasking] at hm
  have hcontrol : t.machine.control = .stopped := by rw [hm]; rfl
  have hqueue : t.machine.queue = [] := by
    rw [hm]
    exact hq
  have hstopped := execute_ready_of_stopped hcontrol hqueue
  have hprompt : t.event.prompt? = some "" := by rw [event, hstopped]; rfl
  refine ⟨?_, hq, t, ht, hprompt, hasking, by rw [asking, hstopped, hm]; rfl, hattempts, ?_⟩
  · obtain ⟨rest, hlog⟩ := t.exists_log_run
    rw [entries_of_prompt hprompt] at hlog
    exact ⟨_, by rw [run_of_turn_next ht, hlog]; rfl⟩
  · rw [ready_of_stopped hcontrol, Machine.executeAttempts, hqueue]
    exact Machine.attempts_of_stopped hcontrol cycles

theorem Cut.breaksOff (h : Cut k u u') (hc : u.machine.control ≠ .stopped)
    (hq : u.machine.queue = []) (hr : ∀ n, (u.console.onError n).failure = none) :
    u'.BreaksOff := by
  rw [← h.machine] at hc hq
  refine breaksOff_of_interrupted h.interrupted hc hq ?_
  rw [h.console]
  exact hr

/-- An interrupt while the text with the number `k` is printed cuts a session exactly there. If the
session does not come to that text, the interrupt makes no difference. Otherwise the logs agree up
to the text. If the machine is stopped by then, the interrupt makes no difference again. If not,
the interrupt is shown and a line is read at the empty prompt, before any line of the program is
attempted and without a change of the program or the variables. -/
theorem interruptAt_cuts (s : Session) (k : Nat)
    (hs : s.machine.control = .stopped ∨ s.machine.queue = [])
    (hr : ∀ n, (s.console.onError n).failure = none) :
    (k ≤ s.console.prints ∨ s.console.prints + s.run.log.countP Entry.isPrint < k →
      (s.interruptAt k).run = s.run) ∧
    (s.console.prints < k → k ≤ s.console.prints + s.run.log.countP Entry.isPrint →
      ∃ before text u u', s.PrintsAt k before text u ∧ (s.interruptAt k).PrintsAt k before text u' ∧
        u'.machine = u.machine ∧
        s.run.log = before ++ .print text :: u.run.log ∧
        (s.interruptAt k).run.log = before ++ .print text :: u'.run.log ∧
        (u.machine.control = .stopped → (s.interruptAt k).run = s.run) ∧
        (u.machine.control ≠ .stopped → u'.BreaksOff)) := by
  obtain ⟨hrange, heq⟩ | ⟨before, text, u, u', hu, hu', hcut⟩ := (s.alike_interruptAt k).run_eq_or
  · refine ⟨fun _ => heq, fun hlt hle => ?_⟩
    omega
  · have hbounds := hu.lt_and_le
    refine ⟨fun _ => by omega, fun _ _ => ⟨before, text, u, u', hu, hu', hcut.machine,
      congrArg Transcript.log hu.run_eq, congrArg Transcript.log hu'.run_eq, fun hc => ?_,
      fun hc => ?_⟩⟩
    · rw [hu.run_eq, hu'.run_eq, hcut.run_eq hc]
    · obtain ⟨_, turns, t, hpasses, _, ht⟩ := hu
      have hsettled : t.machine.Settled := hpasses.preserves (hs.imp_right .inl) settled_of_turn
      have hqueue := (stopped_or_of_print hsettled ht).resolve_left hc
      exact hcut.breaksOff hc hqueue fun n => by
        rw [onError_of_turn ht, hpasses.onError_eq, hr n]

/-- Two lines are run, and the user interrupts while the first one prints. -/
theorem interruptAt_cuts_of_two_lines :
    let m := (((Machine.new 9).enter "10 PRINT 1").2.enter "20 PRINT 2").2
    let s : Session := ⟨(m.enter "RUN").2, ⟨[], fun _ => {}, fun _ => {}, 0, 0⟩, false⟩
    s.machine.queue = [] ∧ (∀ n, (s.console.onError n).failure = none) ∧
      s.run.log = [.print "1\n", .print "2\n", .read ""] ∧
      ∃ before text u u', s.PrintsAt 1 before text u ∧ (s.interruptAt 1).PrintsAt 1 before text u' ∧
        u'.machine = u.machine ∧
        (s.interruptAt 1).run.log = before ++ .print text :: u'.run.log ∧ u'.BreaksOff := by
  intro m s
  have hq : s.machine.queue = [] := by decide +kernel
  have hr : ∀ n, (s.console.onError n).failure = none := fun _ => rfl
  let t : Session := ⟨s.asking, { s.console with prints := 1 }, false⟩
  let t₂ : Session := ⟨t.asking, { s.console with prints := 2 }, false⟩
  let t' : Session := ⟨s.asking, { (s.interruptAt 1).console with prints := 1 }, true⟩
  have hfirst : s.event = .message (.print "1\n") := by decide +kernel
  have hsecond : t.event = .message (.print "2\n") := by decide +kernel
  have hthird : t₂.event = .stopped := by decide +kernel
  have hbreak : t'.event = .message (.error .interrupt) := by decide +kernel
  have hs : s.turn = .next [.print "1\n"] t := by rw [turn_eq_handle, hfirst]; rfl
  have ht : t.turn = .next [.print "2\n"] t₂ := by rw [turn_eq_handle, hsecond]; rfl
  have ht₂ : t₂.turn = .done [.read ""] (.exit 0) t₂.asking := by rw [turn_eq_handle, hthird]; rfl
  have hs' : (s.interruptAt 1).turn = .next [.print "1\n"] t' := by
    rw [turn_eq_handle, show (s.interruptAt 1).event = .message (.print "1\n") from hfirst]
    rfl
  have ht' : ∃ t₂', t'.turn = .next [.error .interrupt] t₂' := by
    rw [turn_eq_handle, hbreak]
    exact ⟨_, rfl⟩
  have hlog : s.run.log = [.print "1\n", .print "2\n", .read ""] := by
    rw [run_of_turn_next hs, run_of_turn_next ht, run_of_turn_done ht₂]
    rfl
  have hne : (s.interruptAt 1).run ≠ s.run := by
    obtain ⟨t₂', ht'⟩ := ht'
    intro heq
    have hlog' := congrArg Transcript.log heq
    rw [hlog, run_of_turn_next hs', run_of_turn_next ht'] at hlog'
    cases hlog'
  have hle : 1 ≤ s.console.prints + s.run.log.countP Entry.isPrint := by
    rw [hlog]
    decide
  obtain ⟨before, text, u, u', hu, hu', hm, _, hlog', hstopped, hbreaks⟩ :=
    (interruptAt_cuts s 1 (.inr hq) hr).2 Nat.one_pos hle
  exact ⟨hq, hr, hlog, before, text, u, u', hu, hu', hm, hlog', hbreaks fun hc => hne (hstopped hc)⟩

end Session

end IntegerBasic
