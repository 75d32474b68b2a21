import IntegerBasic.Proofs.Machine.Delivery
import IntegerBasic.Proofs.Machine.Edits
import IntegerBasic.Proofs.Machine.Entering
import IntegerBasic.Proofs.Session.Ending
import Mathlib.Data.List.Basic

/-!
# What becomes of a line in a session

`Passes s turns t` says that the session `s` comes to `t` in as many turns as there are sessions in
`turns`, which are those that the turns began with. `Routes t` says how the turn that begins with
`t` deals with the line that the console gives in it, if it gives one.

The main statement is that each turn of a session routes its line: at the empty prompt the machine
is stopped, and the line is a command or a line of the program; at the other one the machine awaits
a value, and the line is an answer. The history holds the lines of the first kind that are worth
keeping.
-/

namespace IntegerBasic

def Entry.prompt? : Entry → Option String
  | .read prompt => some prompt
  | .print _ | .error _ | .history _ => none

def Entry.history? : Entry → Option String
  | .history t => some t
  | .read _ | .print _ | .error _ => none

namespace Machine

variable {m m' : Machine} {ev : Event} {prompt : String}

/-- What the machine is doing when it asks for a line with an event. -/
inductive Asks (m : Machine) : Event → Prop
  | line (hc : m.control = .stopped) : Asks m .stopped
  | answer {x : String} {line : Option LineNumber} (hc : m.control = .awaiting x line) :
      Asks m (.input inputPrompt)

theorem Asks.prompt_and_control (h : m.Asks ev) (hp : ev.prompt? = some prompt) :
    prompt = "" ∧ m.control = .stopped ∨
      prompt = inputPrompt ∧ ∃ x line, m.control = .awaiting x line := by
  cases h with
  | line hc =>
      cases hp
      exact .inl ⟨rfl, hc⟩
  | answer hc =>
      cases hp
      exact .inr ⟨rfl, _, _, hc⟩

theorem asks_of_step (h : m.step = (some ev, m')) (hp : ev.prompt? = some prompt) : m'.Asks ev := by
  rw [step] at h
  split at h
  · next hc =>
      cases h
      exact .line hc
  · next x line hc =>
      cases h
      exact .answer hc
  · next n jumped _ =>
      have hs := m.stepsAt n jumped
      rw [h] at hs
      generalize hr : (some ev, m') = r at hs
      cases hs with
      | finished => cases hr
      | missing | exhausted | fault =>
          cases hr
          cases hp
      | @follow _ f =>
          cases f with
          | next | jump | halt => cases hr
          | print =>
              cases hr
              cases hp
          | input x =>
              cases hr
              exact .answer rfl

theorem asks_of_run {cycles : Nat} (h : m.run cycles = (ev, m')) (hp : ev.prompt? = some prompt) :
    m'.Asks ev := by
  obtain rfl | ⟨rfl, hc⟩ | ⟨_, _, _, _, hs⟩ := exists_step_of_run h
  · cases hp
  · exact .line hc
  · exact asks_of_step hs hp

/-- A machine that asks for a line has delivered everything. -/
theorem queue_and_asks_of_execute {cycles : Nat} (h : m.execute cycles = (ev, m'))
    (hp : ev.prompt? = some prompt) : m'.queue = [] ∧ m'.Asks ev := by
  cases hq : m.queue with
  | cons msg rest =>
      rw [execute, hq] at h
      cases h
      cases hp
  | nil =>
      rw [execute_of_queue_nil hq] at h
      have hqueue := m.queue_run cycles
      rw [h, hq] at hqueue
      exact ⟨hqueue, asks_of_run h hp⟩

theorem vars_and_queue_answer {x s : String} {v : Value} (h : Value.ofAnswer? s = some v)
    (line : Option LineNumber) :
    (m.answer x line s).vars = m.vars.store x v ∧ (m.answer x line s).queue = m.queue := by
  refine ⟨?_, by rw [queue_answer, h, List.append_nil]⟩
  rw [answer, h]
  cases line with
  | none => rfl
  | some n => exact vars_advance _ n

theorem answer_of_invalid {x s : String} (h : Value.ofAnswer? s = none)
    (line : Option LineNumber) : m.answer x line s = m.post (.print "INVALID NUMBER\n") := by
  rw [answer, h]

end Machine

namespace Session

def asking (s : Session) : Machine :=
  (s.ready.execute cycles).2

def entries (s : Session) : List Entry :=
  match s.turn with
  | .next entries _ => entries
  | .done entries _ _ => entries

def IsLast (s : Session) : Prop :=
  ∃ entries outcome machine, s.turn = .done entries outcome machine

def line? (s : Session) : Option String :=
  match s.event.prompt?, s.console.reply with
  | some _, .line t => some t
  | _, _ => none

/-- The line of the next turn, if it is read at the empty prompt and worth keeping. -/
def kept? (s : Session) : Option String :=
  if s.event.prompt? = some "" then
    match s.line? with
    | some t => if (s.asking.enter t).1 then some t else none
    | none => none
  else
    none

inductive Passes : Session → List Session → Session → Prop
  | start {s : Session} : Passes s [] s
  | turn {s s' t : Session} {entries : List Entry} {turns : List Session}
      (h : s.turn = .next entries s') (h' : Passes s' turns t) : Passes s (s :: turns) t

/-- How a turn deals with its line. -/
structure Routes (s : Session) : Prop where
  /-- The prompt tells what the machine is waiting for, and nothing is left undelivered. -/
  asked : ∀ prompt, s.event.prompt? = some prompt → s.asking.queue = [] ∧
    (prompt = "" ∧ s.asking.control = .stopped ∨
      prompt = " ? " ∧ ∃ x line, s.asking.control = .awaiting x line)
  /-- The machine is not running when it is given a line. -/
  idle : ∀ t, s.line? = some t → s.asking.isRunning = false
  /-- A line at the empty prompt is entered as a command or a line of the program. -/
  command : ∀ t, s.event.prompt? = some "" → s.line? = some t →
    ∃ kept s', s.turn = .next (.read "" :: if kept then [.history t] else []) s' ∧
      s.asking.Enters t (kept, s'.machine)
  /-- A numbered one changes what is stored under its number, and nothing else of the program. -/
  numbered : ∀ t n, s.event.prompt? = some "" → s.line? = some t → Line.fits t = true →
    (Line.ofText t).number = some n →
    ∃ entries s', s.turn = .next entries s' ∧
      (∀ k, k ≠ n → s'.machine.program.find? k = s.asking.program.find? k) ∧
      ((Line.ofText t).tokens = [] → s'.machine.program.find? n = none) ∧
      ∀ st, n ≠ 0 → (Line.ofText t).statement = .ok st →
        s'.machine.program.find? n = some ⟨n, Line.ofText t, st, 0⟩
  /-- A line at the other prompt is an answer: a number is stored and anything else is refused, and
  asked for again; the program and the other variables are left alone. -/
  answer : ∀ t, s.event.prompt? = some " ? " → s.line? = some t →
    ∃ entries s' x line, s.turn = .next entries s' ∧ s.asking.control = .awaiting x line ∧
      s'.machine.program = s.asking.program ∧
      (∀ y, y ≠ x → s'.machine.vars.fetch? y = s.asking.vars.fetch? y) ∧
      ((∃ v, Value.ofAnswer? t = some v ∧ s'.machine.vars.fetch? x = some v ∧
          s'.machine.queue = []) ∨
        Value.ofAnswer? t = none ∧ s'.machine.queue = [.print "INVALID NUMBER\n"] ∧
          s'.machine.vars = s.asking.vars ∧ s'.machine.control = .awaiting x line)
  /-- A turn without a line leaves the machine alone, or interrupts it. -/
  other : s.line? = none → ∀ entries s', s.turn = .next entries s' →
    s'.machine = s.asking ∨ s'.machine = s.asking.interrupt

variable {s s' t : Session} {turns : List Session}

theorem turn_eq_handle (s : Session) : s.turn = handle ⟨s.asking, s.console, false⟩ s.event :=
  rfl

theorem queue_and_asks_asking {prompt : String} (h : s.event.prompt? = some prompt) :
    s.asking.queue = [] ∧ s.asking.Asks s.event := by
  have hx : s.ready.execute cycles = (s.event, s.asking) := rfl
  exact Machine.queue_and_asks_of_execute hx h

theorem queue_and_control_asking {prompt : String} (h : s.event.prompt? = some prompt) :
    s.asking.queue = [] ∧ (prompt = "" ∧ s.asking.control = .stopped ∨
      prompt = Machine.inputPrompt ∧ ∃ x line, s.asking.control = .awaiting x line) := by
  obtain ⟨hq, hasks⟩ := queue_and_asks_asking h
  exact ⟨hq, hasks.prompt_and_control h⟩

/-- The machine is stopped, and has delivered everything, when a line is read at the empty
prompt. -/
theorem queue_and_control_of_empty_prompt (h : s.event.prompt? = some "") :
    s.asking.queue = [] ∧ s.asking.control = .stopped := by
  obtain ⟨hq, ⟨_, hc⟩ | ⟨hne, _⟩⟩ := queue_and_control_asking h
  · exact ⟨hq, hc⟩
  · exact absurd hne (by decide)

/-- The line is entered, and goes into the history if it is worth keeping. -/
def taken (s : Session) (t : String) : List Entry × Machine :=
  (if (s.machine.enter t).1 then [.history t] else [], (s.machine.enter t).2)

theorem readLine_of_stopped (h : s.machine.control = .stopped) :
    s.readLine = s.read "" s.taken s.machine.interrupt := by
  rw [Machine.interrupt, h]
  rfl

theorem readAnswer_of_awaiting {x : String} {line : Option LineNumber}
    (h : s.machine.control = .awaiting x line) (prompt : String) :
    s.readAnswer prompt = s.read prompt s.taken s.machine.interrupt := by
  have htaken : s.taken = fun t => ([], (s.machine.enter t).2) := by
    funext t
    rw [taken, Machine.enter_of_awaiting h]
    rfl
  rw [readAnswer, htaken]

/-- An event that asks for a line has one read, in the same way at both prompts: no answer is worth
keeping, and an interrupt of a machine that is stopped changes nothing. -/
theorem turn_of_prompt {prompt : String} (h : s.event.prompt? = some prompt) :
    s.turn = read ⟨s.asking, s.console, false⟩ prompt (taken ⟨s.asking, s.console, false⟩)
      s.asking.interrupt := by
  obtain ⟨_, hasks⟩ := queue_and_asks_asking h
  rw [turn_eq_handle]
  generalize s.event = ev at h hasks ⊢
  cases hasks with
  | line hc =>
      cases h
      exact readLine_of_stopped hc
  | answer hc =>
      cases h
      exact readAnswer_of_awaiting hc _

theorem exists_of_line {x : String} (h : s.line? = some x) :
    ∃ prompt, s.event.prompt? = some prompt ∧ s.console.reply = .line x := by
  rw [line?] at h
  split at h
  · next prompt t hp hr =>
      cases h
      exact ⟨prompt, hp, hr⟩
  · cases h

theorem turn_of_line {x : String} {prompt : String} (hp : s.event.prompt? = some prompt)
    (h : s.line? = some x) :
    ∃ s', s.turn = .next (.read prompt :: if (s.asking.enter x).1 then [.history x] else []) s' ∧
      s'.machine = (s.asking.enter x).2 := by
  obtain ⟨_, _, hr⟩ := exists_of_line h
  rw [turn_of_prompt hp, read]
  rw [Console.reply] at hr
  cases hc : s.console.readings with
  | nil =>
      rw [hc] at hr
      cases hr
  | cons r rest =>
      rw [hc] at hr
      dsimp only at hr ⊢
      rw [hr]
      exact ⟨_, rfl, rfl⟩

theorem turn_of_interrupt {prompt : String} (hp : s.event.prompt? = some prompt)
    (hr : s.console.reply = .interrupt) :
    ∃ s', s.turn = .next [.read prompt] s' ∧ s'.machine = s.asking.interrupt := by
  rw [turn_of_prompt hp, read]
  rw [Console.reply] at hr
  cases hc : s.console.readings with
  | nil =>
      rw [hc] at hr
      cases hr
  | cons r rest =>
      rw [hc] at hr
      dsimp only at hr ⊢
      rw [hr]
      exact ⟨_, rfl, rfl⟩

theorem machine_of_read {prompt : String} {take : String → List Entry × Machine} {m : Machine}
    {es : List Entry} (hr : ∀ x, s.console.reply ≠ .line x)
    (h : s.read prompt take m = .next es s') : s'.machine = m := by
  rw [read] at h
  rw [Console.reply] at hr
  cases hc : s.console.readings with
  | nil =>
      rw [hc] at h
      cases h
  | cons r rest =>
      rw [hc] at h hr
      dsimp only at h hr
      cases hreply : r.reply with
      | line x => exact absurd hreply (hr x)
      | interrupt =>
          rw [hreply] at h
          cases h
          rfl
      | endOfInput | failure =>
          rw [hreply] at h
          cases h

theorem machine_of_print {x : String} {es : List Entry} (h : s.print x = .next es s') :
    s'.machine = s.machine := by
  rw [print] at h
  dsimp only at h
  split at h <;> cases h
  rfl

theorem machine_of_report {e : Error} {es : List Entry} (h : s.report e = .next es s') :
    s'.machine = s.machine := by
  rw [report] at h
  dsimp only at h
  split at h
  · cases h
  · split at h <;> cases h
    rfl

/-- A turn without a line leaves the machine alone, or interrupts it. -/
theorem machine_of_turn {es : List Entry} (h : s.line? = none) (ht : s.turn = .next es s') :
    s'.machine = s.asking ∨ s'.machine = s.asking.interrupt := by
  have hread {prompt : String} (hp : s.event.prompt? = some prompt) :
      s'.machine = s.asking.interrupt := by
    rw [turn_of_prompt hp] at ht
    refine machine_of_read (fun x hx => ?_) ht
    rw [line?, hp, show s.console.reply = .line x from hx] at h
    cases h
  cases he : s.event with
  | stopped | input => exact .inr (hread (congrArg Event.prompt? he))
  | running =>
      rw [turn_eq_handle, he] at ht
      cases ht
      exact .inl rfl
  | message msg =>
      rw [turn_eq_handle, he] at ht
      cases msg with
      | print x => exact .inl (machine_of_print ht)
      | list x => exact .inl (machine_of_print ht)
      | error e => exact .inl (machine_of_report ht)
      | quit => cases ht

/-- Every turn routes its line. -/
theorem routes (s : Session) : s.Routes where
  asked _ hp := queue_and_control_asking hp
  idle t ht := by
    obtain ⟨prompt, hp, _⟩ := exists_of_line ht
    obtain ⟨_, ⟨_, hc⟩ | ⟨_, x, line, hc⟩⟩ := queue_and_control_asking hp
    · rw [Machine.isRunning, hc]
    · rw [Machine.isRunning, hc]
  command t hp ht := by
    obtain ⟨s', hturn, hm⟩ := turn_of_line hp ht
    exact ⟨_, s', hturn, hm ▸ s.asking.enters t⟩
  numbered t n hp ht hf hn := by
    obtain ⟨s', hturn, hm⟩ := turn_of_line hp ht
    have hw : ∀ x l, s.asking.control ≠ .awaiting x l := fun x l hc => by
      cases (queue_and_control_of_empty_prompt hp).2.symm.trans hc
    have hfind := (s.asking.enters t).find?_of_number hw hf hn
    rw [← hm] at hfind
    exact ⟨_, s', hturn, hfind⟩
  answer t hp ht := by
    obtain ⟨s', hturn, hm⟩ := turn_of_line hp ht
    obtain ⟨hq, ⟨hne, _⟩ | ⟨_, x, line, hc⟩⟩ := queue_and_control_asking hp
    · exact absurd hne (by decide)
    · rw [Machine.enter_of_awaiting hc] at hm
      refine ⟨_, s', x, line, hturn, hc, hm ▸ Machine.program_answer _ x line t, ?_⟩
      rw [hm]
      cases hv : Value.ofAnswer? t with
      | none =>
          rw [Machine.answer_of_invalid hv]
          exact ⟨fun _ _ => rfl, .inr ⟨rfl, congrArg (· ++ _) hq, rfl, hc⟩⟩
      | some v =>
          obtain ⟨hvars, hqueue⟩ := Machine.vars_and_queue_answer (m := s.asking) (x := x) hv line
          rw [hvars, hqueue]
          refine ⟨fun y hy => ?_, .inl ⟨v, rfl, Variables.fetch?_store_self _ _ _, hq⟩⟩
          rw [Variables.fetch?_store, if_neg hy]
  other h _ _ ht := machine_of_turn h ht

theorem entries_eq_filterMap_calls (s : Session) :
    s.entries = s.calls.filterMap Call.entry? := by
  rw [entries]
  cases ht : s.turn with
  | next | done => exact (agrees_of_turn ht).1.symm

theorem entries_of_prompt {prompt : String} (h : s.event.prompt? = some prompt) :
    s.entries = .read prompt ::
      match s.line? with
      | some t => if (s.asking.enter t).1 then [.history t] else []
      | none => [] := by
  rw [entries, turn_of_prompt h, line?, h, read, Console.reply]
  dsimp only
  cases s.console.readings with
  | nil => rfl
  | cons r rest =>
      dsimp only
      cases r.reply <;> rfl

theorem entries_of_not_prompt (h : s.event.prompt? = none) :
    ∀ e ∈ s.entries, e.prompt? = none ∧ e.history? = none := by
  have hcall (c : Call) (e : Entry) (hc : (∃ t f, c = .print t f) ∨ ∃ err f, c = .error err f)
      (he : e ∈ [c].filterMap Call.entry?) : e.prompt? = none ∧ e.history? = none := by
    obtain ⟨t, f, rfl⟩ | ⟨err, f, rfl⟩ := hc
    · cases f with
      | none => exact List.mem_singleton.1 he ▸ ⟨rfl, rfl⟩
      | some msg => cases he
    · cases f with
      | none => exact List.mem_singleton.1 he ▸ ⟨rfl, rfl⟩
      | some msg => cases he
  rw [entries_eq_filterMap_calls, calls]
  intro e hmem
  cases he : s.event with
  | stopped | input =>
      rw [he] at h
      cases h
  | running =>
      rw [he] at hmem
      cases hmem
  | message msg =>
      rw [he] at hmem
      cases msg with
      | print | list => exact hcall _ e (.inl ⟨_, _, rfl⟩) hmem
      | error => exact hcall _ e (.inr ⟨_, _, rfl⟩) hmem
      | quit => cases hmem

theorem filterMap_prompt_entries (s : Session) :
    s.entries.filterMap Entry.prompt? = s.event.prompt?.toList := by
  cases h : s.event.prompt? with
  | none => exact List.filterMap_eq_nil_iff.2 fun e he => (entries_of_not_prompt h e he).1
  | some prompt =>
      rw [entries_of_prompt h]
      cases s.line? with
      | none => rfl
      | some t =>
          dsimp only
          cases (s.asking.enter t).1 <;> rfl

theorem filterMap_history_entries (s : Session) :
    s.entries.filterMap Entry.history? = s.kept?.toList := by
  cases h : s.event.prompt? with
  | none =>
      rw [kept?, h]
      exact List.filterMap_eq_nil_iff.2 fun e he => (entries_of_not_prompt h e he).2
  | some prompt =>
      rw [entries_of_prompt h, kept?, h]
      obtain ⟨_, ⟨rfl, _⟩ | ⟨rfl, x, line, hc⟩⟩ := queue_and_control_asking h
      · rw [if_pos rfl]
        cases s.line? with
        | none => rfl
        | some t =>
            dsimp only
            cases (s.asking.enter t).1 <;> rfl
      · rw [if_neg (by decide)]
        cases s.line? with
        | none => rfl
        | some t =>
            dsimp only
            rw [Machine.enter_of_awaiting hc]
            rfl

/-- The log of a session is that of the turns it has passed and of what it comes to. -/
theorem Passes.run_eq (h : s.Passes turns t) :
    s.run = ⟨turns.flatMap entries ++ t.run.log, t.run.outcome, t.run.machine⟩ := by
  induction h with
  | start => rfl
  | @turn s s' t es turns ht _ ih =>
      have hes : s.entries = es := by rw [entries, ht]
      rw [run_of_turn_next ht, ih, List.flatMap_cons, hes, List.append_assoc]

theorem IsLast.log_run (h : s.IsLast) : s.run.log = s.entries := by
  obtain ⟨es, outcome, machine, ht⟩ := h
  rw [run_of_turn_done ht, entries, ht]

/-- Every session comes to its last turn. -/
theorem exists_passes (s : Session) : ∃ turns t, s.Passes turns t ∧ t.IsLast := by
  obtain ⟨_, _, h⟩ := s.exists_holds
  generalize s.run.outcome = outcome, s.run.machine = machine at h
  induction h with
  | last ht => exact ⟨[], _, .start, _, _, _, ht⟩
  | turn ht _ ih =>
      obtain ⟨turns, t, hpasses, hlast⟩ := ih
      exact ⟨_, t, .turn ht hpasses, hlast⟩

theorem filterMap_flatMap_entries {α : Type} {g : Entry → Option α} {f : Session → Option α}
    (h : ∀ t : Session, t.entries.filterMap g = (f t).toList) (ts : List Session) :
    (ts.flatMap entries).filterMap g = ts.filterMap f := by
  rw [List.filterMap_flatMap, List.filterMap_eq_flatMap_toList]
  exact congrArg (ts.flatMap ·) (funext h)

/-- A session never takes a line for what it is not. It comes to its last turn, and in each turn in
which a line is read everything has been delivered before, and the machine is stopped if the prompt
is empty, and else awaits a value. In the first case the line is taken as a command or a line of
the program, in the second as an answer, which stores the value that is awaited or is refused, and
changes nothing else; no line is given to a machine that is running. The history holds the lines
that were read at the empty prompt and are worth keeping, in this order. -/
theorem exists_passes_and_routes (s : Session) :
    ∃ turns last, s.Passes turns last ∧ last.IsLast ∧
      s.run.log = (turns ++ [last]).flatMap entries ∧
      s.run.log.filterMap Entry.prompt? = (turns ++ [last]).filterMap (fun t => t.event.prompt?) ∧
      (∀ t ∈ turns ++ [last], t.Routes) ∧
      s.run.log.filterMap Entry.history? = (turns ++ [last]).filterMap kept? := by
  obtain ⟨turns, last, hpasses, hlast⟩ := s.exists_passes
  have hlog : s.run.log = (turns ++ [last]).flatMap entries := by
    rw [hpasses.run_eq, hlast.log_run, List.flatMap_append, List.flatMap_singleton]
  refine ⟨turns, last, hpasses, hlast, hlog, ?_, fun t _ => t.routes, ?_⟩
  · rw [hlog]
    exact filterMap_flatMap_entries filterMap_prompt_entries _
  · rw [hlog]
    exact filterMap_flatMap_entries filterMap_history_entries _

end Session

end IntegerBasic
