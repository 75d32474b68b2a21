import IntegerBasic.Proofs.Machine.Slices
import IntegerBasic.Proofs.Statement.Grammar

/-!
# What is told is delivered

Whoever drives a machine makes requests: to take a text, to interrupt, to set a program, or to
execute with some cycles. `told m r` is what the machine has to tell on the request `r`, said
without its queue. `records m requests` are the requests with the machine that met each of them.

The main statement is the account of the queue: whatever is requested of a new machine in whatever
order, what it was made to tell is what it has delivered and what is queued still, in this order.
While something is queued, executing delivers the oldest of it and does nothing else.
-/

namespace IntegerBasic

namespace Line

/-- The line tells to end the session: it is a direct `QUIT` or `END`. -/
def isQuit (l : Line) : Bool :=
  l.command? = some .quit || l.isDirect && l.statement.toOption = some .halt

theorem statement_of_command? {l : Line} {c : Command} (h : l.command? = some c) :
    l.statement = .error .expectedStatement := by
  have hword {w : ReservedWord} (hs : Token.significant l.tokens = [.word w]) (hw : w ≠ .REM)
      (he : Statement.readAfter [] w = .error .expectedStatement) :
      l.statement = .error .expectedStatement := by
    obtain ⟨rest, hrest, hnil⟩ := Token.dropWhile_eq_cons_of_significant hs
    rw [statement, Statement.ofTokens_of_dropWhile hrest hw, hnil, he]
    rfl
  rw [command?] at h
  split at h
  · rw [Command.ofTokens?] at h
    split at h
    · next hs => exact hword hs (by decide) rfl
    · next hs => exact hword hs (by decide) rfl
    · next hs => exact hword hs (by decide) rfl
    · next hs => exact hword hs (by decide) rfl
    · cases h
  · cases h

end Line

namespace Machine

inductive Request
  | enter (text : String)
  | interrupt
  | setProgram (program : Program)
  | execute (cycles : Nat)

def meet (m : Machine) : Request → Machine
  | .enter s => (m.enter s).2
  | .interrupt => m.interrupt
  | .setProgram p => m.setProgram p
  | .execute cycles => (m.execute cycles).2

def drive (m : Machine) (requests : List Request) : Machine :=
  requests.foldl meet m

def toldByCommand (m : Machine) : Command → List Message
  | .list => m.program.lines.map fun e => .list e.line.text
  | .quit => [.quit]
  | .run | .clear => []

def toldByStatement (m : Machine) : Statement → List Message
  | .assign _ e =>
    match e.eval m.vars with
    | .ok _ => []
    | .error f => [.error f.toError]
  | .print e =>
    match e.eval m.vars with
    | .ok v => [.print (v.text ++ "\n")]
    | .error f => [.error f.toError]
  | .input _ => []
  | .remark _ | .goto _ | .branch _ _ _ _ => [.error SyntaxFault.illegalDirect.toError]
  | .halt => [.quit]

def toldByLine (m : Machine) (l : Line) : List Message :=
  if l.tokens = [] then
    []
  else
    match l.number with
    | some _ =>
      match m.program.insert l with
      | .ok _ => []
      | .error e => [.error e]
    | none =>
      match l.command? with
      | some c => m.toldByCommand c
      | none =>
        match l.statement with
        | .ok s => m.toldByStatement s
        | .error f => [.error f.toError]

/-- What the machine has to tell on a request. -/
def told (m : Machine) : Request → List Message
  | .enter s =>
    match m.control with
    | .awaiting _ _ =>
      match Value.ofAnswer? s with
      | some _ => []
      | none => [.print "INVALID NUMBER\n"]
    | .stopped | .running _ _ =>
      if Line.fits s then m.toldByLine (Line.ofText s) else [.error .lineTooLong]
  | .interrupt =>
    match m.control with
    | .stopped => []
    | .running _ _ | .awaiting _ _ => [.error .interrupt]
  | .setProgram _ => []
  | .execute _ => []

/-- The events that are delivered from the queue on a request: none, unless cycles are given while
something is queued. -/
def delivered (m : Machine) : Request → List Event
  | .execute cycles =>
    match m.queue with
    | [] => []
    | _ :: _ => [(m.execute cycles).1]
  | .enter _ | .interrupt | .setProgram _ => []

/-- A request, with the machine that met it. -/
structure Record where
  machine : Machine
  request : Request

def records : Machine → List Request → List Record
  | _, [] => []
  | m, r :: requests => ⟨m, r⟩ :: (m.meet r).records requests

namespace Record

def told (r : Record) : List Message :=
  r.machine.told r.request

def delivered (r : Record) : List Event :=
  r.machine.delivered r.request

/-- The request was a direct `QUIT` or `END` that fits the line buffer, while no question was
open. -/
def asksToQuit (r : Record) : Bool :=
  match r.request, r.machine.control with
  | .enter s, .stopped | .enter s, .running _ _ => Line.fits s && (Line.ofText s).isQuit
  | .enter _, .awaiting _ _ | .interrupt, _ | .setProgram _, _ | .execute _, _ => false

end Record

variable {m : Machine}

theorem queue_obey (m : Machine) (c : Command) :
    (m.obey c).queue = m.queue ++ m.toldByCommand c := by
  cases c with
  | run =>
      rw [obey]
      dsimp only
      split <;> exact (List.append_nil _).symm
  | list | quit => rfl
  | clear => exact (List.append_nil _).symm

theorem queue_executeDirect (m : Machine) (s : Statement) :
    (m.executeDirect s).queue = m.queue ++ m.toldByStatement s := by
  cases s with
  | assign x e =>
      rw [executeDirect, Statement.execute, toldByStatement]
      cases e.eval m.vars with
      | ok v => exact (List.append_nil _).symm
      | error f => rfl
  | print e =>
      rw [executeDirect, Statement.execute, toldByStatement]
      cases e.eval m.vars <;> rfl
  | input x => exact (List.append_nil _).symm
  | remark | goto | branch | halt => rfl

theorem queue_enterLine (m : Machine) {s : String} (hf : Line.fits s = true) :
    (m.enterLine s).2.queue = m.queue ++ m.toldByLine (Line.ofText s) := by
  rw [enterLine, if_pos hf]
  dsimp only
  by_cases ht : (Line.ofText s).tokens = []
  · rw [if_pos ((Line.isEmpty_iff _).2 ht), toldByLine, if_pos ht, List.append_nil]
    split <;> rfl
  · rw [if_neg fun he => ht ((Line.isEmpty_iff _).1 he), toldByLine, if_neg ht, Line.isDirect]
    cases (Line.ofText s).number with
    | some n =>
        dsimp only [Option.isNone]
        rw [if_neg Bool.false_ne_true, enterNumbered]
        cases m.program.insert (Line.ofText s) with
        | ok r => exact (List.append_nil _).symm
        | error e => rfl
    | none =>
        dsimp only [Option.isNone]
        rw [if_pos rfl, enterDirect]
        cases (Line.ofText s).command? with
        | some c => exact m.queue_obey c
        | none =>
            dsimp only
            cases (Line.ofText s).statement with
            | ok st => exact m.queue_executeDirect st
            | error f => rfl

theorem queue_answer (m : Machine) (x : String) (line : Option LineNumber) (s : String) :
    (m.answer x line s).queue = m.queue ++
      match Value.ofAnswer? s with
      | some _ => []
      | none => [.print "INVALID NUMBER\n"] := by
  rw [answer]
  cases Value.ofAnswer? s with
  | none => rfl
  | some v =>
      cases line with
      | none => exact (List.append_nil _).symm
      | some n => exact (queue_advance _ n).trans (List.append_nil _).symm

theorem queue_enter (m : Machine) (s : String) :
    (m.enter s).2.queue = m.queue ++ m.told (.enter s) := by
  have hline : (m.enterLine s).2.queue =
      m.queue ++ if Line.fits s then m.toldByLine (Line.ofText s) else [.error .lineTooLong] := by
    by_cases hf : Line.fits s = true
    · rw [if_pos hf]
      exact m.queue_enterLine hf
    · rw [if_neg hf, enterLine, if_neg hf]
      rfl
  rw [enter, told]
  cases m.control with
  | stopped | running => exact hline
  | awaiting x line => exact m.queue_answer x line s

theorem queue_interrupt (m : Machine) : m.interrupt.queue = m.queue ++ m.told .interrupt := by
  rw [interrupt, told]
  cases m.control with
  | stopped => exact (List.append_nil _).symm
  | running | awaiting => rfl

theorem execute_of_queue_cons {msg : Message} {rest : List Message} (h : m.queue = msg :: rest)
    (cycles : Nat) : m.execute cycles = (.message msg, { m with queue := rest }) := by
  rw [execute, h]

/-- One request keeps the account: what was queued and what the machine has to tell is what is
delivered and what is queued then. -/
theorem queue_meet (m : Machine) (r : Request) :
    (m.queue ++ m.told r).map Event.message =
      m.delivered r ++ (m.meet r).queue.map Event.message := by
  cases r with
  | enter s => rw [meet, m.queue_enter]; rfl
  | interrupt => rw [meet, m.queue_interrupt]; rfl
  | setProgram p => rw [told, List.append_nil]; rfl
  | execute cycles =>
      rw [told, List.append_nil, delivered, meet]
      cases hq : m.queue with
      | nil => rw [execute_of_queue_nil hq, queue_run, hq]; rfl
      | cons msg rest => rw [execute_of_queue_cons hq]; rfl

/-- Any number of requests keeps the account. -/
theorem queue_drive (m : Machine) (requests : List Request) :
    (m.queue ++ (m.records requests).flatMap Record.told).map Event.message =
      (m.records requests).flatMap Record.delivered ++
        (m.drive requests).queue.map Event.message := by
  induction requests generalizing m with
  | nil => exact congrArg _ (List.append_nil _)
  | cons r requests ih =>
      calc
        _ = (m.queue ++ m.told r).map Event.message ++
            (((m.meet r).records requests).flatMap Record.told).map Event.message := by
          rw [← List.map_append, List.append_assoc]
          rfl
        _ = m.delivered r ++
            ((m.meet r).queue ++ ((m.meet r).records requests).flatMap Record.told).map
              Event.message := by
          rw [queue_meet, List.map_append, List.append_assoc]
        _ = m.delivered r ++ (((m.meet r).records requests).flatMap Record.delivered ++
            ((m.meet r).drive requests).queue.map Event.message) := by
          rw [ih]
        _ = _ := by
          rw [← List.append_assoc]
          rfl

/-- As many budgets as messages are queued deliver all of them, and do nothing else. -/
theorem drive_execute {budgets : List Nat} (h : budgets.length = m.queue.length) :
    (m.records (budgets.map .execute)).flatMap Record.delivered = m.queue.map Event.message ∧
      m.drive (budgets.map .execute) = { m with queue := [] } := by
  induction budgets generalizing m with
  | nil =>
      have hq : m.queue = [] := List.length_eq_zero_iff.1 h.symm
      exact ⟨by rw [hq]; rfl, by rw [← hq]; rfl⟩
  | cons c budgets ih =>
      obtain ⟨msg, rest, hq⟩ := List.exists_cons_of_length_eq_add_one h.symm
      have hmeet : m.meet (.execute c) = { m with queue := rest } := by
        rw [meet, execute_of_queue_cons hq]
      have hdelivered : m.delivered (.execute c) = [.message msg] := by
        rw [delivered, hq, execute_of_queue_cons hq]
      have hlength : budgets.length = rest.length := by
        rw [hq] at h
        exact Nat.succ.inj h
      obtain ⟨hrest, hdrive⟩ := ih (m := { m with queue := rest }) hlength
      refine ⟨?_, ?_⟩
      · rw [List.map_cons, records, List.flatMap_cons, hmeet, hrest, hq, Record.delivered,
          hdelivered]
        rfl
      · rw [List.map_cons, drive, List.foldl_cons, hmeet]
        exact hdrive

theorem step_ne_quit {m' : Machine} : m.step ≠ (some (.message .quit), m') := by
  intro h
  rw [step] at h
  split at h
  · cases h
  · cases h
  · next n jumped _ =>
      have hs := m.stepsAt n jumped
      rw [h] at hs
      generalize hr : (some (Event.message .quit), m') = r at hs
      cases hs with
      | missing | finished | exhausted | fault => cases hr
      | @follow _ f => cases f <;> cases hr

theorem run_ne_quit (m : Machine) (cycles : Nat) : (m.run cycles).1 ≠ .message .quit := by
  intro h
  obtain hev | ⟨hev, _⟩ | ⟨_, _, _, _, hs⟩ := exists_step_of_run (Prod.ext h rfl)
  · cases hev
  · cases hev
  · exact step_ne_quit hs

theorem count_quit_toldByCommand (m : Machine) (c : Command) :
    (m.toldByCommand c).count .quit = if c = .quit then 1 else 0 := by
  cases c with
  | run | clear | quit => rfl
  | list =>
      refine List.count_eq_zero.2 fun h => ?_
      obtain ⟨_, _, he⟩ := List.mem_map.1 h
      cases he

theorem count_quit_toldByStatement (m : Machine) (s : Statement) :
    (m.toldByStatement s).count .quit = if s = .halt then 1 else 0 := by
  cases s with
  | assign x e | print e =>
      rw [toldByStatement]
      cases e.eval m.vars <;> rfl
  | input | remark | goto | branch | halt => rfl

theorem count_quit_toldByLine (m : Machine) (l : Line) :
    (m.toldByLine l).count .quit = if l.isQuit then 1 else 0 := by
  rw [toldByLine]
  by_cases ht : l.tokens = []
  · have hquit : l.isQuit = false := by
      cases l
      cases ht
      rename_i number
      cases number <;> rfl
    rw [if_pos ht, hquit]
    rfl
  · rw [if_neg ht]
    cases hn : l.number with
    | some n =>
        have hquit : l.isQuit = false := by simp [Line.isQuit, Line.command?, Line.isDirect, hn]
        rw [hquit]
        dsimp only
        cases m.program.insert l <;> rfl
    | none =>
        have hdirect : l.isDirect = true := (Line.isDirect_iff l).2 hn
        cases hc : l.command? with
        | some c =>
            have hquit : l.isQuit = decide (c = .quit) := by
              simp [Line.isQuit, hc, Line.statement_of_command? hc, Except.toOption]
            rw [hquit]
            simpa using m.count_quit_toldByCommand c
        | none =>
            dsimp only
            cases hs : l.statement with
            | error f =>
                have hquit : l.isQuit = false := by simp [Line.isQuit, hc, hs, Except.toOption]
                rw [hquit]
                rfl
            | ok s =>
                have hquit : l.isQuit = decide (s = .halt) := by
                  simp [Line.isQuit, hc, hs, hdirect, Except.toOption]
                rw [hquit]
                simpa using m.count_quit_toldByStatement s

/-- A request makes the machine tell that the session is to end once, if it asks for that, and else
not at all. -/
theorem Record.count_quit_told (r : Record) :
    r.told.count .quit = if r.asksToQuit then 1 else 0 := by
  obtain ⟨m, request⟩ := r
  cases request with
  | setProgram | execute => rfl
  | interrupt =>
      rw [told, Machine.told, asksToQuit]
      cases m.control <;> rfl
  | enter s =>
      have hline : (if Line.fits s then m.toldByLine (Line.ofText s)
          else [.error .lineTooLong]).count .quit =
            if Line.fits s && (Line.ofText s).isQuit then 1 else 0 := by
        cases Line.fits s with
        | true => exact m.count_quit_toldByLine _
        | false => rfl
      rw [told, Machine.told, asksToQuit]
      dsimp only
      cases m.control with
      | stopped | running => exact hline
      | awaiting =>
          dsimp only
          cases Value.ofAnswer? s <;> rfl

/-- Nothing that a machine has to tell is lost, told twice or told out of order. Whatever is
requested of a new machine, in whatever order, each text queues what the machine has to tell about
it, and an interrupt does so too; what it was made to tell is what it has delivered and then what is
queued still. While something is queued, executing delivers the oldest message, however many cycles
are given, and does nothing else, so that it delivers all of them in the end. While nothing is
queued, executing queues nothing, and no program ends the session; the session is told to end once
for each direct `QUIT` or `END` that is entered while no question is open. -/
theorem told_eq_delivered_append_queue (limit : UInt32) (requests : List Request) :
    let records := (new limit).records requests
    let m := (new limit).drive requests
    (∀ s, (m.enter s).2.queue = m.queue ++ m.told (.enter s)) ∧
      m.interrupt.queue = m.queue ++ m.told .interrupt ∧
      (records.flatMap Record.told).map Event.message =
        records.flatMap Record.delivered ++ m.queue.map Event.message ∧
      (∀ msg rest cycles, m.queue = msg :: rest →
        m.execute cycles = (.message msg, { m with queue := rest })) ∧
      (∀ budgets : List Nat, budgets.length = m.queue.length →
        (m.records (budgets.map .execute)).flatMap Record.delivered = m.queue.map Event.message ∧
          m.drive (budgets.map .execute) = { m with queue := [] }) ∧
      (∀ cycles, m.queue = [] →
        (m.execute cycles).2.queue = [] ∧ (m.execute cycles).1 ≠ .message .quit) ∧
      (records.flatMap Record.told).count .quit = records.countP Record.asksToQuit := by
  intro records m
  have hdrive : (records.flatMap Record.told).map Event.message =
      records.flatMap Record.delivered ++ m.queue.map Event.message :=
    (new limit).queue_drive requests
  have hquit (rs : List Record) :
      (rs.flatMap Record.told).count .quit = rs.countP Record.asksToQuit := by
    induction rs with
    | nil => rfl
    | cons r rs ih =>
        rw [List.flatMap_cons, List.count_append, r.count_quit_told, ih, List.countP_cons,
          Nat.add_comm]
  refine ⟨m.queue_enter, m.queue_interrupt, hdrive, fun msg rest cycles hq => ?_,
    fun budgets hb => drive_execute hb, fun cycles hq => ?_, hquit records⟩
  · exact execute_of_queue_cons hq cycles
  · rw [execute_of_queue_nil hq, queue_run]
    exact ⟨hq, m.run_ne_quit cycles⟩

end Machine

end IntegerBasic
