import IntegerBasic.Session

/-!
# How a session ends

A session is a chain of turns. In each turn the console is called at most twice: to read a line,
which may go into the history, to print a text, or to show an error. `Call` is such a call with
what came of it, and `Holds s calls event outcome machine` says that the session `s` is over after
finitely many turns, in which the console was called so, and that its last event was `event`.

The main statement says that every session is over at some time, and that the calls alone decide
whether it ends with an exit code or because the console failed: the call that decides is the
last one.
-/

namespace IntegerBasic

inductive Call
  | read (prompt : String) (reply : Reply)
  | print (text : String) (failure : Option String)
  | error (error : Error) (failure : Option String)
  | history (line : String)
  deriving DecidableEq, Repr

namespace Call

def failure? : Call → Option String
  | .read _ (.failure msg) => some msg
  | .read _ _ => none
  | .print _ failure => failure
  | .error _ failure => failure
  | .history _ => none

/-- An error that says that the limit was reached has been shown. -/
def ShowsLimit (c : Call) : Prop :=
  ∃ e : Error, c = .error e none ∧ e.kind = .executionLimit

/-- What the call leaves in the log: a text or an error that could not be written leaves
nothing. -/
def entry? : Call → Option Entry
  | .read prompt _ => some (.read prompt)
  | .print t none => some (.print t)
  | .error e none => some (.error e)
  | .print _ (some _) => none
  | .error _ (some _) => none
  | .history t => some (.history t)

def IsOrdinary (c : Call) : Prop :=
  ¬ c.ShowsLimit ∧ c.failure? = none

theorem not_showsLimit_read (prompt : String) (reply : Reply) :
    ¬ (read prompt reply).ShowsLimit :=
  nofun

theorem failure?_of_showsLimit {c : Call} (h : c.ShowsLimit) : c.failure? = none := by
  obtain ⟨e, rfl, _⟩ := h
  rfl

theorem not_isOrdinary_of_failure {c : Call} {msg : String} (h : c.failure? = some msg) :
    ¬ c.IsOrdinary :=
  fun ho => Option.some_ne_none msg (h.symm.trans ho.2)

theorem not_showsLimit_of_failure {c : Call} {msg : String} (h : c.failure? = some msg) :
    ¬ c.ShowsLimit :=
  fun hl => Option.some_ne_none msg (h.symm.trans (failure?_of_showsLimit hl))

theorem isOrdinary_read {prompt : String} {reply : Reply} (h : ∀ msg, reply ≠ .failure msg) :
    (read prompt reply).IsOrdinary := by
  refine ⟨not_showsLimit_read prompt reply, ?_⟩
  cases reply with
  | failure msg => exact absurd rfl (h msg)
  | line | interrupt | endOfInput => rfl

theorem isOrdinary_print (t : String) : (print t none).IsOrdinary :=
  ⟨nofun, rfl⟩

theorem isOrdinary_history (t : String) : (history t).IsOrdinary :=
  ⟨nofun, rfl⟩

end Call

/-- What the console gives for the next line; after the script the input is at its end. -/
def Console.reply (c : Console) : Reply :=
  match c.readings with
  | [] => .endOfInput
  | r :: _ => r.reply

namespace Session

def callsFor (s : Session) : Event → List Call
  | .stopped => readCalls "" fun t => if (s.machine.enter t).1 then [.history t] else []
  | .input prompt => readCalls prompt fun _ => []
  | .running => []
  | .message (.print t) => [printCall t]
  | .message (.list t) => [printCall (t ++ "\n")]
  | .message (.error e) => [.error e (s.console.onError (s.console.errors + 1)).failure]
  | .message .quit => []
where
  /-- A line is read, and may go into the history. -/
  readCalls (prompt : String) (history : String → List Call) : List Call :=
    .read prompt s.console.reply ::
      match s.console.reply with
      | .line t => history t
      | _ => []
  /-- A text is printed. -/
  printCall (t : String) : Call :=
    .print t (s.console.onPrint (s.console.prints + 1)).failure

def event (s : Session) : Event :=
  (s.ready.execute cycles).1

def calls (s : Session) : List Call :=
  callsFor ⟨(s.ready.execute cycles).2, s.console, false⟩ s.event

/-- The session is over after finitely many turns. -/
inductive Holds : Session → List Call → Event → Outcome → Machine → Prop
  | last {s : Session} {entries : List Entry} {outcome : Outcome} {machine : Machine}
      (h : s.turn = .done entries outcome machine) : Holds s s.calls s.event outcome machine
  | turn {s s' : Session} {entries : List Entry} {calls : List Call} {event : Event}
      {outcome : Outcome} {machine : Machine} (h : s.turn = .next entries s')
      (h' : Holds s' calls event outcome machine) :
      Holds s (s.calls ++ calls) event outcome machine

inductive Concludes : List Call → Event → Outcome → Prop
  | quit : Concludes [] (.message .quit) (.exit 0)
  | endOfInput {prompt : String} {event : Event} :
      Concludes [.read prompt .endOfInput] event (.exit 0)
  | limit {c : Call} {event : Event} (h : c.ShowsLimit) : Concludes [c] event (.exit 1)
  | failure {c : Call} {msg : String} {event : Event} (h : c.failure? = some msg) :
      Concludes [c] event (.failed msg)

/-- What a turn logs is what its calls leave, and a turn that is not the last one has ordinary
calls only. -/
def Agrees (calls : List Call) (event : Event) : Turn → Prop
  | .next entries _ => calls.filterMap Call.entry? = entries ∧ ∀ c ∈ calls, c.IsOrdinary
  | .done entries outcome _ =>
    calls.filterMap Call.entry? = entries ∧ Concludes calls event outcome

theorem agrees_read (s : Session) {prompt : String} {take : String → List Entry × Machine}
    {interrupted : Machine} {history : String → List Call} (event : Event)
    (hentries : ∀ t, (history t).filterMap Call.entry? = (take t).1)
    (hordinary : ∀ t, ∀ c ∈ history t, c.IsOrdinary) :
    Agrees (callsFor.readCalls s prompt history) event (s.read prompt take interrupted) := by
  unfold read callsFor.readCalls Console.reply
  cases s.console.readings with
  | nil => exact ⟨rfl, .endOfInput⟩
  | cons r rest =>
      dsimp only
      cases r.reply with
      | line t =>
          have hread : (Call.read prompt (.line t)).IsOrdinary := Call.isOrdinary_read nofun
          exact ⟨congrArg _ (hentries t), List.forall_mem_cons.2 ⟨hread, hordinary t⟩⟩
      | interrupt =>
          have hread : (Call.read prompt .interrupt).IsOrdinary := Call.isOrdinary_read nofun
          exact ⟨rfl, List.forall_mem_singleton.2 hread⟩
      | endOfInput => exact ⟨rfl, .endOfInput⟩
      | failure msg => exact ⟨rfl, .failure rfl⟩

theorem agrees_readLine (s : Session) (event : Event) :
    Agrees (s.callsFor .stopped) event s.readLine := by
  refine s.agrees_read event (fun t => ?_) fun t => ?_
  · dsimp only
    cases (s.machine.enter t).1 <;> rfl
  · cases (s.machine.enter t).1 with
    | true => exact List.forall_mem_singleton.2 (Call.isOrdinary_history t)
    | false => exact nofun

theorem agrees_readAnswer (s : Session) (prompt : String) (event : Event) :
    Agrees (s.callsFor (.input prompt)) event (s.readAnswer prompt) :=
  s.agrees_read event (fun _ => rfl) fun _ => nofun

theorem agrees_print (s : Session) (t : String) (event : Event) :
    Agrees [callsFor.printCall s t] event (s.print t) := by
  unfold print callsFor.printCall
  dsimp only
  cases (s.console.onPrint (s.console.prints + 1)).failure with
  | none => exact ⟨rfl, by simpa using Call.isOrdinary_print t⟩
  | some msg => exact ⟨rfl, .failure rfl⟩

theorem agrees_report (s : Session) (e : Error) (event : Event) :
    Agrees [.error e (s.console.onError (s.console.errors + 1)).failure] event (s.report e) := by
  unfold report
  dsimp only
  cases (s.console.onError (s.console.errors + 1)).failure with
  | some msg => exact ⟨rfl, .failure rfl⟩
  | none =>
      dsimp only
      split
      · next he => exact ⟨rfl, .limit ⟨e, rfl, of_decide_eq_true he⟩⟩
      · next he =>
          have hlimit : ¬ (Call.error e none).ShowsLimit := by
            rintro ⟨e', hc, hkind⟩
            cases hc
            exact he (decide_eq_true hkind)
          exact ⟨rfl, by simpa using ⟨hlimit, rfl⟩⟩

/-- Whatever the event is, the turn agrees with the calls that the event leads to. -/
theorem agrees_handle (s : Session) (event : Event) :
    Agrees (s.callsFor event) event (s.handle event) := by
  cases event with
  | stopped => exact s.agrees_readLine _
  | input prompt => exact s.agrees_readAnswer prompt _
  | running => exact ⟨rfl, nofun⟩
  | message msg =>
      cases msg with
      | print t => exact s.agrees_print t _
      | list t => exact s.agrees_print (t ++ "\n") _
      | error e => exact s.agrees_report e _
      | quit => exact ⟨rfl, .quit⟩

theorem agrees_of_turn {s : Session} {t : Turn} (h : s.turn = t) : Agrees s.calls s.event t := by
  rw [← h]
  exact agrees_handle _ _

/-- Every session is over at some time, with the outcome of its transcript. -/
theorem exists_holds (s : Session) :
    ∃ calls event, s.Holds calls event s.run.outcome s.run.machine := by
  induction hw : s.weight using (Prod.lex Nat.lt_wfRel Nat.lt_wfRel).wf.induction
    generalizing s with
  | h w ih =>
      cases ht : s.turn with
      | done entries outcome machine =>
          rw [run_of_turn_done ht]
          exact ⟨_, _, .last ht⟩
      | next entries s' =>
          rw [run_of_turn_next ht]
          obtain ⟨calls, event, h⟩ := ih s'.weight (hw ▸ weight_turn ht) s' rfl
          exact ⟨_, _, .turn ht h⟩

section

variable {s : Session} {calls : List Call} {event : Event} {outcome : Outcome}
  {machine : Machine}

theorem Holds.log_eq (h : s.Holds calls event outcome machine) :
    calls.filterMap Call.entry? = s.run.log := by
  induction h with
  | last ht =>
      rw [run_of_turn_done ht]
      exact (agrees_of_turn ht).1
  | turn ht _ ih =>
      rw [run_of_turn_next ht, List.filterMap_append, ih, (agrees_of_turn ht).1]

theorem Holds.exists_concludes (h : s.Holds calls event outcome machine) :
    ∃ before last, calls = before ++ last ∧ (∀ c ∈ before, c.IsOrdinary) ∧
      Concludes last event outcome := by
  induction h with
  | last ht => exact ⟨[], _, rfl, nofun, (agrees_of_turn ht).2⟩
  | turn ht _ ih =>
      obtain ⟨before, last, rfl, hbefore, hlast⟩ := ih
      refine ⟨_, last, (List.append_assoc _ _ _).symm, fun c hc => ?_, hlast⟩
      exact (List.mem_append.1 hc).elim ((agrees_of_turn ht).2 c) (hbefore c)

end

section

variable {before last : List Call} {event : Event} {outcome : Outcome}

theorem Concludes.length_le_one (h : Concludes last event outcome) : last.length ≤ 1 := by
  cases h with
  | quit => exact Nat.zero_le 1
  | endOfInput | limit | failure => exact Nat.le_refl 1

/-- The exit code is one exactly when the last turn showed that the limit was reached. -/
theorem Concludes.eq_exit_one_iff (h : Concludes last event outcome) :
    outcome = .exit 1 ↔ ∃ c ∈ last, c.ShowsLimit := by
  cases h with
  | quit => simp
  | endOfInput => simp [Call.not_showsLimit_read]
  | limit hc => simpa using hc
  | failure hc => simpa using Call.not_showsLimit_of_failure hc

theorem Concludes.eq_failed_iff (h : Concludes last event outcome) (msg : String) :
    outcome = .failed msg ↔ ∃ c ∈ last, c.failure? = some msg := by
  cases h with
  | quit => simp
  | endOfInput => simp [Call.failure?]
  | limit hc => simp [Call.failure?_of_showsLimit hc]
  | failure hc => simp [hc]

theorem Concludes.of_isOrdinary (h : Concludes last event outcome)
    (hlast : ∀ c ∈ last, c.IsOrdinary) :
    outcome = .exit 0 ∧
      (event = .message .quit ∨ ∃ prompt, last = [.read prompt .endOfInput]) := by
  cases h with
  | quit => exact ⟨rfl, .inl rfl⟩
  | @endOfInput prompt => exact ⟨rfl, .inr ⟨prompt, rfl⟩⟩
  | limit hc => exact absurd hc (hlast _ List.mem_cons_self).1
  | failure hc => exact absurd (hlast _ List.mem_cons_self) (Call.not_isOrdinary_of_failure hc)

theorem exists_mem_append_iff {P : Call → Prop} (h : ∀ c ∈ before, ¬ P c) :
    (∃ c ∈ before ++ last, P c) ↔ ∃ c ∈ last, P c := by
  have hnone : ¬ ∃ c ∈ before, P c := fun ⟨c, hc, hP⟩ => h c hc hP
  simp only [List.mem_append, or_and_right, exists_or]
  exact or_iff_right hnone

theorem eq_nil_of_not_isOrdinary (hbefore : ∀ c ∈ before, c.IsOrdinary) (hlast : last.length ≤ 1)
    {front after : List Call} {c : Call} (heq : before ++ last = front ++ c :: after)
    (hc : ¬ c.IsOrdinary) : after = [] := by
  rcases List.append_eq_append_iff.1 heq with ⟨mid, _, hmid⟩ | ⟨mid, hfront, hmid⟩
  · have hlength := congrArg List.length hmid
    rw [List.length_append, List.length_cons] at hlength
    exact List.length_eq_zero_iff.1 (by omega)
  · cases mid with
    | nil =>
        obtain rfl : last = c :: after := hmid.symm
        exact List.length_eq_zero_iff.1 (Nat.le_zero.1 (Nat.le_of_succ_le_succ hlast))
    | cons c' mid =>
        obtain rfl : c = c' := (List.cons.inj hmid).1
        have hmem : c ∈ before := by
          rw [hfront]
          exact List.mem_append_right _ List.mem_cons_self
        exact absurd (hbefore c hmem) hc

end

/-- Every session is over after finitely many turns, and its log is what its calls leave. It ends
with exit code one exactly when an error was shown that says that the limit was reached, and
because the console failed exactly when a call failed, with the message of that call; such a call
is the last one. Otherwise it ends with exit code zero, after the end of the input was read or
after it was told to quit. -/
theorem exists_holds_and_outcome_iff (s : Session) :
    ∃ calls event, s.Holds calls event s.run.outcome s.run.machine ∧
      calls.filterMap Call.entry? = s.run.log ∧
      (s.run.outcome = .exit 1 ↔ ∃ c ∈ calls, c.ShowsLimit) ∧
      (∀ msg, s.run.outcome = .failed msg ↔ ∃ c ∈ calls, c.failure? = some msg) ∧
      (∀ before c after, calls = before ++ c :: after →
        c.ShowsLimit ∨ c.failure? ≠ none → after = []) ∧
      ((∀ c ∈ calls, ¬ c.ShowsLimit ∧ c.failure? = none) →
        s.run.outcome = .exit 0 ∧
          (event = .message .quit ∨
            ∃ before prompt, calls = before ++ [.read prompt .endOfInput])) := by
  obtain ⟨calls, event, h⟩ := s.exists_holds
  obtain ⟨before, last, rfl, hbefore, hlast⟩ := h.exists_concludes
  refine ⟨_, event, h, h.log_eq, ?_, fun msg => ?_, fun front c after heq hc => ?_,
    fun hall => ?_⟩
  · rw [exists_mem_append_iff fun c hc => (hbefore c hc).1]
    exact hlast.eq_exit_one_iff
  · rw [exists_mem_append_iff fun c hc hfail =>
      Call.not_isOrdinary_of_failure hfail (hbefore c hc)]
    exact hlast.eq_failed_iff msg
  · have hnot : ¬ c.IsOrdinary := fun ho => hc.elim ho.1 fun hne => hne ho.2
    exact eq_nil_of_not_isOrdinary hbefore hlast.length_le_one heq hnot
  · obtain ⟨hexit, hend⟩ := hlast.of_isOrdinary fun c hc =>
      hall c (List.mem_append_right _ hc)
    refine ⟨hexit, hend.imp_right ?_⟩
    rintro ⟨prompt, rfl⟩
    exact ⟨before, prompt, rfl⟩

end Session

end IntegerBasic
