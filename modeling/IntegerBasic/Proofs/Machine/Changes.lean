import IntegerBasic.Proofs.Machine.Attempts
import IntegerBasic.Proofs.Machine.Delivery
import Mathlib.Data.List.Induction

/-!
# What changes the variables

A change stores a value for one variable, or removes all variables. `changes m r` are the changes
that the request `r` makes, said without the variables that come of it: an answer that is a value
stores it, a `LET` that succeeds stores its value, whether it is direct or executed, and `CLEAR`
removes everything.

A request does to the variables what its changes say, and nothing else. The main statement is that
after any history of requests a variable has the value that was stored for it last.
-/

namespace IntegerBasic

namespace Variables

inductive Change
  | store (name : String) (value : Value)
  | clear
  deriving DecidableEq, Repr

def change (vars : Variables) : Change → Variables
  | .store x v => vars.store x v
  | .clear => .empty

def changeAll (vars : Variables) (changes : List Change) : Variables :=
  changes.foldl change vars

/-- The value was stored for the name, and after that no other value for it, and nothing was
removed. -/
def Latest (x : String) (v : Value) (changes : List Change) : Prop :=
  ∃ before after, changes = before ++ .store x v :: after ∧ .clear ∉ after ∧
    ∀ w, .store x w ∉ after

section

variable {changes : List Change} {x y : String} {v w : Value}

theorem not_latest_nil : ¬ Latest x v [] := by
  rintro ⟨before, after, h, _⟩
  exact absurd (congrArg List.length h) (by simp)

theorem latest_concat_iff {c : Change} :
    Latest x v (changes ++ [c]) ↔
      c = .store x v ∨ c ≠ .clear ∧ (∀ w, c ≠ .store x w) ∧ Latest x v changes := by
  constructor
  · rintro ⟨before, after, heq, hclear, hstore⟩
    rcases concat_eq_append_cons_iff.1 heq with ⟨_, _, hc⟩ | ⟨after', rfl, rfl⟩
    · exact .inl hc.symm
    · obtain ⟨hclear', hc⟩ := not_or.1 fun h => hclear (List.mem_append.2 h)
      refine .inr ⟨fun h => hc (h ▸ List.mem_singleton_self _), fun w h => ?_, before, after', rfl,
        hclear', fun w h => hstore w (List.mem_append_left _ h)⟩
      exact hstore w (List.mem_append_right _ (h ▸ List.mem_singleton_self _))
  · rintro (rfl | ⟨hclear, hstore, before, after, rfl, hclear', hstore'⟩)
    · exact ⟨changes, [], rfl, List.not_mem_nil, fun _ => List.not_mem_nil⟩
    · refine ⟨before, after ++ [c], by simp, fun h => ?_, fun w h => ?_⟩
      · exact (List.mem_append.1 h).elim hclear' fun h => hclear (List.mem_singleton.1 h).symm
      · exact (List.mem_append.1 h).elim (hstore' w) fun h => hstore w (List.mem_singleton.1 h).symm

theorem changeAll_concat (vars : Variables) (changes : List Change) (c : Change) :
    vars.changeAll (changes ++ [c]) = (vars.changeAll changes).change c := by
  rw [changeAll, List.foldl_append]
  rfl

theorem changeAll_append (vars : Variables) (before after : List Change) :
    vars.changeAll (before ++ after) = (vars.changeAll before).changeAll after :=
  List.foldl_append

/-- A variable has the value that was stored for it last. -/
theorem fetch?_changeAll_eq_some_iff (changes : List Change) :
    (changeAll .empty changes).fetch? x = some v ↔ Latest x v changes := by
  induction changes using List.reverseRecOn with
  | nil => exact iff_of_false nofun not_latest_nil
  | append_singleton changes c ih =>
      rw [changeAll_concat, latest_concat_iff]
      cases c with
      | clear => exact iff_of_false nofun (by simp)
      | store y w =>
          rw [change, fetch?_store]
          by_cases hxy : x = y
          · subst hxy
            simp
          · have hyx : ¬ y = x := fun h => hxy h.symm
            simp [hxy, hyx, ih]

theorem fetch_eq_error_iff {vars : Variables} :
    vars.fetch x = .error .undefinedVariable ↔ ∀ v, vars.fetch? x ≠ some v := by
  unfold fetch
  cases vars.fetch? x <;> simp

end

end Variables

def Statement.change? (vars : Variables) : Statement → Option Variables.Change
  | .assign x e => (e.eval vars).toOption.map (.store x)
  | .print _ | .input _ | .remark _ | .goto _ | .branch _ _ _ _ | .halt => none

def Line.change? (vars : Variables) (l : Line) : Option Variables.Change :=
  if l.command? = some .clear then
    some .clear
  else if l.isDirect then
    l.statement.toOption.bind (Statement.change? vars)
  else
    none

namespace Machine

/-- What an attempt changes: only a statement that takes effect changes anything. -/
def Attempt.change? (a : Attempt) : Option Variables.Change :=
  if a.takesEffect then
    (a.machine.program.find? a.line).bind fun e => e.statement.change? a.machine.vars
  else
    none

def changes (m : Machine) : Request → List Variables.Change
  | .enter s =>
    match m.control with
    | .awaiting x _ => ((Value.ofAnswer? s).map (Variables.Change.store x)).toList
    | .stopped | .running _ _ =>
      if Line.fits s then ((Line.ofText s).change? m.vars).toList else []
  | .execute cycles => (m.executeAttempts cycles).filterMap Attempt.change?
  | .interrupt | .setProgram _ => []

def Record.changes (r : Record) : List Variables.Change :=
  r.machine.changes r.request

end Machine

namespace Line

variable {l : Line}

theorem change?_of_number {n : LineNumber} (hn : l.number = some n) (vars : Variables) :
    l.change? vars = none := by
  simp [change?, command?, isDirect, hn]

theorem change?_of_command {c : Command} (hc : l.command? = some c) (vars : Variables) :
    l.change? vars = if c = .clear then some .clear else none := by
  simp [change?, hc, statement_of_command? hc, Except.toOption]

theorem change?_of_error {f : SyntaxFault} (hc : l.command? = none)
    (hs : l.statement = .error f) (vars : Variables) : l.change? vars = none := by
  simp [change?, hc, hs, Except.toOption]

theorem change?_of_ok {s : Statement} (hn : l.number = none) (hc : l.command? = none)
    (hs : l.statement = .ok s) (vars : Variables) : l.change? vars = s.change? vars := by
  simp [change?, hc, hs, (isDirect_iff l).2 hn, Except.toOption]

theorem change?_of_tokens (ht : l.tokens = []) (vars : Variables) : l.change? vars = none := by
  have hc : l.command? = none :=
    Option.eq_none_iff_forall_ne_some.2 fun c hc => (number_and_tokens_of_command? hc).2 ht
  have hs : l.statement = .error .expectedStatement := by
    rw [statement, ht]
    rfl
  exact change?_of_error hc hs vars

end Line

namespace Statement

variable {p : Program} {vars vars' : Variables} {s : Statement} {f : Flow}

theorem vars_of_flow (h : s.flow p vars = .ok (f, vars')) :
    vars' = vars.changeAll (s.change? vars).toList := by
  cases s with
  | input | remark | goto | halt =>
      cases h
      rfl
  | assign x e =>
      rw [flow, execute] at h
      split at h
      · cases h
      · next v hv =>
          cases h
          rw [change?, hv]
          rfl
  | print e =>
      rw [flow, execute] at h
      split at h
      · cases h
      · cases h
        rfl
  | branch l rel r n =>
      rw [flow] at h
      split at h
      · cases h
      · cases h
        rfl
      · cases h
        rfl

theorem change?_of_execute_eq_error {err : Error} (h : s.execute p vars = .error err) :
    s.change? vars = none := by
  cases s with
  | print | input | remark | goto | branch | halt => rfl
  | assign x e =>
      rw [execute] at h
      split at h
      · next f hf => rw [change?, hf]; rfl
      · cases h

end Statement

namespace Machine

variable {m m' : Machine}

theorem vars_of_obeys {s : Statement} (h : m.Obeys s m') :
    m'.vars = m.vars.changeAll (s.change? m.vars).toList := by
  cases h with
  | assign he =>
      rw [Statement.change?, he]
      rfl
  | print | input | halt => rfl
  | fault h =>
      rw [Statement.change?_of_execute_eq_error h]
      rfl
  | illegal h =>
      obtain ⟨r, rfl⟩ | h := h
      · rfl
      · cases s with
        | goto | branch => rfl
        | assign | print | input | remark | halt => exact absurd rfl h

theorem Complies.vars_eq {c : Command} (h : m.Complies c m') :
    m'.vars = if c = .clear then .empty else m.vars := by
  cases h <;> rfl

theorem vars_answer {x : String} {line : Option LineNumber} {s : String} {v : Value}
    (hv : Value.ofAnswer? s = some v) : (m.answer x line s).vars = m.vars.store x v := by
  rw [answer, hv]
  cases line with
  | none => rfl
  | some n => exact vars_advance _ n

theorem changes_enter_of_not_awaiting (hw : ∀ x l, m.control ≠ .awaiting x l) (s : String) :
    m.changes (.enter s) =
      if Line.fits s then ((Line.ofText s).change? m.vars).toList else [] := by
  rw [changes]
  split
  · next x l hc => exact absurd hc (hw x l)
  · rfl
  · rfl

theorem vars_of_enters {s : String} {r : Bool × Machine} (h : m.Enters s r) :
    r.2.vars = m.vars.changeAll (m.changes (.enter s)) := by
  have hline (hw : ∀ x l, m.control ≠ .awaiting x l) (hf : Line.fits s = true)
      {c : Option Variables.Change} (hc : (Line.ofText s).change? m.vars = c) :
      m.changes (.enter s) = c.toList := by
    rw [changes_enter_of_not_awaiting hw, if_pos hf, hc]
  cases h with
  | answered hc hv =>
      rw [vars_answer hv, changes, hc, hv]
      rfl
  | invalid hc hv =>
      rw [changes, hc, hv]
      rfl
  | tooLong hw hf =>
      rw [changes_enter_of_not_awaiting hw, if_neg (Bool.eq_false_iff.1 hf)]
      rfl
  | blank hw hf ht _ =>
      rw [hline hw hf (Line.change?_of_tokens ht _)]
      rfl
  | bare hw hf _ hn | refused hw hf _ hn _ | stored hw hf _ hn _ =>
      rw [hline hw hf (Line.change?_of_number hn _)]
      rfl
  | @command c _ hw hf hc ho =>
      rw [hline hw hf (Line.change?_of_command hc _), ho.vars_eq]
      cases c <;> rfl
  | misread hw hf _ _ hc hs =>
      rw [hline hw hf (Line.change?_of_error hc hs _)]
      rfl
  | @direct st m' hw hf hn hc hs ho =>
      rw [hline hw hf (Line.change?_of_ok hn hc hs _)]
      exact vars_of_obeys ho

theorem follow_ne_error (m : Machine) (n : LineNumber) (f : Flow) (e : Error) :
    (m.follow n f).1 ≠ some (.message (.error e)) := by
  cases f <;> nofun

@[simp] theorem vars_follow (m : Machine) (n : LineNumber) (f : Flow) :
    (m.follow n f).2.vars = m.vars := by
  cases f with
  | next | print => exact vars_advance _ _
  | input | jump | halt => rfl

theorem Attempt.takesEffect_eq_true_iff {a : Attempt} :
    a.takesEffect = true ↔ ∀ e, a.machine.step.1 ≠ some (.message (.error e)) := by
  rw [takesEffect]
  split
  · next e he => simp [he]
  · next hne => simpa using fun e he => hne e he

theorem Attempt.change?_of_fail {a : Attempt} {e : Error} (h : a.machine.step = m.fail e) :
    a.change? = none := by
  have heffect : ¬ a.takesEffect = true := fun ht => takesEffect_eq_true_iff.1 ht e (by rw [h]; rfl)
  rw [change?, if_neg heffect]

theorem Attempt.change?_of_follow {a : Attempt} {e : StoredLine} {f : Flow}
    (h : a.machine.step = m.follow a.line f) (hn : a.machine.program.find? a.line = some e) :
    a.change? = e.statement.change? a.machine.vars := by
  have heffect : a.takesEffect = true :=
    takesEffect_eq_true_iff.2 fun err => h ▸ m.follow_ne_error a.line f err
  rw [change?, if_pos heffect, hn, Option.bind_some]

theorem vars_step (m : Machine) :
    m.step.2.vars = m.vars.changeAll (m.attempt?.toList.filterMap Attempt.change?) := by
  cases hc : m.control with
  | stopped | awaiting =>
      rw [step, attempt?, hc]
      rfl
  | running n jumped =>
      have hsteps := m.stepsAt n jumped
      have hs : m.step = m.stepAt n jumped := by rw [step, hc]
      rw [← hs] at hsteps
      generalize hr : m.step = r at hsteps ⊢
      cases hsteps with
      | missing hn | finished hn =>
          rw [attempt?_of_find?_eq_none hc hn]
          rfl
      | exhausted hn | fault hn =>
          rw [attempt?_of_find?_eq_some hc hn, Option.toList_some, List.filterMap_cons,
            Attempt.change?_of_fail hr]
          rfl
      | follow hn _ hf =>
          have hchange := Attempt.change?_of_follow (a := ⟨n, m⟩) hr hn
          have hchanges : [(⟨n, m⟩ : Attempt)].filterMap Attempt.change? =
              (Attempt.change? ⟨n, m⟩).toList := by
            rw [List.filterMap_cons]
            cases Attempt.change? ⟨n, m⟩ <;> rfl
          rw [attempt?_of_find?_eq_some hc hn, Option.toList_some, hchanges, hchange, vars_follow]
          exact Statement.vars_of_flow hf

theorem vars_execute (m : Machine) (cycles : Nat) :
    (m.execute cycles).2.vars =
      m.vars.changeAll ((m.executeAttempts cycles).filterMap Attempt.change?) := by
  refine execute_relates (P := fun _ => True)
    (R := fun m log m' => m'.vars = m.vars.changeAll (log.filterMap Attempt.change?))
    (fun _ _ => trivial) (fun _ _ => rfl) (fun h₁ h₂ => ?_) (fun m _ => m.vars_step) cycles trivial
  rw [h₂, h₁, List.filterMap_append, Variables.changeAll_append]

theorem vars_interrupt (m : Machine) : m.interrupt.vars = m.vars := by
  rw [interrupt]
  split <;> rfl

/-- A request does to the variables what its changes say, and nothing else. -/
theorem vars_meet (m : Machine) (r : Request) :
    (m.meet r).vars = m.vars.changeAll (m.changes r) := by
  cases r with
  | enter s => exact vars_of_enters (m.enters s)
  | interrupt => exact m.vars_interrupt
  | setProgram p => rfl
  | execute cycles => exact m.vars_execute cycles

theorem vars_drive (m : Machine) (requests : List Request) :
    (m.drive requests).vars =
      m.vars.changeAll ((m.records requests).flatMap Record.changes) := by
  induction requests generalizing m with
  | nil => rfl
  | cons r requests ih =>
      rw [records, List.flatMap_cons, Variables.changeAll_append, Record.changes, ← vars_meet]
      exact ih (m.meet r)

/-- After any requests of a new machine a variable has the value that was stored for it last. -/
theorem fetch?_drive_new_eq_some_iff {x : String} {v : Value} (limit : UInt32)
    (requests : List Request) :
    ((new limit).drive requests).vars.fetch? x = some v ↔
      Variables.Latest x v (((new limit).records requests).flatMap Record.changes) := by
  rw [vars_drive]
  exact Variables.fetch?_changeAll_eq_some_iff _

end Machine

end IntegerBasic
