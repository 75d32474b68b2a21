import IntegerBasic.Proofs.Machine.Loop
import IntegerBasic.Proofs.Machine.Watching

/-!
# The machine runs the control-flow loop

The loop sees the variables of a machine as a map, `env`, and their values as integers; `seen`
is what is shown, seen in this way. Expressions have the same values and the same faults for
both.

`Matches code limit m s` says that a machine is where the loop is: its program has the
statements and the limit, its counts and its variables are those of the loop, nothing is queued,
and it is about to execute the same line. The machine follows the loop from line to line, and
every line attempted makes the remaining attempts fewer.

The main statement says that a machine that is told to run shows what the loop shows, and
nothing else.
-/

namespace IntegerBasic

/-- The variables as a map from names to integers. -/
def Variables.env (vars : Variables) (x : String) : Option Int :=
  (vars.fetch? x).map Int32.toInt

def Trace.seen (t : Trace) : Loop.Trace :=
  t.map fun o => (o.1, o.2.env)

@[simp] theorem Trace.seen_append (t t' : Trace) : (t ++ t').seen = t.seen ++ t'.seen :=
  List.map_append

theorem Variables.env_store (vars : Variables) (x : String) (v : Value) :
    (vars.store x v).env = Function.update vars.env x (some v.toInt) := by
  funext y
  by_cases hy : y = x
  · subst hy
    rw [env, fetch?_store_self, Function.update_self]
    rfl
  · rw [env, fetch?_store, if_neg hy, Function.update_of_ne hy, env]

theorem Variables.fetch_eq_error {vars : Variables} {x : String} (h : vars.env x = none) :
    vars.fetch x = .error .undefinedVariable := by
  rw [fetch, Option.map_eq_none_iff.1 h]

namespace Loop

variable {vars : Variables} {e : Expr} {a b c : Int} {op : Operation}

theorem Computes.eq_exact (h : Computes op a b c) : op.exact a b = c := by
  cases h <;> rfl

theorem Computes.ne_zero (h : Computes op a b c) : op = .divide → b ≠ 0 := by
  cases h with
  | multiply | add | subtract => exact fun hop => nomatch hop
  | divide _ hb => exact fun _ => hb

/-- An expression with a value in the loop has it in the machine. -/
theorem Gives.eval (h : Gives vars.env e a) : ∃ v, e.eval vars = .ok v ∧ v.toInt = a := by
  induction h with
  | int v => exact ⟨v, rfl, rfl⟩
  | var h =>
      obtain ⟨v, hv, rfl⟩ := Option.map_eq_some_iff.1 h
      exact ⟨v, Variables.fetch_eq_ok_iff.2 hv, rfl⟩
  | binary _ _ h hc ihl ihr =>
      obtain ⟨v, hv, rfl⟩ := ihl
      obtain ⟨w, hw, rfl⟩ := ihr
      rw [← h.eq_exact] at hc
      obtain ⟨u, hu, hexact⟩ := Operation.apply_of_inRange h.ne_zero hc
      exact ⟨u, by rw [Expr.eval, hv, hw]; exact hu, hexact.trans h.eq_exact⟩

theorem Faults.eval {k : ErrorKind} (h : Faults vars.env e k) :
    ∃ f : EvalFault, e.eval vars = .error f ∧ f.kind = k := by
  induction h with
  | unset h => exact ⟨.undefinedVariable, Variables.fetch_eq_error h, rfl⟩
  | left _ ih =>
      obtain ⟨f, hf, rfl⟩ := ih
      exact ⟨f, by rw [Expr.eval, hf], rfl⟩
  | right hl _ ih =>
      obtain ⟨v, hv, _⟩ := hl.eval
      obtain ⟨f, hf, rfl⟩ := ih
      exact ⟨f, by rw [Expr.eval, hv, hf], rfl⟩
  | zero hl hr =>
      obtain ⟨v, hv, _⟩ := hl.eval
      obtain ⟨w, hw, hzero⟩ := hr.eval
      exact ⟨.divisionByZero, by rw [Expr.eval, hv, hw]; exact Operation.apply_of_zero v hzero, rfl⟩
  | range hl hr h hc =>
      obtain ⟨v, hv, rfl⟩ := hl.eval
      obtain ⟨w, hw, rfl⟩ := hr.eval
      rw [← h.eq_exact] at hc
      have happly := Operation.apply_of_not_inRange h.ne_zero hc
      exact ⟨.overflow, by rw [Expr.eval, hv, hw]; exact happly, rfl⟩

theorem Fails.flow {s : Statement} {k : ErrorKind} (h : Fails vars.env s k) (p : Program) :
    s.flow p vars = .error { kind := k } := by
  cases h with
  | assign h | print h =>
      obtain ⟨f, hf, rfl⟩ := h.eval
      rw [Statement.flow, Statement.execute, hf]
      rfl
  | left h =>
      obtain ⟨f, hf, rfl⟩ := h.eval
      rw [Statement.flow, Statement.condition, hf]
      rfl
  | right h h' =>
      obtain ⟨v, hv, _⟩ := h.eval
      obtain ⟨f, hf, rfl⟩ := h'.eval
      rw [Statement.flow, Statement.condition, hv]
      simp only [hf]
      rfl

theorem Accepts.ofAnswer? {s : String} (h : Accepts s a) :
    ∃ v, Value.ofAnswer? s = some v ∧ v.toInt = a := by
  obtain ⟨v, rfl⟩ := Value.exists_toInt_eq h.2
  exact ⟨v, Value.ofAnswer?_eq_some_iff.2 h.1, rfl⟩

theorem ofAnswer?_of_not_accepts {s : String} (h : ∀ a, ¬ Accepts s a) :
    Value.ofAnswer? s = none :=
  Option.eq_none_iff_forall_ne_some.2 fun v hv =>
    h v.toInt ⟨Value.ofAnswer?_eq_some_iff.1 hv, v.inRange_toInt⟩

end Loop

def Program.code (p : Program) (n : LineNumber) : Option Statement :=
  (p.find? n).map StoredLine.statement

namespace Program

variable {p : Program} {n : LineNumber}

theorem code_eq_some_iff {s : Statement} :
    p.code n = some s ↔ ∃ e, p.find? n = some e ∧ e.statement = s := by
  rw [code, Option.map_eq_some_iff]

theorem code_eq_none_iff : p.code n = none ↔ p.find? n = none := by
  rw [code, Option.map_eq_none_iff]

theorem code_ne_none_iff : p.code n ≠ none ↔ p.contains n = true := by
  rw [code, contains, Option.isSome_iff_ne_none, Ne, Option.map_eq_none_iff]

theorem code_increment (p : Program) (n : LineNumber) : (p.increment n).2.code = p.code := by
  funext k
  rw [code, find?_increment, Option.map_map, code]
  congr 1
  funext e
  by_cases hk : k = n <;> simp [hk]

theorem code_resetCounts (p : Program) : p.resetCounts.code = p.code := by
  funext k
  rw [code, find?_resetCounts, Option.map_map, code]
  rfl

theorem isLeast_first? (p : Program) : Loop.IsLeast (fun n => p.code n ≠ none) p.first? := by
  cases h : p.first? with
  | none => exact fun k hk => hk (code_eq_none_iff.2 (first?_eq_none_iff.1 h k))
  | some m =>
      rcases first?_eq_some_iff.1 h with ⟨hm, hmin⟩
      exact ⟨code_ne_none_iff.2 hm, fun k hk => hmin k (code_ne_none_iff.1 hk)⟩

theorem follows_next? (p : Program) (n : LineNumber) : Loop.Follows p.code n (p.next? n) := by
  cases h : p.next? n with
  | none => exact fun k hk => next?_eq_none_iff.1 h k (code_ne_none_iff.1 hk.1) hk.2
  | some m =>
      rcases next?_eq_some_iff.1 h with ⟨hm, hlt, hmin⟩
      exact ⟨⟨code_ne_none_iff.2 hm, hlt⟩, fun k hk => hmin k (code_ne_none_iff.1 hk.1) hk.2⟩

end Program

namespace Machine

open Loop

/-- The machine is about to execute the line, or stopped if there is none; a line that it was
not led to by a jump is stored. -/
def IsAt (m : Machine) : Option LineNumber → Prop
  | none => m.control = .stopped
  | some n => ∃ jumped, m.control = .running n jumped ∧ (jumped = true ∨ m.program.code n ≠ none)

structure Matches (code : Code) (limit : Nat) (m : Machine) (s : State) : Prop where
  code : m.program.code = code
  limit : m.program.limit.toNat = limit
  counts : ∀ n e, m.program.find? n = some e →
    e.count.toNat = s.counts n ∧ e.count.toNat < 4294967295
  queue : m.queue = []
  env : m.vars.env = s.env
  place : m.IsAt s.place

/-- The machine does what the loop does at one line, and is where the loop is afterwards. -/
def KeepsUp (code : Code) (limit : Nat) (m : Machine) (s : State) (t : Loop.Trace) :
    Option State → Prop
  | none => ∃ u, m.Yields s.answers u ∧ Trace.seen u = t
  | some s' => ∃ m' u, Matches code limit m' s' ∧ m'.program.remaining < m.program.remaining ∧
      Trace.seen u = t ∧ ∀ u', m'.Yields s'.answers u' → m.Yields s.answers (u ++ u')

theorem code_counted (m : Machine) (n : LineNumber) :
    (m.counted n).program.code = m.program.code :=
  m.program.code_increment n

theorem isAt_advance (m : Machine) (n : LineNumber) : (m.advance n).IsAt (m.program.next? n) := by
  rw [advance]
  cases hk : m.program.next? n with
  | none => rfl
  | some k =>
      have hstored := Program.code_ne_none_iff.2 (Program.next?_eq_some_iff.1 hk).1
      exact ⟨false, rfl, .inr hstored⟩

section

variable {m : Machine} {answers : List String} {t : Trace} {x : String} {line : Option LineNumber}

theorem yields_asked {m₀ : Machine} (h₀ : ∀ b, 0 < b → m₀.execute b = (.input inputPrompt, m))
    (hq : m.queue = []) (hc : m.control = .awaiting x line) {invalid : List String}
    (hinvalid : ∀ s ∈ invalid, Value.ofAnswer? s = none) :
    m₀.Yields invalid (asked m.vars invalid) := by
  induction invalid generalizing m₀ with
  | nil => exact yields_singleton fun b _ hb => watch_nil_of_input (h₀ b hb)
  | cons s invalid ih =>
      have hagain := ih (fun _ hb => execute_of_awaiting hq hc hb)
        fun s hs => hinvalid s (List.mem_cons_of_mem _ hs)
      have hnext := yields_of_invalid hq hc (hinvalid s List.mem_cons_self) hagain
      exact yields_cons (fun b _ hb => watch_cons_of_input (h₀ b hb)) hnext

theorem yields_asked_append {m₀ : Machine}
    (h₀ : ∀ b, 0 < b → m₀.execute b = (.input inputPrompt, m)) (hq : m.queue = [])
    (hc : m.control = .awaiting x line) {invalid : List String} {s : String}
    (hinvalid : ∀ s ∈ invalid, Value.ofAnswer? s = none) (h : (m.enter s).2.Yields answers t) :
    m₀.Yields (invalid ++ s :: answers) (asked m.vars invalid ++ t) := by
  induction invalid generalizing m₀ with
  | nil => exact yields_cons (fun b _ hb => watch_cons_of_input (h₀ b hb)) h
  | cons s' invalid ih =>
      have hagain := ih (fun _ hb => execute_of_awaiting hq hc hb)
        fun s hs => hinvalid s (List.mem_cons_of_mem _ hs)
      have hnext := yields_of_invalid hq hc (hinvalid s' List.mem_cons_self) hagain
      exact yields_cons (fun b _ hb => watch_cons_of_input (h₀ b hb)) hnext

end

section

variable {code : Code} {limit : Nat} {m : Machine} {n : LineNumber} {c : LineNumber → Nat}
  {env : Env} {as : List String} {st : Statement}

theorem Matches.exists_find? (hm : Matches code limit m ⟨some n, c, env, as⟩)
    (hn : code n = some st) :
    ∃ e, m.program.find? n = some e ∧ e.statement = st ∧
      (Program.countUp e.count).toNat = c n + 1 := by
  rw [← hm.code] at hn
  rcases Program.code_eq_some_iff.1 hn with ⟨e, he, hst⟩
  obtain ⟨hc, hmax⟩ := hm.counts n e he
  refine ⟨e, he, hst, ?_⟩
  rw [Program.toNat_countUp, hc, Nat.min_eq_left]
  exact hc ▸ Nat.succ_le_of_lt hmax

theorem Matches.step_eq (hm : Matches code limit m ⟨some n, c, env, as⟩) :
    ∃ jumped, m.step = m.stepAt n jumped ∧ (jumped = true ∨ m.program.code n ≠ none) := by
  obtain ⟨jumped, hc, hj⟩ := hm.place
  exact ⟨jumped, by rw [step, hc], hj⟩

theorem Matches.step_of_limit_le (hm : Matches code limit m ⟨some n, c, env, as⟩)
    (hn : code n = some st) (hl : limit ≤ c n + 1) :
    m.step = (m.counted n).fail .limitReached := by
  obtain ⟨e, he, _, hcount⟩ := hm.exists_find? hn
  obtain ⟨jumped, hs, _⟩ := hm.step_eq
  rw [hs, stepAt_of_limit_le he]
  rw [UInt32.le_iff_toNat_le, hcount, hm.limit]
  exact hl

theorem Matches.lt_limit (hm : Matches code limit m ⟨some n, c, env, as⟩)
    (hl : c n + 1 < limit) {e : StoredLine}
    (hcount : (Program.countUp e.count).toNat = c n + 1) :
    Program.countUp e.count < m.program.limit := by
  rw [UInt32.lt_iff_toNat_lt, hcount, hm.limit]
  exact hl

theorem Matches.step_of_lt_limit (hm : Matches code limit m ⟨some n, c, env, as⟩)
    (hn : code n = some st) (hl : c n + 1 < limit) :
    m.step = (m.counted n).perform n st := by
  obtain ⟨e, he, rfl, hcount⟩ := hm.exists_find? hn
  obtain ⟨jumped, hs, _⟩ := hm.step_eq
  rw [hs, stepAt_of_lt_limit he (hm.lt_limit hl hcount)]

/-- Counting the attempt keeps the machine with the loop, wherever both go on. -/
theorem Matches.counted (hm : Matches code limit m ⟨some n, c, env, as⟩) (hn : code n = some st)
    (hl : c n + 1 < limit) {m' : Machine} {k : Option LineNumber} (as' : List String)
    (hk : m'.IsAt k) (hp : m'.program = (m.counted n).program) (hq : m'.queue = []) :
    Matches code limit m' ⟨k, attempt c n, m'.vars.env, as'⟩ ∧
      m'.program.remaining < m.program.remaining := by
  obtain ⟨e, he, _, hcount⟩ := hm.exists_find? hn
  have hlt := hm.lt_limit hl hcount
  constructor
  · refine ⟨?_, ?_, fun i f hi => ?_, hq, rfl, hk⟩
    · rw [hp, code_counted]
      exact hm.code
    · rw [hp, limit_counted]
      exact hm.limit
    · rw [hp, Machine.counted, Program.find?_increment, Option.map_eq_some_iff] at hi
      obtain ⟨g, hg, rfl⟩ := hi
      by_cases hin : i = n
      · subst hin
        obtain rfl : e = g := Option.some.inj (he.symm.trans hg)
        rw [if_pos rfl]
        have hmax := UInt32.lt_iff_toNat_lt.1 hlt
        have hlimit := m.program.limit.toNat_lt
        exact ⟨hcount.trans (attempt_self c i).symm, by dsimp only; omega⟩
      · rw [if_neg hin]
        obtain ⟨hc, hmax⟩ := hm.counts i g hg
        exact ⟨hc.trans (attempt_of_ne hin c).symm, hmax⟩
  · rw [hp]
    refine Program.remaining_increment_lt ?_
    rw [Program.increment_of_find? he, if_neg (UInt32.not_le.2 hlt)]

theorem Matches.step_of_flow (hm : Matches code limit m ⟨some n, c, env, as⟩)
    (hn : code n = some st) (hl : c n + 1 < limit) {f : Flow} {vars : Variables}
    (hf : st.flow m.program m.vars = .ok (f, vars)) :
    m.step = { m.counted n with vars := vars }.follow n f := by
  rw [hm.step_of_lt_limit hn hl, perform_counted_of_ok hf]

theorem Matches.follows (hm : Matches code limit m ⟨some n, c, env, as⟩) {k : Option LineNumber}
    (hk : Follows code n k) {m' : Machine} (hp : m'.program = (m.counted n).program) :
    (m'.advance n).IsAt k := by
  have hcode : m'.program.code = code := by
    rw [hp, code_counted]
    exact hm.code
  rw [← hcode] at hk
  rw [hk.unique (Program.follows_next? m'.program n)]
  exact isAt_advance m' n

theorem Matches.advance (hm : Matches code limit m ⟨some n, c, env, as⟩) (hn : code n = some st)
    (hl : c n + 1 < limit) {k : Option LineNumber} (hk : Follows code n k) (vars : Variables)
    (as' : List String) :
    Matches code limit ({ m.counted n with vars := vars }.advance n)
        ⟨k, attempt c n, vars.env, as'⟩ ∧
      ({ m.counted n with vars := vars }.advance n).program.remaining < m.program.remaining := by
  have hp : ({ m.counted n with vars := vars }.advance n).program = (m.counted n).program :=
    program_advance _ n
  have hq : ({ m.counted n with vars := vars }.advance n).queue = [] :=
    (queue_advance _ n).trans hm.queue
  have hat : ({ m.counted n with vars := vars }.advance n).IsAt k := hm.follows hk rfl
  have hmatches := hm.counted hn hl as' hat hp hq
  rwa [vars_advance] at hmatches

theorem keepsUp_next (hm : Matches code limit m ⟨some n, c, env, as⟩) (hn : code n = some st)
    (hl : c n + 1 < limit) {vars : Variables}
    (hf : st.flow m.program m.vars = .ok (.next, vars)) {k : Option LineNumber}
    (hk : Follows code n k) :
    KeepsUp code limit m ⟨some n, c, env, as⟩ [] (some ⟨k, attempt c n, vars.env, as⟩) := by
  have hs := hm.step_of_flow hn hl hf
  obtain ⟨hmatches, hremaining⟩ := hm.advance hn hl hk vars as
  exact ⟨_, [], hmatches, hremaining, rfl, fun u' h =>
    yields_of_step_none hm.queue hs hmatches.queue h⟩

theorem keepsUp_print (hm : Matches code limit m ⟨some n, c, env, as⟩) (hn : code n = some st)
    (hl : c n + 1 < limit) {text : String}
    (hf : st.flow m.program m.vars = .ok (.print text, m.vars)) {k : Option LineNumber}
    (hk : Follows code n k) :
    KeepsUp code limit m ⟨some n, c, env, as⟩ [(.message (.print text), m.vars.env)]
      (some ⟨k, attempt c n, m.vars.env, as⟩) := by
  have hs := hm.step_of_flow hn hl hf
  obtain ⟨hmatches, hremaining⟩ := hm.advance hn hl hk m.vars as
  exact ⟨_, [(.message (.print text), m.vars)], hmatches, hremaining, rfl, fun u' h =>
    yields_of_message (fun _ hb => execute_of_step hm.queue hs hb) h (vars_advance _ n)⟩

theorem keepsUp_jump (hm : Matches code limit m ⟨some n, c, env, as⟩) (hn : code n = some st)
    (hl : c n + 1 < limit) {target : LineNumber}
    (hf : st.flow m.program m.vars = .ok (.jump target, m.vars)) :
    KeepsUp code limit m ⟨some n, c, env, as⟩ []
      (some ⟨some target, attempt c n, m.vars.env, as⟩) := by
  have hs := hm.step_of_flow hn hl hf
  have hk : IsAt { m.counted n with control := .running target true } (some target) :=
    ⟨true, rfl, .inl rfl⟩
  obtain ⟨hmatches, hremaining⟩ := hm.counted hn hl as hk rfl hm.queue
  exact ⟨_, [], hmatches, hremaining, rfl, fun u' h =>
    yields_of_step_none hm.queue hs hm.queue h⟩

theorem keepsUp_input {x s : String} {v : Value} {invalid : List String}
    (hm : Matches code limit m ⟨some n, c, env, invalid ++ s :: as⟩)
    (hn : code n = some (.input x)) (hl : c n + 1 < limit)
    (hinvalid : ∀ b ∈ invalid, Value.ofAnswer? b = none) (hs : Value.ofAnswer? s = some v)
    {k : Option LineNumber} (hk : Follows code n k) :
    KeepsUp code limit m ⟨some n, c, env, invalid ++ s :: as⟩ (asked m.vars.env invalid)
      (some ⟨k, attempt c n, (m.vars.store x v).env, as⟩) := by
  have hstep := hm.step_of_flow hn hl rfl
  have hvalid : (enter { m.counted n with control := .awaiting x (some n) } s).2 =
      { m.counted n with vars := m.vars.store x v }.advance n := by
    rw [enter_of_awaiting rfl, answer, hs]
    rfl
  obtain ⟨hmatches, hremaining⟩ := hm.advance hn hl hk (m.vars.store x v) as
  refine ⟨_, asked m.vars invalid, hmatches, hremaining, map_asked _ _ _, fun u' h => ?_⟩
  rw [← hvalid] at h
  exact yields_asked_append (fun _ hb => execute_of_step hm.queue hstep hb) hm.queue rfl
    hinvalid h

theorem keepsUp_fail {s : State} {e : Error} {m' : Machine} (hq : m.queue = [])
    (hs : m.step = m'.fail e) (hq' : m'.queue = []) (hv : m'.vars = m.vars) :
    KeepsUp code limit m s
      [(.message (.error e), m.vars.env), (.stopped, m.vars.env)] none :=
  ⟨_, yields_of_fail hq hs hq' hv, rfl⟩

end

/-- Whatever the loop does at one line, the machine does. -/
theorem keepsUp_of_acts {code : Code} {limit : Nat} {m : Machine} {s : State} {t : Loop.Trace}
    {s' : Option State} (h : Acts code limit s t s') (hm : Matches code limit m s) :
    KeepsUp code limit m s t s' := by
  -- The loop has its own variables; they become those of the machine.
  obtain ⟨place, c, env, as⟩ := s
  obtain rfl : m.vars.env = env := hm.env
  cases h with
  | finish =>
      exact ⟨_, yields_of_stopped hm.queue hm.place, rfl⟩
  | missing hn =>
      obtain ⟨jumped, hs, hj⟩ := hm.step_eq
      rw [hm.code] at hj
      -- Only a jump leads to a line that is not stored.
      obtain rfl := hj.resolve_right (not_not_intro hn)
      rw [← hm.code, Program.code_eq_none_iff] at hn
      rw [stepAt, hn, if_pos rfl] at hs
      exact keepsUp_fail hm.queue hs hm.queue rfl
  | exhausted hn hl =>
      have hs := hm.step_of_limit_le hn hl
      exact keepsUp_fail hm.queue hs hm.queue rfl
  | fault hn hl hf =>
      have hs := hm.step_of_lt_limit hn hl
      rw [perform_counted_of_error (hf.flow m.program)] at hs
      exact keepsUp_fail hm.queue hs hm.queue rfl
  | assign hn hl he hk =>
      obtain ⟨v, hv, rfl⟩ := he.eval
      rw [← Variables.env_store]
      exact keepsUp_next hm hn hl (by rw [Statement.flow, Statement.execute, hv]) hk
  | print hn hl he hk =>
      obtain ⟨v, hv, rfl⟩ := he.eval
      exact keepsUp_print hm hn hl (by rw [Statement.flow, Statement.execute, hv]; rfl) hk
  | remark hn hl hk =>
      exact keepsUp_next hm hn hl rfl hk
  | input hn hl hinvalid hs hk =>
      obtain ⟨v, hv, rfl⟩ := hs.ofAnswer?
      rw [← Variables.env_store]
      exact keepsUp_input hm hn hl (fun b hb => ofAnswer?_of_not_accepts (hinvalid b hb)) hv hk
  | unanswered hn hl hinvalid =>
      have hstep := hm.step_of_flow hn hl rfl
      exact ⟨_, yields_asked (fun _ hb => execute_of_step hm.queue hstep hb) hm.queue rfl
        fun b hb => ofAnswer?_of_not_accepts (hinvalid b hb), map_asked _ _ _⟩
  | goto hn hl =>
      exact keepsUp_jump hm hn hl rfl
  | jump hn hl ha hb hrel =>
      obtain ⟨v, hv, rfl⟩ := ha.eval
      obtain ⟨w, hw, rfl⟩ := hb.eval
      have hholds := (Relation.holds_iff _ v w).2 hrel
      refine keepsUp_jump hm hn hl ?_
      simp only [Statement.flow, Statement.condition, hv, hw, hholds]
  | pass hn hl ha hb hrel hk =>
      obtain ⟨v, hv, rfl⟩ := ha.eval
      obtain ⟨w, hw, rfl⟩ := hb.eval
      have hholds := Bool.eq_false_iff.2 (mt (Relation.holds_iff _ v w).1 hrel)
      refine keepsUp_next hm hn hl ?_ hk
      simp only [Statement.flow, Statement.condition, hv, hw, hholds]
  | halt hn hl =>
      have hs := hm.step_of_flow hn hl rfl
      exact ⟨_, yields_of_step_none hm.queue hs hm.queue (yields_of_stopped hm.queue rfl), rfl⟩

section

variable {code : Code} {limit : Nat} {m : Machine} {s : State}

/-- Whatever the loop shows, the machine shows. -/
theorem yields_of_runs {t : Loop.Trace} (h : Runs code limit s t) (hm : Matches code limit m s) :
    ∃ u, m.Yields s.answers u ∧ Trace.seen u = t := by
  induction h generalizing m with
  | done h => exact keepsUp_of_acts h hm
  | step h _ ih =>
      obtain ⟨m', u, hm', _, rfl, hyields⟩ := keepsUp_of_acts h hm
      obtain ⟨u', hu', rfl⟩ := ih hm'
      exact ⟨u ++ u', hyields u' hu', Trace.seen_append u u'⟩

/-- The loop comes to an end, because the machine cannot make attempts forever. -/
theorem exists_runs (hm : Matches code limit m s) : ∃ t, Runs code limit s t := by
  -- A loop alone has no measure: what gets fewer are the attempts that the machine can make.
  induction hr : m.program.remaining using Nat.strongRecOn generalizing m s with
  | ind r ih =>
      have hcode : ∀ n, ∃ k, Follows code n k := fun n => by
        rw [← hm.code]
        exact ⟨_, m.program.follows_next? n⟩
      obtain ⟨t, s', h⟩ := exists_acts limit hcode s
      cases s' with
      | none => exact ⟨t, .done h⟩
      | some s' =>
          obtain ⟨m', _, hm', hlt, _⟩ := keepsUp_of_acts h hm
          obtain ⟨t', h'⟩ := ih _ (hr ▸ hlt) hm' rfl
          exact ⟨t ++ t', .step h h'⟩

end

theorem matches_run {m : Machine} (hc : m.control = .stopped) (hq : m.queue = [])
    (answers : List String) :
    Matches m.program.code m.program.limit.toNat (m.enter "RUN").2
      ⟨m.program.first?, fun _ => 0, m.vars.env, answers⟩ := by
  have hcounts : ∀ n e, m.program.resetCounts.find? n = some e →
      e.count.toNat = 0 ∧ e.count.toNat < 4294967295 := by
    intro n e hn
    rw [Program.find?_resetCounts, Option.map_eq_some_iff] at hn
    obtain ⟨_, _, rfl⟩ := hn
    exact ⟨rfl, Nat.zero_lt_succ _⟩
  rw [enter_run hc, obey, Program.first?_resetCounts]
  cases hf : m.program.first? with
  | none => exact ⟨m.program.code_resetCounts, rfl, hcounts, hq, rfl, hc⟩
  | some n =>
      have hstored : m.program.resetCounts.code n ≠ none := by
        rw [Program.code_resetCounts, Program.code_ne_none_iff]
        exact (Program.first?_eq_some_iff.1 hf).1
      exact ⟨m.program.code_resetCounts, rfl, hcounts, hq, rfl, false, rfl, .inr hstored⟩

/-- A stopped machine that is told to run shows what the control-flow loop shows, which is one
thing only: however its cycles are cut into budgets, and whatever the answers are. -/
theorem exists_shows_and_yields {m : Machine} (hc : m.control = .stopped) (hq : m.queue = [])
    (answers : List String) :
    ∃ t, (m.enter "RUN").2.Yields answers t ∧
      ∀ shown, Shows m.program.code m.program.limit.toNat m.vars.env answers shown ↔
        shown = Trace.seen t := by
  have hm := matches_run hc hq answers
  obtain ⟨shown, h⟩ := exists_runs hm
  obtain ⟨t, ht, rfl⟩ := yields_of_runs h hm
  refine ⟨t, ht, fun shown => ⟨fun hshown => ?_, fun hshown => ?_⟩⟩
  · obtain ⟨first, hfirst, hruns⟩ := hshown
    obtain rfl := hfirst.unique m.program.isLeast_first?
    obtain ⟨t', ht', rfl⟩ := yields_of_runs hruns hm
    rw [ht'.unique ht]
  · rw [hshown]
    exact ⟨_, m.program.isLeast_first?, h⟩

/-- A program that asks for a value, which is given with the second answer, uses it, and jumps to
a line that is not there. -/
theorem exists_shows_and_yields_of_missing_line :
    let m := ["10 LET A = 2", "20 INPUT X", "30 PRINT A * X", "40 IF X < 0 THEN 5"].foldl
      (fun m s => (m.enter s).2) (Machine.new 3)
    m.control = .stopped ∧ m.queue = [] ∧
      ∃ t, (m.enter "RUN").2.Yields ["Y", " -7"] t ∧
        (∀ shown, Shows m.program.code m.program.limit.toNat m.vars.env ["Y", " -7"] shown ↔
          shown = Trace.seen t) ∧
        (Trace.seen t).map (fun o => (o.1, o.2 "A", o.2 "X")) =
          [(.input " ? ", some 2, none),
            (.message (.print "INVALID NUMBER\n"), some 2, none),
            (.input " ? ", some 2, none),
            (.message (.print "-14\n"), some 2, some (-7)),
            (.message (.error { kind := .lineNumberError }), some 2, some (-7)),
            (.stopped, some 2, some (-7))] := by
  intro m
  have hc : m.control = .stopped := by decide +kernel
  have hq : m.queue = [] := by decide +kernel
  obtain ⟨t, ht, hshown⟩ := exists_shows_and_yields hc hq ["Y", " -7"]
  have hpos : ∀ b ∈ List.replicate 6 9, 0 < b := by decide
  have hstopped : (.stopped, (Variables.empty.store "A" 2).store "X" (-7)) ∈
      (m.enter "RUN").2.watch ["Y", " -7"] (List.replicate 6 9) := by decide +kernel
  refine ⟨hc, hq, t, ht, hshown, ?_⟩
  rw [ht.eq_of_stopped hpos hstopped]
  decide +kernel

end Machine

end IntegerBasic
