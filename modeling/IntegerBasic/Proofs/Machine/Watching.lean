import IntegerBasic.Proofs.Machine.Step

/-!
# Watching a machine

`watch m answers budgets` is what a machine shows when it is given one budget of cycles after
the other and each question is answered by the next text. `Yields m answers t` says that `t`
is what it shows, however the cycles are cut into budgets: a beginning of it with any budgets,
and all of it with enough of them.

The main statements say how what a machine yields depends on its first event or step.
-/

namespace IntegerBasic

/-- The events that are shown, each with the variables at that time. -/
abbrev Trace : Type :=
  List (Event × Variables)

namespace Machine

/-- What the machine shows with the budgets: all events but those that only say that a budget
is used up, each with the variables at that time. -/
def watch : Machine → List String → List Nat → Trace
  | _, _, [] => []
  | m, answers, b :: bs =>
    match m.execute b with
    | (.running, m') => m'.watch answers bs
    | (.stopped, m') => [(.stopped, m'.vars)]
    | (.message msg, m') => (.message msg, m'.vars) :: m'.watch answers bs
    | (.input prompt, m') =>
      (.input prompt, m'.vars) ::
        match answers with
        | [] => []
        | s :: answers => (m'.enter s).2.watch answers bs

def Yields (m : Machine) (answers : List String) (t : Trace) : Prop :=
  ∃ N, ∀ budgets : List Nat, (∀ b ∈ budgets, 0 < b) →
    m.watch answers budgets <+: t ∧ (N ≤ budgets.length → m.watch answers budgets = t)

variable {m m' : Machine} {answers answers' : List String} {t : Trace}

theorem Yields.unique {t' : Trace} (h : m.Yields answers t) (h' : m.Yields answers t') :
    t = t' := by
  obtain ⟨N, h⟩ := h
  obtain ⟨N', h'⟩ := h'
  have hpos : ∀ b ∈ List.replicate (max N N') 1, 0 < b := fun b hb => by
    rw [(List.mem_replicate.1 hb).2]
    exact Nat.one_pos
  have ht := (h _ hpos).2 (List.length_replicate ▸ Nat.le_max_left N N')
  have ht' := (h' _ hpos).2 (List.length_replicate ▸ Nat.le_max_right N N')
  exact ht.symm.trans ht'

/-- Nothing is shown after the event that says that the machine is stopped. -/
theorem watch_append_of_stopped {vars : Variables} {bs : List Nat}
    (h : (.stopped, vars) ∈ m.watch answers bs) (bs' : List Nat) :
    m.watch answers (bs ++ bs') = m.watch answers bs := by
  induction bs generalizing m answers with
  | nil => exact absurd h List.not_mem_nil
  | cons b bs ih =>
      rw [watch] at h
      rw [List.cons_append, watch, watch]
      cases hx : m.execute b with
      | mk ev m₁ =>
          rw [hx] at h
          cases ev with
          | stopped => rfl
          | running => exact ih h
          | message msg =>
              have hrest := List.mem_of_ne_of_mem (by simp) h
              exact congrArg _ (ih hrest)
          | input prompt =>
              have hrest := List.mem_of_ne_of_mem (by simp) h
              cases answers with
              | nil => rfl
              | cons s answers => exact congrArg _ (ih hrest)

theorem Yields.eq_of_stopped (h : m.Yields answers t) {vars : Variables} {bs : List Nat}
    (hpos : ∀ b ∈ bs, 0 < b) (hs : (.stopped, vars) ∈ m.watch answers bs) :
    t = m.watch answers bs := by
  obtain ⟨N, h⟩ := h
  have hall : ∀ b ∈ bs ++ List.replicate N 1, 0 < b := by
    refine List.forall_mem_append.2 ⟨hpos, fun b hb => ?_⟩
    rw [(List.mem_replicate.1 hb).2]
    exact Nat.one_pos
  have hlength : N ≤ (bs ++ List.replicate N 1).length := by
    rw [List.length_append, List.length_replicate]
    exact Nat.le_add_left N bs.length
  rw [← (h _ hall).2 hlength]
  exact watch_append_of_stopped hs _

theorem yields_singleton {o : Event × Variables}
    (hw : ∀ b bs, 0 < b → m.watch answers (b :: bs) = [o]) : m.Yields answers [o] := by
  refine ⟨1, fun budgets hpos => ?_⟩
  cases budgets with
  | nil => exact ⟨List.nil_prefix, nofun⟩
  | cons b bs =>
      rw [hw b bs (hpos b List.mem_cons_self)]
      exact ⟨List.prefix_refl _, fun _ => rfl⟩

theorem yields_cons {o : Event × Variables}
    (hw : ∀ b bs, 0 < b → m.watch answers (b :: bs) = o :: m'.watch answers' bs)
    (h : m'.Yields answers' t) : m.Yields answers (o :: t) := by
  obtain ⟨N, h⟩ := h
  refine ⟨N + 1, fun budgets hpos => ?_⟩
  cases budgets with
  | nil => exact ⟨List.nil_prefix, nofun⟩
  | cons b bs =>
      obtain ⟨hbegin, heq⟩ := h bs fun c hc => hpos c (List.mem_cons_of_mem _ hc)
      rw [hw b bs (hpos b List.mem_cons_self)]
      exact ⟨(List.prefix_cons_inj o).2 hbegin,
        fun hN => congrArg (o :: ·) (heq (Nat.le_of_succ_le_succ hN))⟩

/-- A machine that shows nothing with its first budget shows what it shows later. -/
theorem yields_of_watch_eq
    (hw : ∀ b bs, 0 < b → ∃ bs', m.watch answers (b :: bs) = m'.watch answers bs' ∧
      bs.length ≤ bs'.length ∧ ((∀ c ∈ bs, 0 < c) → ∀ c ∈ bs', 0 < c))
    (h : m'.Yields answers t) : m.Yields answers t := by
  obtain ⟨N, h⟩ := h
  refine ⟨N + 1, fun budgets hpos => ?_⟩
  cases budgets with
  | nil => exact ⟨List.nil_prefix, nofun⟩
  | cons b bs =>
      obtain ⟨bs', heq, hlength, hpos'⟩ := hw b bs (hpos b List.mem_cons_self)
      obtain ⟨hbegin, hall⟩ := h bs' (hpos' fun c hc => hpos c (List.mem_cons_of_mem _ hc))
      rw [heq]
      exact ⟨hbegin, fun hN => hall (Nat.le_trans (Nat.le_of_succ_le_succ hN) hlength)⟩

theorem yields_of_execute_eq (hx : ∀ b, 0 < b → m.execute b = m'.execute b)
    (h : m'.Yields answers t) : m.Yields answers t := by
  refine yields_of_watch_eq (fun b bs hb => ⟨b :: bs, ?_, Nat.le_succ _, fun hbs => ?_⟩) h
  · rw [watch, watch, hx b hb]
  · exact List.forall_mem_cons.2 ⟨hb, hbs⟩

section

variable {b : Nat} {bs : List Nat}

theorem watch_of_message {msg : Message} (h : m.execute b = (.message msg, m')) :
    m.watch answers (b :: bs) = (.message msg, m'.vars) :: m'.watch answers bs := by
  rw [watch, h]

theorem watch_of_stopped (h : m.execute b = (.stopped, m')) :
    m.watch answers (b :: bs) = [(.stopped, m'.vars)] := by
  rw [watch, h]

theorem watch_of_running (h : m.execute b = (.running, m')) :
    m.watch answers (b :: bs) = m'.watch answers bs := by
  rw [watch, h]

theorem watch_nil_of_input {prompt : String} (h : m.execute b = (.input prompt, m')) :
    m.watch [] (b :: bs) = [(.input prompt, m'.vars)] := by
  rw [watch, h]

theorem watch_cons_of_input {prompt s : String} (h : m.execute b = (.input prompt, m')) :
    m.watch (s :: answers) (b :: bs) =
      (.input prompt, m'.vars) :: (m'.enter s).2.watch answers bs := by
  rw [watch, h]

end

theorem execute_of_step {ev : Event} (hq : m.queue = []) (hs : m.step = (some ev, m')) {b : Nat}
    (hb : 0 < b) : m.execute b = (ev, m') := by
  obtain ⟨c, rfl⟩ := Nat.exists_eq_succ_of_ne_zero (Nat.ne_of_gt hb)
  rw [execute, hq]
  exact run_succ_of_some hs c

theorem yields_of_stopped (hq : m.queue = []) (hc : m.control = .stopped) :
    m.Yields answers [(.stopped, m.vars)] := by
  have hs : m.step = (some .stopped, m) := by rw [step, hc]
  exact yields_singleton fun b bs hb => watch_of_stopped (execute_of_step hq hs hb)

/-- Steps without an event do not show. -/
theorem yields_of_step_none (hq : m.queue = []) (hs : m.step = (none, m')) (hq' : m'.queue = [])
    (h : m'.Yields answers t) : m.Yields answers t := by
  refine yields_of_watch_eq (fun b bs hb => ?_) h
  obtain ⟨c, rfl⟩ := Nat.exists_eq_succ_of_ne_zero (Nat.ne_of_gt hb)
  have hexecute : m.execute (c + 1) = m'.run c := by
    rw [execute, hq]
    exact run_succ_of_none hs c
  cases c with
  | succ c =>
      have hsame : m.execute (c + 1 + 1) = m'.execute (c + 1) := by
        rw [hexecute, execute, hq']
      refine ⟨(c + 1) :: bs, ?_, Nat.le_succ _, fun hbs => ?_⟩
      · rw [watch, watch, hsame]
      · exact List.forall_mem_cons.2 ⟨Nat.succ_pos c, hbs⟩
  | zero =>
      by_cases hc : m'.control = .stopped
      · have hstopped : m'.step = (some .stopped, m') := by rw [step, hc]
        have hlast : m.execute 1 = (.stopped, m') := by rw [hexecute, run, if_pos hc]
        refine ⟨1 :: bs, ?_, Nat.le_succ _, fun hbs => ?_⟩
        · rw [watch_of_stopped hlast,
            watch_of_stopped (execute_of_step hq' hstopped Nat.one_pos)]
        · exact List.forall_mem_cons.2 ⟨Nat.one_pos, hbs⟩
      · have hused : m.execute 1 = (.running, m') := by rw [hexecute, run, if_neg hc]
        exact ⟨bs, watch_of_running hused, Nat.le_refl _, fun hbs => hbs⟩

theorem yields_of_message {msg : Message} {vars : Variables}
    (h : ∀ b, 0 < b → m.execute b = (.message msg, m')) (h' : m'.Yields answers t)
    (hv : m'.vars = vars) : m.Yields answers ((.message msg, vars) :: t) := by
  subst hv
  exact yields_cons (fun b _ hb => watch_of_message (h b hb)) h'

theorem yields_of_queue {msg : Message} {rest : List Message} (hq : m.queue = msg :: rest)
    (h : Yields { m with queue := rest } answers t) :
    m.Yields answers ((.message msg, m.vars) :: t) := by
  have hx (b : Nat) : m.execute b = (.message msg, { m with queue := rest }) := by
    rw [execute, hq]
  exact yields_of_message (fun b _ => hx b) h rfl

theorem yields_of_fail {e : Error} (hq : m.queue = []) (hs : m.step = m'.fail e)
    (hq' : m'.queue = []) (hv : m'.vars = m.vars) :
    m.Yields answers [(.message (.error e), m.vars), (.stopped, m.vars)] := by
  have hstop : m'.stop.Yields answers [(.stopped, m'.vars)] := yields_of_stopped hq' rfl
  rw [hv] at hstop
  exact yields_of_message (fun _ hb => execute_of_step hq hs hb) hstop hv

section

variable {x : String} {line : Option LineNumber}

theorem execute_of_awaiting (hq : m.queue = []) (hc : m.control = .awaiting x line) {b : Nat}
    (hb : 0 < b) : m.execute b = (.input inputPrompt, m) :=
  execute_of_step hq (by rw [step, hc]) hb

/-- An invalid answer is told, and the question is asked again. -/
theorem yields_of_invalid (hq : m.queue = []) (hc : m.control = .awaiting x line) {s : String}
    (hs : Value.ofAnswer? s = none) (h : m.Yields answers t) :
    (m.enter s).2.Yields answers ((.message (.print "INVALID NUMBER\n"), m.vars) :: t) := by
  have hanswer : (m.enter s).2 = m.post (.print "INVALID NUMBER\n") := by
    rw [enter_of_awaiting hc, answer, hs]
  have hqueue : (m.enter s).2.queue = [.print "INVALID NUMBER\n"] := by
    rw [hanswer, post, hq]
    rfl
  have hback : { (m.enter s).2 with queue := [] } = m := by
    rw [hanswer, post, ← hq]
  have hvars : (m.enter s).2.vars = m.vars := by
    rw [hanswer]
    rfl
  rw [← hvars]
  refine yields_of_queue hqueue ?_
  rw [hback]
  exact h

end

theorem enter_run (hc : m.control = .stopped) : (m.enter "RUN").2 = m.obey .run := by
  have hline : Line.ofText "RUN" = ⟨none, [.word .RUN]⟩ := by decide +kernel
  rw [enter, hc]
  dsimp only
  rw [enterLine, if_pos (by decide), hline]
  rfl

end Machine

end IntegerBasic
