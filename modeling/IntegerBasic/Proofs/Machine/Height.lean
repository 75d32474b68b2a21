import IntegerBasic.Proofs.Line.Height
import IntegerBasic.Proofs.Machine.Attempts
import IntegerBasic.Proofs.Machine.Delivery
import IntegerBasic.Proofs.Program.History

/-!
# How deep a machine walks through expressions

`Executes m r s` says that the machine `m` executes the statement `s` on the request `r`: a direct
one that is entered, or the one of a line that it attempts. Like the statements that are stored it
comes from a line that fits the line buffer, if every program that is set was `Loaded`.

The main statement is that no expression of such a statement is higher than the line buffer is long,
so that no walk through it has more calls open at a time.
-/

namespace IntegerBasic

/-- No expression of the statement is higher than the line buffer is long. -/
def Statement.IsLow (s : Statement) : Prop :=
  ∀ e ∈ s.exprs, e.height ≤ Line.bufferSize

namespace Program

/-- A program whose lines were all loaded: none was stored without a look at its length. -/
inductive Loaded : Program → Prop
  | empty (limit : UInt32) : Loaded (.empty limit)
  | take {p : Program} (h : Loaded p) {a : Action} (ha : ∀ l, a ≠ .insert l) :
      Loaded (a.take p).2

def IsLow (p : Program) : Prop :=
  p.Each fun _ e => e.statement.IsLow

section

variable {p q : Program} {s : String}

/-- A line that is loaded fits the line buffer, and makes of the program what entering it can. -/
theorem edits_of_load (h : p.load s = .ok q) : Line.fits s = true ∧ p.Edits s q := by
  constructor
  · rw [load] at h
    split at h
    · next hf => exact hf
    · cases h
  · obtain ⟨-, ⟨n, -, rfl⟩ | ⟨-, rfl⟩⟩ | ⟨-, old, hi⟩ := cases_of_load h
    · exact .erase n
    · exact .keep
    · exact .insert hi

theorem IsLow.edits (h : p.IsLow) (he : p.Edits s q) (hf : Line.fits s = true) : q.IsLow :=
  Each.edits h he (fun _ _ _ he => he) fun _ _ _ _ hs => Line.height_le_of_fits hf hs

theorem IsLow.take (h : p.IsLow) {a : Action} (ha : ∀ l, a ≠ .insert l) : (a.take p).2.IsLow := by
  cases a with
  | insert l => exact absurd rfl (ha l)
  | load s =>
      cases hl : p.load s with
      | error e =>
          rw [Action.take, hl]
          exact h
      | ok q =>
          obtain ⟨hf, he⟩ := edits_of_load hl
          rw [Action.take, hl]
          exact h.edits he hf
  | erase n => exact Each.erase h n
  | clear => exact p.each_clear
  | increment n => exact Each.increment h fun _ _ he => he
  | resetCounts => exact Each.resetCounts h fun _ _ he => he

theorem Loaded.isLow (h : p.Loaded) : p.IsLow := by
  induction h with
  | empty limit => exact each_empty limit
  | take _ ha ih => exact ih.take ha

end

end Program

namespace Machine

/-- The machine executes a statement on a request: a direct one that is entered while no question is
open, or the one of a line that it attempts. -/
inductive Executes (m : Machine) : Request → Statement → Prop
  | direct {s : String} {st : Statement} (hw : ∀ x l, m.control ≠ .awaiting x l)
      (hf : Line.fits s = true) (hn : (Line.ofText s).number = none)
      (hs : (Line.ofText s).statement = .ok st) : Executes m (.enter s) st
  | attempt {cycles : Nat} {a : Attempt} {e : StoredLine} (ha : a ∈ m.executeAttempts cycles)
      (he : a.machine.program.find? a.line = some e) : Executes m (.execute cycles) e.statement

def Record.Executes (r : Record) (st : Statement) : Prop :=
  r.machine.Executes r.request st

section

variable {m : Machine} {s : String} {st : Statement}

theorem program_enter_of_not_fits (hf : Line.fits s = false) :
    (m.enter s).2.program = m.program := by
  have h := m.enters s
  generalize m.enter s = r at h ⊢
  cases h with
  | answered => exact m.program_answer ..
  | invalid | tooLong => rfl
  | blank _ hf' | bare _ hf' | refused _ hf' | stored _ hf' | command _ hf' | misread _ hf'
  | direct _ hf' => cases hf.symm.trans hf'

theorem isLow_enter (h : m.program.IsLow) (s : String) : (m.enter s).2.program.IsLow := by
  cases hf : Line.fits s with
  | true => exact h.edits (m.edits_enter s) hf
  | false => rwa [program_enter_of_not_fits hf]

theorem isLow_step (h : m.program.IsLow) : m.step.2.program.IsLow :=
  each_step (fun _ _ _ he => he) h

/-- What a request makes of the program is low, if a program that is set was loaded. -/
theorem isLow_meet (h : m.program.IsLow) {r : Request}
    (hr : ∀ p, r = .setProgram p → p.Loaded) : (m.meet r).program.IsLow := by
  cases r with
  | enter s => exact isLow_enter h s
  | interrupt => rwa [meet, program_interrupt]
  | setProgram p => exact (hr p rfl).isLow
  | execute cycles =>
      exact execute_preserves (P := fun m => m.program.IsLow) (fun _ => isLow_step)
        (fun _ _ _ _ h => h) cycles h

theorem forall_mem_executeAttempts {P : Machine → Prop} (hP : ∀ m, P m → P m.step.2)
    (cycles : Nat) (h : P m) : ∀ a ∈ m.executeAttempts cycles, P a.machine := by
  refine execute_relates (P := P) (R := fun _ log _ => ∀ a ∈ log, P a.machine) hP
    (fun _ _ => nofun) (fun h h' => List.forall_mem_append.2 ⟨h, h'⟩) (fun m hm a ha => ?_) cycles h
  obtain ⟨hattempt, -⟩ | ⟨n, -, -, -, -, hattempt, -⟩ := m.attempt?_eq_none_or
  · rw [hattempt] at ha
    cases ha
  · rw [hattempt] at ha
    obtain rfl := List.mem_singleton.1 ha
    exact hm

theorem Executes.isLow {r : Request} (h : m.Executes r st) (hm : m.program.IsLow) : st.IsLow := by
  cases h with
  | direct _ hf _ hs => exact Line.height_le_of_fits hf hs
  | @attempt cycles a e ha he =>
      have hlow := forall_mem_executeAttempts (P := fun m => m.program.IsLow)
        (fun _ => isLow_step) cycles hm a ha
      exact hlow a.line e he

/-- The statements that are stored, or were executed, after any requests are low. -/
theorem isLow_drive {requests : List Request} (hm : m.program.IsLow)
    (h : ∀ p, .setProgram p ∈ requests → p.Loaded) :
    (m.drive requests).program.IsLow ∧
      ∀ r ∈ m.records requests, ∀ st, r.Executes st → st.IsLow := by
  induction requests generalizing m with
  | nil => exact ⟨hm, nofun⟩
  | cons r requests ih =>
      have hmeet : (m.meet r).program.IsLow :=
        isLow_meet hm fun p hp => h p (hp ▸ List.mem_cons_self)
      obtain ⟨hprogram, hexecuted⟩ := ih hmeet fun p hp => h p (List.mem_cons_of_mem r hp)
      exact ⟨hprogram, List.forall_mem_cons.2 ⟨fun st hst => Executes.isLow hst hm, hexecuted⟩⟩

end

/-- No walk through an expression goes deeper than the line buffer is long. Whatever tokens a
statement is read from, none of its expressions is higher than the number of tokens that are no
blanks. Whatever is requested of a new machine, as long as the programs that are set were loaded,
the expressions of the statements that are stored, or were executed, are at most 1024 levels high,
and evaluating or writing one has at most 1024 calls open at a time. -/
theorem height_le_and_walksWithin :
    (∀ ts st, Statement.ofTokens ts = .ok st →
      ∀ e ∈ st.exprs, e.height ≤ (Token.significant ts).length) ∧
    ∀ limit requests, (∀ p, .setProgram p ∈ requests → p.Loaded) →
      ∀ st, (∃ n line, ((new limit).drive requests).program.find? n = some line ∧
            line.statement = st) ∨
          (∃ r ∈ (new limit).records requests, r.Executes st) →
        ∀ e ∈ st.exprs, e.height ≤ 1024 ∧ e.WalksWithin 1024 := by
  constructor
  · intro ts st h e he
    exact Nat.le_of_lt (Statement.height_lt_of_ofTokens h e he)
  · intro limit requests hloaded st hst e he
    have hnew : (new limit).program.IsLow := Program.each_empty limit
    obtain ⟨hprogram, hexecuted⟩ := isLow_drive hnew hloaded
    have hlow : st.IsLow := by
      obtain ⟨n, line, hn, rfl⟩ | ⟨r, hr, hst⟩ := hst
      · exact hprogram n line hn
      · exact hexecuted r hr st hst
    have hle : e.height ≤ 1024 := hlow e he
    exact ⟨hle, Expr.walksWithin_iff.2 hle⟩

/-- A sum of sixty-six terms, which is higher than parentheses may nest, a literal with a sign, and
the statement of a line that is loaded and attempted. -/
theorem height_le_and_walksWithin_of_long_sum :
    let product : Expr := .binary .multiply (.binary .subtract (.int 0) (.var "A")) (.int 5)
    let difference : Expr := .binary .subtract (.int 0) (.binary .add (.int 2) (.int 3))
    let total : Expr := (List.replicate 65 (.int 1)).foldl (.binary .add) (.int 1)
    let typed := "PRINT 1" ++ String.join (List.replicate 65 "+1")
    let p := (Program.empty 9).put
      ⟨10, Line.ofText "10 LET A=-(2+3)", .assign "A" difference, 0⟩
    let requests : List Request := [.setProgram p, .enter "RUN", .execute 1]
    Statement.ofTokens [.word .PRINT, .blanks 2, .operator .minus, .ident "A", .operator .multiply,
        .literal "+5"] = .ok (.print product) ∧ product.height ≤ 5 ∧
      (Line.ofText typed).statement = .ok (.print total) ∧ total.height = 66 ∧
      total.WalksWithin 1024 ∧ p.Loaded ∧
      ((new 3).drive requests).vars.fetch "A" = .ok (-5) ∧ difference.WalksWithin 1024 := by
  intro product difference total typed p requests
  have hproduct : Statement.ofTokens [.word .PRINT, .blanks 2, .operator .minus, .ident "A",
      .operator .multiply, .literal "+5"] = .ok (.print product) := by decide +kernel
  obtain ⟨hn, htotal⟩ : (Line.ofText typed).number = none ∧
      (Line.ofText typed).statement = .ok (.print total) := by decide +kernel
  have htyped : ∃ r ∈ (new 3).records [.enter typed], r.Executes (.print total) :=
    ⟨⟨new 3, .enter typed⟩, List.mem_cons_self, .direct nofun (by decide +kernel) hn htotal⟩
  have hp : p.Loaded := by
    have hload : ((Program.Action.load "10 LET A=-(2+3)").take (.empty 9)).2 = p := by
      decide +kernel
    exact hload ▸ .take (.empty 9) nofun
  have hset : ∀ q, .setProgram q ∈ requests → q.Loaded := by
    intro q hq
    obtain rfl : q = p := by simpa [requests] using hq
    exact hp
  have hstored : ((new 3).drive requests).program.find? 10 =
      some ⟨10, Line.ofText "10 LET A=-(2+3)", .assign "A" difference, 1⟩ := by decide +kernel
  obtain ⟨htokens, hwalks⟩ := height_le_and_walksWithin
  obtain ⟨-, hsum⟩ := hwalks 3 [.enter typed] (by simp) _ (.inr htyped) total List.mem_cons_self
  obtain ⟨-, hdifference⟩ :=
    hwalks 3 requests hset _ (.inl ⟨10, _, hstored, rfl⟩) difference List.mem_cons_self
  exact ⟨hproduct, htokens _ _ hproduct product List.mem_cons_self, htotal, by decide +kernel, hsum,
    hp, by decide +kernel, hdifference⟩

end Machine

end IntegerBasic
