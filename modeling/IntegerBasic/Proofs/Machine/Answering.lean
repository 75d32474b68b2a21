import IntegerBasic.Proofs.Session.Prompts
import IntegerBasic.Proofs.Text.Answers

/-!
# Answers to a question

The main statement is that a question takes exactly the texts that answer it with a value, and that
the text of a printed value is one of them.
-/

namespace IntegerBasic

namespace Value

/-- The text of a value answers with this value, after any white space. -/
theorem answers_append_text {space : String} (h : ∀ c ∈ space.toList, Text.isSpace c = true)
    (v : Value) : Text.Answers (space ++ v.text) v.toInt := by
  refine ⟨_, _, String.toList_append, h, Text.signed?_eq_some_iff.1 ?_⟩
  rw [text, Text.signed?_repr]

/-- A question takes the integers of 32 bits and nothing else: white space, and then digits, with
one sign before them at most. And what is printed for a value, without the line end and after any
white space, answers a question with this value, which is stored; nothing else is changed but what
the machine does next. -/
theorem ofAnswer?_exact_and_takes_printed :
    (∀ s n, (∃ v, ofAnswer? s = some v ∧ v.toInt = n) ↔
      Text.Answers s n ∧ -2147483648 ≤ n ∧ n ≤ 2147483647) ∧
    ∀ v : Value,
      (∀ e p vars, e.eval vars = .ok v →
        (Statement.print e).execute p vars = .ok (.print (v.text ++ "\n"), vars)) ∧
      ∀ (m : Machine) x line (space : String), m.control = .awaiting x line →
        (∀ c ∈ space.toList, Text.isSpace c = true) →
        ∃ m', m.enter (space ++ v.text) = (false, m') ∧ m'.vars.fetch? x = some v ∧
          (∀ y, y ≠ x → m'.vars.fetch? y = m.vars.fetch? y) ∧
          m'.program = m.program ∧ m'.queue = m.queue := by
  refine ⟨fun s n => ?_, fun v => ⟨fun e p vars he => ?_, fun m x line space hc hspace => ?_⟩⟩
  · constructor
    · rintro ⟨v, hv, rfl⟩
      have hlow := Int32.le_toInt v
      have hhigh := Int32.toInt_lt v
      exact ⟨ofAnswer?_eq_some_iff.1 hv, by omega, by omega⟩
    · rintro ⟨h, hlow, hhigh⟩
      have hint : (Int32.ofInt n).toInt = n := Int32.toInt_ofInt_of_le (by omega) (by omega)
      exact ⟨Int32.ofInt n, ofAnswer?_eq_some_iff.2 (hint.symm ▸ h), hint⟩
  · rw [Statement.execute, he]
  · have hv : ofAnswer? (space ++ v.text) = some v :=
      ofAnswer?_eq_some_iff.2 (answers_append_text hspace v)
    obtain ⟨hvars, hqueue⟩ := Machine.vars_and_queue_answer (m := m) (x := x) hv line
    refine ⟨_, Machine.enter_of_awaiting hc _, ?_, fun y hy => ?_, ?_, hqueue⟩
    · rw [hvars, Variables.fetch?_store_self]
    · rw [hvars, Variables.fetch?_store, if_neg hy]
    · exact Machine.program_answer m x line _

/-- The least value, after a no-break space, and a numeral with a sign and leading zeros that is too
large by one. -/
theorem ofAnswer?_exact_and_takes_printed_of_least_value :
    let m := ((Machine.new 3).enter "INPUT X").2
    m.control = .awaiting "X" none ∧
      (∃ v, ofAnswer? "\u00a0\t-02147483648" = some v ∧ v.toInt = -2147483648) ∧
      (¬ ∃ v, ofAnswer? "+02147483648" = some v ∧ v.toInt = 2147483648) ∧
      ∃ m', m.enter ("\u00a0\t" ++ text (-2147483648)) = (false, m') ∧
        m'.vars.fetch? "X" = some (-2147483648) := by
  intro m
  have hc : m.control = .awaiting "X" none := by decide +kernel
  obtain ⟨hexact, hprinted⟩ := ofAnswer?_exact_and_takes_printed
  have hleast : Text.Answers "\u00a0\t-02147483648" (-2147483648) := by
    have hdigits : ∀ c ∈ "02147483648".toList, c.isDigit = true := List.all_eq_true.1 (by decide)
    exact ⟨['\u00a0', '\t'], _, rfl, List.all_eq_true.1 (by decide), .minus (by decide) hdigits⟩
  have hspace : ∀ c ∈ "\u00a0\t".toList, Text.isSpace c = true := List.all_eq_true.1 (by decide)
  obtain ⟨m', henter, hfetch, _⟩ := (hprinted (-2147483648)).2 m "X" none "\u00a0\t" hc hspace
  exact ⟨hc, (hexact _ _).2 ⟨hleast, by decide, by decide⟩,
    fun h => absurd ((hexact _ _).1 h).2.2 (by decide), m', henter, hfetch⟩

end Value

end IntegerBasic
