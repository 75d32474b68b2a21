import IntegerBasic.Proofs.Machine.Step

/-!
# What entering a text can do

`Enters m s` lists all that entering the text `s` can come to, each with what must be the case for
it: whether the text is worth keeping, and the machine afterwards. The main statement is that
nothing else can happen.
-/

namespace IntegerBasic

theorem Line.number_and_tokens_of_command? {l : Line} {c : Command} (h : l.command? = some c) :
    l.number = none ∧ l.tokens ≠ [] := by
  rw [command?] at h
  split at h
  · next hd =>
      refine ⟨(isDirect_iff l).1 hd, fun ht => ?_⟩
      rw [ht] at h
      cases h
  · cases h

namespace Machine

/-- What entering a text can come to: an answer, if a question is open, and else a text that is
too long, a line that holds nothing but, perhaps, a number, a numbered line, or a direct line. -/
inductive Enters (m : Machine) (s : String) : Bool × Machine → Prop
  | answered {x : String} {line : Option LineNumber} {v : Value}
      (hc : m.control = .awaiting x line) (hv : Value.ofAnswer? s = some v) :
      Enters m s (false, m.answer x line s)
  | invalid {x : String} {line : Option LineNumber} (hc : m.control = .awaiting x line)
      (hv : Value.ofAnswer? s = none) :
      Enters m s (false, { m with queue := m.queue ++ [.print "INVALID NUMBER\n"] })
  | tooLong (hw : ∀ x l, m.control ≠ .awaiting x l) (hf : Line.fits s = false) :
      Enters m s (false, { m with queue := m.queue ++ [.error .lineTooLong] })
  | blank (hw : ∀ x l, m.control ≠ .awaiting x l) (hf : Line.fits s = true)
      (ht : (Line.ofText s).tokens = []) (hn : (Line.ofText s).number = none) :
      Enters m s (false, m)
  | bare {n : LineNumber} (hw : ∀ x l, m.control ≠ .awaiting x l) (hf : Line.fits s = true)
      (ht : (Line.ofText s).tokens = []) (hn : (Line.ofText s).number = some n) :
      Enters m s (true, { m with program := m.program.erase n })
  | refused {n : LineNumber} {e : Error} (hw : ∀ x l, m.control ≠ .awaiting x l)
      (hf : Line.fits s = true) (ht : (Line.ofText s).tokens ≠ [])
      (hn : (Line.ofText s).number = some n) (hi : m.program.insert (Line.ofText s) = .error e) :
      Enters m s (true, { m with queue := m.queue ++ [.error e] })
  | stored {n : LineNumber} {old : Option Line} {p : Program}
      (hw : ∀ x l, m.control ≠ .awaiting x l) (hf : Line.fits s = true)
      (ht : (Line.ofText s).tokens ≠ []) (hn : (Line.ofText s).number = some n)
      (hi : m.program.insert (Line.ofText s) = .ok (old, p)) :
      Enters m s (true, { m with program := p })
  | command {c : Command} {m' : Machine} (hw : ∀ x l, m.control ≠ .awaiting x l)
      (hf : Line.fits s = true) (hc : (Line.ofText s).command? = some c) (ho : m.Complies c m') :
      Enters m s (true, m')
  | misread {f : SyntaxFault} (hw : ∀ x l, m.control ≠ .awaiting x l) (hf : Line.fits s = true)
      (hn : (Line.ofText s).number = none) (ht : (Line.ofText s).tokens ≠ [])
      (hc : (Line.ofText s).command? = none) (hs : (Line.ofText s).statement = .error f) :
      Enters m s (true, { m with queue := m.queue ++ [.error f.toError] })
  | direct {st : Statement} {m' : Machine} (hw : ∀ x l, m.control ≠ .awaiting x l)
      (hf : Line.fits s = true) (hn : (Line.ofText s).number = none)
      (hc : (Line.ofText s).command? = none) (hs : (Line.ofText s).statement = .ok st)
      (ho : m.Obeys st m') : Enters m s (true, m')

section

variable {m : Machine} {s : String}

theorem enters_enterDirect (hw : ∀ x l, m.control ≠ .awaiting x l) (hf : Line.fits s = true)
    (ht : (Line.ofText s).tokens ≠ []) (hn : (Line.ofText s).number = none) :
    Enters m s (true, m.enterDirect (Line.ofText s)) := by
  rw [enterDirect]
  split
  · next c hc => exact .command hw hf hc (m.complies_obey c)
  · next hc =>
      split
      · next hs => exact .misread hw hf hn ht hc hs
      · next st hs => exact .direct hw hf hn hc hs (m.obeys_executeDirect st)

theorem enters_enterNumbered {n : LineNumber} (hw : ∀ x l, m.control ≠ .awaiting x l)
    (hf : Line.fits s = true) (ht : (Line.ofText s).tokens ≠ [])
    (hn : (Line.ofText s).number = some n) :
    Enters m s (true, m.enterNumbered (Line.ofText s)) := by
  rw [enterNumbered]
  split
  · next hi => exact .refused hw hf ht hn hi
  · next hi => exact .stored hw hf ht hn hi

theorem enters_enterLine (hw : ∀ x l, m.control ≠ .awaiting x l) (s : String) :
    Enters m s (m.enterLine s) := by
  rw [enterLine]
  split
  · next hf =>
      dsimp only
      split
      · next he =>
          have ht := (Line.isEmpty_iff _).1 he
          split
          · next hn => exact .bare hw hf ht hn
          · next hn => exact .blank hw hf ht hn
      · next he =>
          have ht := fun h => he ((Line.isEmpty_iff _).2 h)
          split
          · next hd => exact enters_enterDirect hw hf ht ((Line.isDirect_iff _).1 hd)
          · next hd =>
              obtain ⟨n, hn⟩ := Option.ne_none_iff_exists'.1 fun h =>
                hd ((Line.isDirect_iff _).2 h)
              exact enters_enterNumbered hw hf ht hn
  · next hf => exact .tooLong hw (Bool.eq_false_iff.2 hf)

end

/-- Nothing else can happen. -/
theorem enters (m : Machine) (s : String) : Enters m s (m.enter s) := by
  cases hc : m.control with
  | stopped | running =>
      have hw : ∀ x l, m.control ≠ .awaiting x l := fun x l h => by
        rw [hc] at h
        cases h
      rw [enter_of_not_awaiting hw]
      exact enters_enterLine hw s
  | awaiting x line =>
      cases hv : Value.ofAnswer? s with
      | some v =>
          rw [enter_of_awaiting hc]
          exact .answered hc hv
      | none =>
          rw [enter_of_awaiting hc, answer, hv]
          exact .invalid hc hv

/-- A numbered line changes what is stored under its number, and nothing else: a bare number
removes the line, and a line that says a statement is stored. -/
theorem Enters.find?_of_number {m : Machine} {s : String} {r : Bool × Machine} {n : LineNumber}
    (h : m.Enters s r) (hw : ∀ x l, m.control ≠ .awaiting x l) (hf : Line.fits s = true)
    (hn : (Line.ofText s).number = some n) :
    (∀ k, k ≠ n → r.2.program.find? k = m.program.find? k) ∧
      ((Line.ofText s).tokens = [] → r.2.program.find? n = none) ∧
      ∀ st, n ≠ 0 → (Line.ofText s).statement = .ok st →
        r.2.program.find? n = some ⟨n, Line.ofText s, st, 0⟩ := by
  cases h with
  | answered hc | invalid hc => exact absurd hc (hw _ _)
  | tooLong _ hf' => cases hf.symm.trans hf'
  | blank _ _ _ hn' | misread _ _ hn' | direct _ _ hn' => cases hn.symm.trans hn'
  | command _ _ hc => cases hn.symm.trans (Line.number_and_tokens_of_command? hc).1
  | bare _ _ ht hn' =>
      cases hn.symm.trans hn'
      refine ⟨fun k hk => ?_, fun _ => ?_, fun st _ hs => ?_⟩
      · rw [Program.find?_erase, if_neg hk]
      · rw [Program.find?_erase, if_pos rfl]
      · exact absurd ht (Line.tokens_ne_nil_of_statement hs)
  | refused _ _ ht _ hi =>
      refine ⟨fun _ _ => rfl, fun hnil => absurd hnil ht, fun st hz hs => ?_⟩
      cases hi.symm.trans (m.program.insert_of_statement hn hz hs)
  | stored _ _ ht _ hi =>
      obtain ⟨k, st, hk, _, hs, _, rfl⟩ := Program.insert_eq_ok_iff.1 hi
      cases hn.symm.trans hk
      refine ⟨fun j hj => ?_, fun hnil => absurd hnil ht, fun st' _ hs' => ?_⟩
      · rw [Program.find?_put, if_neg hj]
      · cases hs.symm.trans hs'
        rw [Program.find?_put, if_pos rfl]

theorem enter_command {m : Machine} {s : String} {c : Command}
    (hw : ∀ x l, m.control ≠ .awaiting x l) (hf : Line.fits s = true)
    (hc : (Line.ofText s).command? = some c) : m.enter s = (true, m.obey c) := by
  obtain ⟨hn, ht⟩ := Line.number_and_tokens_of_command? hc
  have hne : ¬ (Line.ofText s).isEmpty = true := fun he => ht ((Line.isEmpty_iff _).1 he)
  rw [enter_of_not_awaiting hw, enterLine, if_pos hf]
  dsimp only
  rw [if_neg hne, if_pos ((Line.isDirect_iff _).2 hn), enterDirect, hc]

end Machine

end IntegerBasic
