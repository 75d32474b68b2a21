import IntegerBasic.Program.Remaining

/-!
# Stored lines under the operations

What each operation of a program does to the line that is found under a number, and which
line is found first or next. `Each` says that all stored lines have a property; the main
statements say which operations keep it.
-/

namespace IntegerBasic

theorem concat_eq_append_cons_iff {α : Type} {l before after : List α} {x a : α} :
    l ++ [x] = before ++ a :: after ↔ after = [] ∧ before = l ∧ a = x ∨
      ∃ after', after = after' ++ [x] ∧ l = before ++ a :: after' := by
  constructor
  · intro h
    rcases List.eq_nil_or_concat after with rfl | ⟨after', y, rfl⟩
    · obtain ⟨rfl, hxa⟩ := List.append_inj' h rfl
      cases hxa
      exact .inl ⟨rfl, rfl, rfl⟩
    · rw [List.concat_eq_append, ← List.cons_append, ← List.append_assoc] at h
      obtain ⟨rfl, hxy⟩ := List.append_inj' h rfl
      cases hxy
      exact .inr ⟨after', List.concat_eq_append, rfl⟩
  · rintro (⟨rfl, rfl, rfl⟩ | ⟨after', rfl, rfl⟩)
    · rfl
    · rw [List.append_assoc, List.cons_append]

theorem StoredLine.putInto_of_forall_lt {e : StoredLine} {l : List StoredLine}
    (h : ∀ x ∈ l, x.number < e.number) : e.putInto l = l ++ [e] := by
  induction l with
  | nil => rfl
  | cons x l ih =>
      obtain ⟨hx, hl⟩ := List.forall_mem_cons.1 h
      have hlt : ¬ e.number < x.number := UInt32.not_lt.2 (UInt32.le_of_lt hx)
      have hne : e.number ≠ x.number := (UInt32.ne_of_lt hx).symm
      rw [putInto, if_neg hlt, if_neg hne, ih hl, List.cons_append]

namespace Program

variable {p q : Program} {n : LineNumber}

@[simp] theorem limit_increment (p : Program) (n : LineNumber) :
    (p.increment n).2.limit = p.limit := by
  unfold increment
  split <;> rfl

@[simp] theorem find?_resetCounts (p : Program) (n : LineNumber) :
    p.resetCounts.find? n = (p.find? n).map fun e => { e with count := 0 } :=
  find?_mapCounts p _ n

/-- Counting an attempt changes the count of that line and nothing else. -/
theorem find?_increment (p : Program) (n k : LineNumber) :
    (p.increment n).2.find? k = (p.find? k).map fun e =>
      if k = n then { e with count := countUp e.count } else e := by
  cases hn : p.find? n with
  | none =>
      rw [increment, hn]
      by_cases hk : k = n
      · rw [hk, hn, Option.map_none]
      · simp [hk]
  | some e =>
      rw [increment_of_find? hn, find?_mapCounts]
      cases hk : p.find? k with
      | none => rfl
      | some f =>
          have hf := number_of_find? hk
          by_cases hkn : k = n
          · subst hkn
            rw [hn] at hk
            cases hk
            simp [hf]
          · have hfn : f.number ≠ n := fun h => hkn (hf ▸ h)
            simp [hfn, hkn]

theorem find?_eq_some_iff {n : LineNumber} {e : StoredLine} :
    p.find? n = some e ↔ e ∈ p.lines ∧ e.number = n := by
  constructor
  · intro h
    exact ⟨List.mem_of_find?_eq_some h, number_of_find? h⟩
  · rintro ⟨he, rfl⟩
    obtain ⟨x, hx⟩ := Option.isSome_iff_exists.1 (contains_iff.2 ⟨e, he, rfl⟩)
    obtain ⟨before, after, hl, hbefore, hafter⟩ := exists_append_of_find? hx
    rw [hx]
    rw [hl] at he
    rcases List.mem_append.1 he with he | he
    · exact absurd rfl (hbefore e he)
    · rcases List.mem_cons.1 he with rfl | he
      · rfl
      · exact absurd rfl (hafter e he)

theorem first?_eq_none_iff : p.first? = none ↔ ∀ n, p.find? n = none := by
  rw [first?, Option.map_eq_none_iff, List.head?_eq_none_iff]
  constructor
  · intro h n
    rw [find?, h, List.find?_nil]
  · intro h
    cases hl : p.lines with
    | nil => rfl
    | cons e l =>
        have he := h e.number
        simp [find?, hl] at he

@[simp] theorem first?_resetCounts (p : Program) : p.resetCounts.first? = p.first? := by
  rw [first?, resetCounts, mapCounts, List.head?_map, Option.map_map]
  rfl

theorem first?_eq_some_iff {m : LineNumber} :
    p.first? = some m ↔ p.contains m = true ∧ ∀ k, p.contains k = true → m ≤ k := by
  simp only [contains_iff, forall_exists_index, and_imp, forall_apply_eq_imp_iff₂]
  rw [first?]
  cases hl : p.lines with
  | nil => simp
  | cons x l =>
      have hx := (List.pairwise_cons.1 (hl ▸ p.ascending)).1
      constructor
      · intro h
        obtain rfl : x.number = m := by simpa using h
        refine ⟨⟨x, List.mem_cons_self, rfl⟩, fun e he => ?_⟩
        rcases List.mem_cons.1 he with rfl | he
        · exact UInt32.le_refl _
        · exact UInt32.le_of_lt (hx e he)
      · intro h
        obtain ⟨⟨e, he, rfl⟩, hmin⟩ := h
        rcases List.mem_cons.1 he with rfl | he
        · rfl
        · exact absurd (hx e he) (UInt32.not_lt.2 (hmin x List.mem_cons_self))

theorem next?_eq_none_iff : p.next? n = none ↔ ∀ k, p.contains k = true → ¬ n < k := by
  simp only [contains_iff, forall_exists_index, and_imp, forall_apply_eq_imp_iff₂]
  rw [next?, Option.map_eq_none_iff, List.find?_eq_none]
  simp

/-- A numbered line that says a statement is stored, and no other. -/
theorem insert_eq_ok_iff {l : Line} {old : Option Line} :
    p.insert l = .ok (old, q) ↔ ∃ n s, l.number = some n ∧ n ≠ 0 ∧ l.statement = .ok s ∧
      old = (p.find? n).map StoredLine.line ∧ q = p.put ⟨n, l, s, 0⟩ := by
  unfold insert
  cases l.number with
  | none => simp
  | some n =>
      by_cases hn : n = 0
      · simp [hn]
      · cases l.statement with
        | error f => simp [hn]
        | ok s => simp [hn, eq_comm]

theorem insert_of_statement (p : Program) {l : Line} {s : Statement} (hn : l.number = some n)
    (hz : n ≠ 0) (hs : l.statement = .ok s) :
    p.insert l = .ok ((p.find? n).map StoredLine.line, p.put ⟨n, l, s, 0⟩) :=
  insert_eq_ok_iff.2 ⟨n, s, hn, hz, hs, rfl, rfl⟩

/-- A line of a file removes a line or does nothing, if it holds no token, and else is stored. -/
theorem cases_of_load {s : String} (h : p.load s = .ok q) :
    ((Line.ofText s).tokens = [] ∧
      ((∃ n, (Line.ofText s).number = some n ∧ q = p.erase n) ∨
        (Line.ofText s).number = none ∧ q = p)) ∨
    (Line.ofText s).tokens ≠ [] ∧ ∃ old, p.insert (Line.ofText s) = .ok (old, q) := by
  rw [load] at h
  split at h
  · dsimp only at h
    split at h
    · next he =>
        refine .inl ⟨(Line.isEmpty_iff _).1 he, ?_⟩
        split at h
        · next n hn =>
            cases h
            exact .inl ⟨n, hn, rfl⟩
        · next hn =>
            cases h
            exact .inr ⟨hn, rfl⟩
    · next he =>
        refine .inr ⟨fun ht => he ((Line.isEmpty_iff _).2 ht), ?_⟩
        split at h
        · cases h
        · cases hi : p.insert (Line.ofText s) with
          | error e =>
              rw [hi] at h
              cases h
          | ok r =>
              rw [hi] at h
              cases h
              exact ⟨r.1, rfl⟩
  · cases h

def Each (p : Program) (P : LineNumber → StoredLine → Prop) : Prop :=
  ∀ n e, p.find? n = some e → P n e

def Admits (P : LineNumber → StoredLine → Prop) : Prop :=
  ∀ n l s, l.number = some n → n ≠ 0 → l.statement = .ok s → P n ⟨n, l, s, 0⟩

section

variable {P : LineNumber → StoredLine → Prop}

theorem Each.of_mem {P : LineNumber → StoredLine → Prop} (h : p.Each P) {e : StoredLine}
    (he : e ∈ p.lines) : P e.number e :=
  h _ e (find?_eq_some_iff.2 ⟨he, rfl⟩)

theorem each_empty (limit : UInt32) : (empty limit).Each P :=
  fun _ _ h => nomatch h

theorem each_clear (p : Program) : p.clear.Each P :=
  each_empty p.limit

theorem Each.erase (h : p.Each P) (n : LineNumber) : (p.erase n).Each P := by
  intro k e hk
  rw [find?_erase] at hk
  split at hk
  · cases hk
  · exact h k e hk

theorem Each.put (h : p.Each P) {e : StoredLine} (he : P e.number e) : (p.put e).Each P := by
  intro k f hk
  rw [find?_put] at hk
  split at hk
  · next hkn =>
      cases hk
      subst hkn
      exact he
  · exact h k f hk

theorem Each.insert {l : Line} {old : Option Line} (h : p.Each P) (hP : Admits P)
    (hi : p.insert l = .ok (old, q)) : q.Each P := by
  rcases insert_eq_ok_iff.1 hi with ⟨n, s, hn, hz, hs, _, rfl⟩
  exact h.put (hP n l s hn hz hs)

theorem Each.load {s : String} (h : p.Each P) (hP : Admits P) (hl : p.load s = .ok q) :
    q.Each P := by
  rcases cases_of_load hl with ⟨_, ⟨n, _, rfl⟩ | ⟨_, rfl⟩⟩ | ⟨_, old, hi⟩
  · exact h.erase n
  · exact h
  · exact h.insert hP hi

theorem Each.resetCounts (h : p.Each P) (hP : ∀ n e, P n e → P n { e with count := 0 }) :
    p.resetCounts.Each P := by
  intro n e hn
  rw [find?_resetCounts, Option.map_eq_some_iff] at hn
  obtain ⟨f, hf, rfl⟩ := hn
  exact hP n f (h n f hf)

theorem Each.increment (h : p.Each P)
    (hP : ∀ e, p.find? n = some e → P n e → P n { e with count := countUp e.count }) :
    (p.increment n).2.Each P := by
  intro k e hk
  rw [find?_increment, Option.map_eq_some_iff] at hk
  obtain ⟨f, hf, rfl⟩ := hk
  split
  · next hkn =>
      subst hkn
      exact hP f hf (h k f hf)
  · exact h k f hf

end

theorem limit_insert {l : Line} {old : Option Line} (h : p.insert l = .ok (old, q)) :
    q.limit = p.limit := by
  rcases insert_eq_ok_iff.1 h with ⟨_, _, _, _, _, _, rfl⟩
  rfl

end Program

end IntegerBasic
