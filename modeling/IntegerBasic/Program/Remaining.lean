import IntegerBasic.Program

/-!
# Remaining attempts

The attempts that a program can still make are, line by line, the limit less the
count. The main statements say that counting an attempt never makes them more,
and makes them fewer when the attempt succeeds.
-/

namespace IntegerBasic

namespace Program

def attemptsLeft (limit : UInt32) : List StoredLine → Nat
  | [] => 0
  | e :: l => limit.toNat - e.count.toNat + attemptsLeft limit l

theorem attemptsLeft_append (limit : UInt32) (l l' : List StoredLine) :
    attemptsLeft limit (l ++ l') = attemptsLeft limit l + attemptsLeft limit l' := by
  induction l with
  | nil => exact (Nat.zero_add _).symm
  | cons e l ih => rw [List.cons_append, attemptsLeft, ih, attemptsLeft, Nat.add_assoc]

/-- The number of attempts until every line has reached the limit. -/
def remaining (p : Program) : Nat :=
  attemptsLeft p.limit p.lines

/-- A stored line splits the program into the lines with other numbers before it
and those after it. -/
theorem exists_append_of_find? {p : Program} {n : LineNumber} {e : StoredLine}
    (h : p.find? n = some e) :
    ∃ before after, p.lines = before ++ e :: after ∧
      (∀ x ∈ before, x.number ≠ n) ∧ (∀ x ∈ after, x.number ≠ n) := by
  obtain ⟨hn, before, after, hl, hb⟩ := List.find?_eq_some_iff_append.1 h
  refine ⟨before, after, hl, fun x hx => by simpa using hb x hx, fun x hx hxn => ?_⟩
  have hp := p.ascending
  rw [hl] at hp
  have hlt := (List.pairwise_cons.1 (List.pairwise_append.1 hp).2.1).1 x hx
  have hen : e.number = n := of_decide_eq_true hn
  rw [hxn, hen] at hlt
  exact UInt32.lt_irrefl n hlt

theorem map_count_eq_self {c : UInt32} {n : LineNumber} {l : List StoredLine}
    (h : ∀ x ∈ l, x.number ≠ n) :
    (l.map fun x => { x with count := if x.number = n then c else x.count }) = l := by
  induction l with
  | nil => rfl
  | cons y ys ih =>
      rw [List.map_cons, ih fun x hx => h x (List.mem_cons_of_mem _ hx),
        if_neg (h y List.mem_cons_self)]

theorem increment_of_find? {p : Program} {n : LineNumber} {e : StoredLine}
    (h : p.find? n = some e) :
    p.increment n =
      (if p.limit ≤ countUp e.count then .error .limitReached else .ok (),
        p.mapCounts fun x => if x.number = n then countUp e.count else x.count) := by
  rw [increment, h]

theorem le_countUp (c : UInt32) : c.toNat ≤ (countUp c).toNat := by
  have := c.toNat_lt
  rw [toNat_countUp]
  omega

theorem remaining_increment {p : Program} {n : LineNumber} {e : StoredLine}
    (h : p.find? n = some e) :
    (p.increment n).2.remaining + (p.limit.toNat - e.count.toNat) =
      p.remaining + (p.limit.toNat - (countUp e.count).toNat) := by
  obtain ⟨before, after, hl, hb, ha⟩ := exists_append_of_find? h
  have hn := number_of_find? h
  rw [increment_of_find? h]
  simp only [remaining, mapCounts, hl, List.map_append, List.map_cons,
    map_count_eq_self hb, map_count_eq_self ha, attemptsLeft_append, attemptsLeft, hn, if_true]
  omega

theorem remaining_increment_le (p : Program) (n : LineNumber) :
    (p.increment n).2.remaining ≤ p.remaining := by
  cases h : p.find? n with
  | none => simp [increment, h]
  | some e =>
      have := remaining_increment h
      have := le_countUp e.count
      omega

/-- A successful attempt makes the remaining attempts fewer. -/
theorem remaining_increment_lt {p : Program} {n : LineNumber}
    (h : (p.increment n).1 = .ok ()) : (p.increment n).2.remaining < p.remaining := by
  cases hf : p.find? n with
  | none => simp [increment, hf] at h
  | some e =>
      have h₁ := remaining_increment hf
      rw [increment_of_find? hf] at h
      dsimp only at h
      split at h
      · cases h
      · next hle =>
          have h₂ : (countUp e.count).toNat < p.limit.toNat :=
            UInt32.lt_iff_toNat_lt.1 (UInt32.not_le.1 hle)
          have h₃ := toNat_countUp e.count
          have h₄ := p.limit.toNat_lt
          omega

end Program

end IntegerBasic
