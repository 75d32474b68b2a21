import IntegerBasic.Line.Meaning

/-!
# Stored lines

A line of a program is stored together with the statement it says and a count of
the attempts to execute it. Lists of stored lines are kept in ascending order of
their numbers. The main statements say that putting a line into such a list keeps
the order and changes what is found under one number only, and which line comes
next after a number.
-/

namespace IntegerBasic

structure StoredLine where
  number : LineNumber
  line : Line
  statement : Statement
  count : UInt32
  deriving DecidableEq, Repr

namespace StoredLine

def putInto (e : StoredLine) : List StoredLine → List StoredLine
  | [] => [e]
  | x :: xs =>
    if e.number < x.number then e :: x :: xs
    else if e.number = x.number then e :: xs
    else x :: putInto e xs

theorem mem_putInto {e x : StoredLine} {l : List StoredLine} (h : x ∈ e.putInto l) :
    x = e ∨ x ∈ l := by
  induction l with
  | nil => simpa [putInto] using h
  | cons y ys ih =>
      rw [putInto] at h
      split at h
      · simpa using h
      · split at h
        · rcases List.mem_cons.1 h with h | h
          · exact .inl h
          · exact .inr (List.mem_cons_of_mem _ h)
        · rcases List.mem_cons.1 h with h | h
          · exact .inr (h ▸ List.mem_cons_self)
          · exact (ih h).imp_right (List.mem_cons_of_mem _)

theorem pairwise_putInto (e : StoredLine) {l : List StoredLine}
    (h : l.Pairwise fun a b => a.number < b.number) :
    (e.putInto l).Pairwise fun a b => a.number < b.number := by
  induction l with
  | nil => simp [putInto]
  | cons y ys ih =>
      obtain ⟨hy, hys⟩ := List.pairwise_cons.1 h
      rw [putInto]
      split
      · next hlt =>
          refine List.pairwise_cons.2 ⟨fun x hx => ?_, h⟩
          rcases List.mem_cons.1 hx with rfl | hx
          · exact hlt
          · exact UInt32.lt_trans hlt (hy x hx)
      · next hlt =>
          split
          · next heq => exact List.pairwise_cons.2 ⟨fun x hx => heq ▸ hy x hx, hys⟩
          · next hne =>
              refine List.pairwise_cons.2 ⟨fun x hx => ?_, ih hys⟩
              rcases mem_putInto hx with rfl | hx
              · have hne' : x.number.toNat ≠ y.number.toNat :=
                  fun h => hne (UInt32.toNat_inj.1 h)
                rw [UInt32.lt_iff_toNat_lt] at hlt ⊢
                omega
              · exact hy x hx

theorem find?_putInto (e : StoredLine) (l : List StoredLine) (n : LineNumber) :
    (e.putInto l).find? (fun x => x.number = n) =
      if n = e.number then some e else l.find? fun x => x.number = n := by
  induction l with
  | nil =>
      by_cases h : n = e.number
      · simp [putInto, h]
      · simp [putInto, h, Ne.symm h]
  | cons y ys ih =>
      rw [putInto]
      by_cases hn : n = e.number
      · subst hn
        split
        · simp
        · split
          · simp
          · next hne => simpa [List.find?_cons, Ne.symm hne] using ih
      · have hn' : e.number ≠ n := Ne.symm hn
        split
        · simp [List.find?_cons, hn']
        · split
          · next heq => simp [← heq, hn']
          · rw [List.find?_cons, List.find?_cons, ih, if_neg hn]

/-- In an ascending list the first line above a number is the least one. -/
theorem find?_lt_eq_some_iff {l : List StoredLine} {n m : LineNumber}
    (h : l.Pairwise fun a b => a.number < b.number) :
    (l.find? fun e => n < e.number).map StoredLine.number = some m ↔
      (∃ e ∈ l, e.number = m) ∧ n < m ∧ ∀ e ∈ l, n < e.number → m ≤ e.number := by
  induction l with
  | nil => simp
  | cons x xs ih =>
      obtain ⟨hx, hxs⟩ := List.pairwise_cons.1 h
      by_cases hn : n < x.number
      · rw [List.find?_cons_of_pos (by simpa using hn)]
        constructor
        · intro hm
          obtain rfl : x.number = m := by simpa using hm
          refine ⟨⟨x, List.mem_cons_self, rfl⟩, hn, fun e he _ => ?_⟩
          rcases List.mem_cons.1 he with rfl | he
          · exact UInt32.le_refl _
          · exact UInt32.le_of_lt (hx e he)
        · rintro ⟨⟨e, he, rfl⟩, _, hmin⟩
          rcases List.mem_cons.1 he with rfl | he
          · rfl
          · exact absurd (hx e he) (UInt32.not_lt.2 (hmin x List.mem_cons_self hn))
      · rw [List.find?_cons_of_neg (by simpa using hn), ih hxs]
        constructor
        · rintro ⟨⟨e, he, rfl⟩, hlt, hmin⟩
          refine ⟨⟨e, List.mem_cons_of_mem _ he, rfl⟩, hlt, fun y hy hny => ?_⟩
          rcases List.mem_cons.1 hy with rfl | hy
          · exact absurd hny hn
          · exact hmin y hy hny
        · rintro ⟨⟨e, he, rfl⟩, hlt, hmin⟩
          refine ⟨?_, hlt, fun y hy hny => hmin y (List.mem_cons_of_mem _ hy) hny⟩
          rcases List.mem_cons.1 he with rfl | he
          · exact absurd hlt hn
          · exact ⟨e, he, rfl⟩

end StoredLine

end IntegerBasic
