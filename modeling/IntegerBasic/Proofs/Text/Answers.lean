import IntegerBasic.Proofs.Token.Rescanning
import IntegerBasic.Statement.Execution

/-!
# Texts that answer a question

`Numeral t n` says, without the reader, that the text `t` is a numeral for the integer `n`: one or
more digits, with one sign before them at most. `Answers s n` says that the text `s` is white space
and then such a numeral. The main statement is that a question takes the texts that answer it with
a value, and no others.
-/

namespace IntegerBasic

namespace Text

inductive Numeral : List Char → Int → Prop
  | unsigned {ds : List Char} (hne : ds ≠ []) (hds : ∀ c ∈ ds, c.isDigit = true) :
      Numeral ds (Nat.ofDigitChars 10 ds 0)
  | plus {ds : List Char} (hne : ds ≠ []) (hds : ∀ c ∈ ds, c.isDigit = true) :
      Numeral ('+' :: ds) (Nat.ofDigitChars 10 ds 0)
  | minus {ds : List Char} (hne : ds ≠ []) (hds : ∀ c ∈ ds, c.isDigit = true) :
      Numeral ('-' :: ds) (-(Nat.ofDigitChars 10 ds 0 : Int))

/-- The text is white space and then a numeral for the integer. -/
def Answers (s : String) (n : Int) : Prop :=
  ∃ space t, s.toList = space ++ t ∧ (∀ c ∈ space, isSpace c = true) ∧ Numeral t n

variable {t ds : List Char} {s : String} {n : Int}

theorem digits?_of_isDigit (hne : ds ≠ []) (hds : ∀ c ∈ ds, c.isDigit = true) :
    digits? ds = some (Nat.ofDigitChars 10 ds 0) :=
  digits?_eq_some_iff.2 ⟨hne, hds, rfl⟩

theorem unsigned?_map_eq_some (h : (unsigned? t).map (fun k : Nat => (k : Int)) = some n) :
    Numeral t n := by
  obtain ⟨k, hk, rfl⟩ := Option.map_eq_some_iff.1 h
  unfold unsigned? at hk
  split at hk
  · obtain ⟨hne, hds, rfl⟩ := digits?_eq_some_iff.1 hk
    exact .plus hne hds
  · obtain ⟨hne, hds, rfl⟩ := digits?_eq_some_iff.1 hk
    exact .unsigned hne hds

/-- The reader of signed numerals reads the numerals and nothing else. -/
theorem signed?_eq_some_iff : signed? t = some n ↔ Numeral t n := by
  constructor
  · intro h
    unfold signed? at h
    split at h
    · obtain ⟨k, hk, rfl⟩ := Option.map_eq_some_iff.1 h
      obtain ⟨hne, hds, rfl⟩ := digits?_eq_some_iff.1 hk
      exact .minus hne hds
    · exact unsigned?_map_eq_some h
  · intro h
    cases h with
    | unsigned hne hds =>
        rw [signed?_eq_digits? hds, digits?_of_isDigit hne hds]
        rfl
    | @plus ds hne hds =>
        have hplus : signed? ('+' :: ds) = (digits? ds).map fun k : Nat => (k : Int) := rfl
        rw [hplus, digits?_of_isDigit hne hds]
        rfl
    | minus hne hds =>
        rw [signed?, digits?_of_isDigit hne hds]
        rfl

theorem isSpace_eq_false_of_isDigit {c : Char} (h : c.isDigit = true) : isSpace c = false :=
  isSpace_eq_false_of_isAlphanum (by simp [Char.isAlphanum, h])

theorem Numeral.isSpace_head? (h : Numeral t n) : ∀ c ∈ t.head?, isSpace c = false := by
  intro c hc
  cases h with
  | unsigned _ hds => exact isSpace_eq_false_of_isDigit (hds c (List.mem_of_mem_head? hc))
  | plus | minus =>
      cases hc
      decide

theorem answers_iff : Answers s n ↔ Numeral (trimStart s.toList) n := by
  constructor
  · rintro ⟨space, t, hs, hspace, h⟩
    rw [trimStart, hs, Token.dropWhile_append_of_head? hspace h.isSpace_head?]
    exact h
  · intro h
    exact ⟨_, _, (takeWhile_append_trimStart s.toList).symm, Token.forall_mem_takeWhile _ _, h⟩

end Text

namespace Value

theorem ofAnswer?_eq_some_iff {s : String} {v : Value} :
    ofAnswer? s = some v ↔ Text.Answers s v.toInt := by
  simp only [ofAnswer?, read?, Option.bind_eq_some_iff, ofInt?_eq_some_iff,
    Text.signed?_eq_some_iff, Text.answers_iff]
  constructor
  · rintro ⟨n, hn, rfl⟩
    exact hn
  · exact fun h => ⟨_, h, rfl⟩

end Value

end IntegerBasic
