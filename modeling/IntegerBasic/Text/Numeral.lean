/-!
# Decimal numerals

A numeral is a run of decimal digits, with leading zeros allowed, and may start
with a plus sign; a signed numeral may start with a minus sign instead. Numbers
are written without a plus sign and without leading zeros. The main statements
say that reading a written number gives the number back.
-/

namespace IntegerBasic

namespace Text

/-- Reads one or more decimal digits that make up the whole text. -/
def digits? (ds : List Char) : Option Nat :=
  if ds ≠ [] ∧ ds.all Char.isDigit = true then some (Nat.ofDigitChars 10 ds 0) else none

def unsigned? : List Char → Option Nat
  | '+' :: ds => digits? ds
  | ds => digits? ds

def signed? : List Char → Option Int
  | '-' :: ds => (digits? ds).map fun n : Nat => -(n : Int)
  | ds => (unsigned? ds).map fun n : Nat => (n : Int)

/-- Digits are read exactly when there are some and nothing else, and they are
read by their places. -/
theorem digits?_eq_some_iff {ds : List Char} {n : Nat} :
    digits? ds = some n ↔
      ds ≠ [] ∧ (∀ c ∈ ds, c.isDigit = true) ∧ Nat.ofDigitChars 10 ds 0 = n := by
  simp [digits?, and_assoc]

theorem digits?_toDigits (n : Nat) : digits? (Nat.toDigits 10 n) = some n :=
  digits?_eq_some_iff.2
    ⟨Nat.toDigits_ne_nil,
      fun _ hc => Nat.isDigit_of_mem_toDigits (by decide) (by decide) hc,
      Nat.ofDigitChars_ten_toDigits⟩

theorem unsigned?_eq_digits? {ds : List Char} (h : ∀ c ∈ ds, c.isDigit = true) :
    unsigned? ds = digits? ds := by
  match ds, h with
  | [], _ => rfl
  | c :: cs, h =>
      have hc : c.isDigit = true := h c List.mem_cons_self
      have hne : c ≠ '+' := by rintro rfl; exact absurd hc (by decide)
      unfold unsigned?
      split
      · exact absurd (List.cons.inj ‹c :: cs = _›).1 hne
      · rfl

theorem signed?_eq_digits? {ds : List Char} (h : ∀ c ∈ ds, c.isDigit = true) :
    signed? ds = (digits? ds).map fun n : Nat => (n : Int) := by
  match ds, h with
  | [], _ => rfl
  | c :: cs, h =>
      have hc : c.isDigit = true := h c List.mem_cons_self
      have hne : c ≠ '-' := by rintro rfl; exact absurd hc (by decide)
      unfold signed?
      split
      · exact absurd (List.cons.inj ‹c :: cs = _›).1 hne
      · rw [unsigned?_eq_digits? h]

theorem isDigit_of_mem_repr {n : Nat} {c : Char} (h : c ∈ n.repr.toList) :
    c.isDigit = true := by
  rw [Nat.toList_repr] at h
  exact Nat.isDigit_of_mem_toDigits (by decide) (by decide) h

@[simp] theorem unsigned?_repr (n : Nat) : unsigned? n.repr.toList = some n := by
  rw [unsigned?_eq_digits? fun _ => isDigit_of_mem_repr, Nat.toList_repr, digits?_toDigits]

/-- Reading a written integer gives it back. -/
@[simp] theorem signed?_repr (n : Int) : signed? n.repr.toList = some n := by
  rw [Int.repr_eq_if]
  split
  · next h =>
      rw [signed?_eq_digits? fun _ => isDigit_of_mem_repr, Nat.toList_repr, digits?_toDigits]
      simp [Int.toNat_of_nonneg h]
  · next h =>
      have : ("-" ++ (-n).toNat.repr).toList = '-' :: (-n).toNat.repr.toList := by simp
      rw [this]
      rw [signed?, Nat.toList_repr, digits?_toDigits, Option.map_some]
      exact congrArg some (by omega)

end Text

end IntegerBasic
