import IntegerBasic.Line
import IntegerBasic.Proofs.Statement.Grammar
import IntegerBasic.Proofs.Token.Splitting
import IntegerBasic.Proofs.Token.Trimming

/-!
# How a text is read as a line

`Starts t n rest` says, without the reader, that the text `t` starts with the line number `n` and
goes on with `rest`: the number is the longest run of digits, which takes one space after it, and
there is none if the run is too large for a line number.

The main statement is that the number of a line, the rest of its text and the splitting of the rest
into tokens are the only ones there are, and that nothing but white space at the two ends of the
rest is lost in the tokens of the line.
-/

namespace IntegerBasic

namespace Line

inductive Starts : List Char → Option LineNumber → List Char → Prop
  | number {run after rest : List Char} {n : LineNumber}
      (hrun : Text.LongestRun Char.isDigit run after) (hn : Nat.ofDigitChars 10 run 0 = n.toNat)
      (hrest : after = ' ' :: rest ∨ after = rest ∧ rest.head? ≠ some ' ') :
      Starts (run ++ after) (some n) rest
  | direct {t : List Char}
      (h : ∀ run after, t = run ++ after → Text.LongestRun Char.isDigit run after →
        4294967296 ≤ Nat.ofDigitChars 10 run 0) :
      Starts t none t

section

variable {t rest : List Char} {number : Option LineNumber}

theorem eq_or_of_dropOneSpace (cs : List Char) :
    cs = ' ' :: dropOneSpace cs ∨ cs = dropOneSpace cs ∧ (dropOneSpace cs).head? ≠ some ' ' := by
  unfold dropOneSpace
  split
  · exact .inl rfl
  · next hne =>
      refine .inr ⟨rfl, fun hhead => ?_⟩
      obtain ⟨ds, rfl⟩ := List.head?_eq_some_iff.1 hhead
      exact hne ds rfl

theorem dropOneSpace_eq {cs : List Char}
    (h : cs = ' ' :: rest ∨ cs = rest ∧ rest.head? ≠ some ' ') : dropOneSpace cs = rest := by
  obtain rfl | ⟨rfl, hne⟩ := h
  · rfl
  · unfold dropOneSpace
    split
    · exact absurd rfl hne
    · rfl

theorem read?_run_eq_some_iff {run after : List Char} {n : LineNumber}
    (hrun : Text.LongestRun Char.isDigit run after) :
    LineNumber.read? run = some n ↔ Nat.ofDigitChars 10 run 0 = n.toNat := by
  rw [Statement.read?_eq_some_iff_of_isDigit hrun.forall_mem, Text.digits?_eq_some_iff]
  exact ⟨fun h => h.2.2, fun h => ⟨hrun.ne_nil, hrun.forall_mem, h⟩⟩

theorem longestRun_of_read? {n : LineNumber}
    (h : LineNumber.read? (t.takeWhile Char.isDigit) = some n) :
    Text.LongestRun Char.isDigit (t.takeWhile Char.isDigit) (t.dropWhile Char.isDigit) where
  ne_nil := by
    have hdigits := Token.forall_mem_takeWhile Char.isDigit t
    exact (Text.digits?_eq_some_iff.1 ((Statement.read?_eq_some_iff_of_isDigit hdigits).1 h)).1
  forall_mem := Token.forall_mem_takeWhile Char.isDigit t
  ends := Token.forall_head?_dropWhile Char.isDigit t

theorem starts_splitNumber (t : List Char) : Starts t (splitNumber t).1 (splitNumber t).2 := by
  unfold splitNumber
  split
  · next n hn =>
      have hrun := longestRun_of_read? hn
      have hstarts := Starts.number hrun ((read?_run_eq_some_iff hrun).1 hn)
        (eq_or_of_dropOneSpace (t.dropWhile Char.isDigit))
      rwa [List.takeWhile_append_dropWhile] at hstarts
  · next hnone =>
      refine .direct fun run after ht hrun => Nat.le_of_not_lt fun hlt => ?_
      have hread : LineNumber.read? run = some (UInt32.ofNat (Nat.ofDigitChars 10 run 0)) :=
        (read?_run_eq_some_iff hrun).2 (UInt32.toNat_ofNat_of_lt' hlt).symm
      rw [ht, hrun.takeWhile_eq, hread] at hnone
      cases hnone

/-- There is exactly one line number that a text starts with, or none, and one rest. -/
theorem starts_iff :
    Starts t number rest ↔ number = (splitNumber t).1 ∧ rest = (splitNumber t).2 := by
  constructor
  · intro h
    cases h with
    | number hrun hn hrest =>
        rw [splitNumber, hrun.takeWhile_eq, hrun.dropWhile_eq, (read?_run_eq_some_iff hrun).2 hn]
        exact ⟨rfl, (dropOneSpace_eq hrest).symm⟩
    | direct h =>
        unfold splitNumber
        split
        · next n hn =>
            have hrun := longestRun_of_read? hn
            have hle := h _ _ List.takeWhile_append_dropWhile.symm hrun
            rw [(read?_run_eq_some_iff hrun).1 hn] at hle
            exact absurd n.toNat_lt (Nat.not_lt.2 hle)
        · exact ⟨rfl, rfl⟩
  · rintro ⟨rfl, rfl⟩
    exact starts_splitNumber t

end

/-- A text is read as a line by longest runs, and nothing but white space at the two ends of what
follows its number is lost. Blanks are left at the end only where white space that is no blank
followed them. -/
theorem exists_splits_and_trims (s : String) : ∃ space t rest ts,
    s.toList = space ++ t ∧
    (∀ c ∈ space, Text.isSpace c = true) ∧ (∀ c ∈ t.head?, Text.isSpace c = false) ∧
    (∀ number us, Starts t number us ↔ number = (ofText s).number ∧ us = rest) ∧
    (∀ us, Token.Splits rest us ↔ us = ts) ∧
    Token.Trims ts (ofText s).tokens ∧
    (∃ body after front back,
      rest = body ++ after ∧ Token.Shows ts body after ∧
      (∀ c ∈ front ++ back, Text.isSpace c = true) ∧
      body.map Text.shown ++ after = front ++ (ofText s).source.toList ++ back) ∧
    (∀ n us, (ofText s).tokens ≠ .blanks n :: us) ∧
    ∀ n, (ofText s).tokens.getLast? = some (.blanks n) ↔
      ∃ before c after, before ≠ [] ∧
        ts = before ++ .blanks n :: .unknown (String.singleton c) :: after ∧
        Text.isSpace c = true ∧ Text.isBlank c = false ∧
        (after = [] ∨ ∃ k, after = [.blanks k]) := by
  let t := Text.trimStart s.toList
  let rest := (splitNumber t).2
  have htrims := Token.trims_trim (Token.scan rest)
  have hspelled := Token.spelled_scan rest
  obtain ⟨body, after, hrest, hshows⟩ := (Token.splits_scan rest).exists_shows
  obtain ⟨front, back, hspace, htext⟩ := htrims.exists_text
  rw [hshows.text_eq] at htext
  exact ⟨s.toList.takeWhile Text.isSpace, t, rest, Token.scan rest,
    (Text.takeWhile_append_trimStart s.toList).symm,
    Token.forall_mem_takeWhile _ _, Token.forall_head?_dropWhile _ _,
    fun _ _ => starts_iff, fun _ => Token.splits_iff, htrims,
    ⟨body, after, front, back, hrest, hshows, hspace, htext⟩,
    hspelled.trim_ne_blanks, fun _ => hspelled.getLast?_trim_eq_some_iff⟩

/-- A no-break space at the end is removed, and leaves the blank before it. -/
example : (ofText "7PRINT 1 \u00a0").tokens =
    [.word .PRINT, .blanks 1, .literal "1", .blanks 1] := by
  decide +kernel

end Line

end IntegerBasic
