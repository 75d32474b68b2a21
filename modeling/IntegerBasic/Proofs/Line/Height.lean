import IntegerBasic.Proofs.Expr.Height
import IntegerBasic.Proofs.Line.Retyping
import IntegerBasic.Proofs.Statement.Spelling
import IntegerBasic.Proofs.Token.Trimming
import Mathlib.Data.String.Basic

/-!
# How high the expressions of a line are

The expressions of a statement are read from tokens, each of which was scanned from a character at
least, and a character takes a byte at least. Blanks do not count, and a remark has no expressions.

The main statements are that the expressions of a statement are lower than the number of the tokens
that it is read from, blanks excepted, and that no expression is higher than the line buffer is long
if the line fits it.
-/

namespace IntegerBasic

namespace Statement

variable {ts : List Token} {s : Statement}

theorem height_le_of_readAfter {w : ReservedWord} {rest : List Token}
    (h : readAfter ts w = .ok (s, rest)) : ∀ e ∈ s.exprs, e.height ≤ ts.length := by
  have hnone : ∀ e ∈ ([] : List Expr), e.height ≤ ts.length := fun e he =>
    absurd he List.not_mem_nil
  cases w with
  | LET =>
      obtain ⟨x, us, rfl, e, he, rfl⟩ := readAfter_let_eq_ok_iff.1 h
      have hread := Expr.takesLevels_read us e rest he
      simp only [exprs, List.forall_mem_singleton, List.length_cons]
      omega
  | PRINT =>
      obtain ⟨e, he, rfl⟩ := readAfter_print_eq_ok_iff.1 h
      have hread := Expr.takesLevels_read ts e rest he
      simp only [exprs, List.forall_mem_singleton]
      omega
  | IF =>
      obtain ⟨l, rel, us, r, vs, n, hl, hr, -, rfl⟩ := readAfter_if_eq_ok_iff.1 h
      have hleft := Expr.takesLevels_read ts l _ hl
      have hright := Expr.takesLevels_read us r _ hr
      rw [List.length_cons] at hleft hright
      exact List.forall_mem_cons.2 ⟨by omega, List.forall_mem_singleton.2 (by omega)⟩
  | INPUT =>
      obtain ⟨x, rfl, rfl⟩ := readAfter_input_eq_ok_iff.1 h
      exact hnone
  | GOTO =>
      obtain ⟨n, -, rfl⟩ := readAfter_goto_eq_ok_iff.1 h
      exact hnone
  | END =>
      cases h
      exact hnone
  | REM | THEN | RUN | LIST | CLEAR | QUIT => cases h

theorem height_lt_of_ofTokens (h : ofTokens ts = .ok s) :
    ∀ e ∈ s.exprs, e.height < (Token.significant ts).length := by
  unfold ofTokens at h
  split at h
  · cases h
  · cases h
    exact fun e he => absurd he List.not_mem_nil
  · next w rest _ hr =>
      obtain ⟨⟨s', us⟩, hread, hend⟩ := bind_eq_ok_iff.1 h
      obtain ⟨rfl, rfl⟩ := complete_eq_ok_iff.1 hend
      have hsig : Token.significant ts = .word w :: Token.significant rest := by
        rw [← Token.significant_dropWhile, hr]
        rfl
      intro e he
      rw [hsig, List.length_cons]
      exact Nat.lt_succ_of_le (height_le_of_readAfter hread e he)
  · cases h

end Statement

namespace Token

theorem length_remark_le (cs : List Char) : (remark cs).length ≤ cs.length := by
  cases cs <;> simp [remark]

theorem length_scan_le (cs : List Char) : (scan cs).length ≤ cs.length := by
  have hdrop (p : Char → Bool) (cs : List Char) : (cs.dropWhile p).length ≤ cs.length :=
    (List.dropWhile_suffix p).length_le
  fun_induction scan cs with
  | case1 => exact Nat.le_refl 0
  | case2 c cs _ ih | case3 c cs _ _ ih | case5 c cs _ _ _ _ _ ih =>
      exact Nat.succ_le_succ (Nat.le_trans ih (hdrop _ cs))
  | case4 c cs =>
      exact Nat.succ_le_succ (Nat.le_trans (length_remark_le _) (hdrop _ cs))
  | case6 c cs _ _ _ ih => exact Nat.succ_le_succ ih

theorem TrimsEnd.length_le {ts us : List Token} (h : TrimsEnd ts us) : us.length ≤ ts.length := by
  induction h with
  | refl => exact Nat.le_refl _
  | token _ _ ih =>
      rw [List.length_append]
      exact Nat.le_add_right_of_le ih
  | unknown => simp

theorem length_trim_le (ts : List Token) : (trim ts).length ≤ ts.length := by
  obtain ⟨front, kept, hts, -, hend⟩ := trims_trim ts
  have hlength := congrArg List.length hts
  have hkept := hend.length_le
  rw [List.length_append] at hlength
  omega

end Token

namespace Line

theorem splitNumber_isSuffix (cs : List Char) : (splitNumber cs).2 <:+ cs := by
  unfold splitNumber
  split
  · exact (dropOneSpace_isSuffix _).trans (List.dropWhile_suffix _)
  · exact List.suffix_refl cs

/-- A text is read as no more tokens than it has bytes. -/
theorem length_tokens_ofText_le (s : String) : (ofText s).tokens.length ≤ s.utf8ByteSize := by
  have hbytes (cs : List Char) : cs.length ≤ String.utf8Len cs := by
    induction cs with
    | nil => exact Nat.le_refl 0
    | cons c cs ih =>
        have hpos := c.utf8Size_pos
        rw [List.length_cons, String.utf8Len_cons]
        omega
  calc (ofText s).tokens.length
      ≤ (Token.scan (splitNumber (Text.trimStart s.toList)).2).length := Token.length_trim_le _
    _ ≤ (splitNumber (Text.trimStart s.toList)).2.length := Token.length_scan_le _
    _ ≤ (Text.trimStart s.toList).length := (splitNumber_isSuffix _).length_le
    _ ≤ s.toList.length := (List.dropWhile_suffix _).length_le
    _ ≤ String.utf8Len s.toList := hbytes _
    _ = s.utf8ByteSize := String.utf8Len_toList s

/-- If a line fits the line buffer, no expression in it is higher than the buffer is long. -/
theorem height_le_of_fits {s : String} {st : Statement} (hf : fits s = true)
    (hs : (ofText s).statement = .ok st) : ∀ e ∈ st.exprs, e.height ≤ bufferSize := by
  intro e he
  have hbytes : s.utf8ByteSize ≤ bufferSize := of_decide_eq_true hf
  calc e.height
      ≤ (Token.significant (ofText s).tokens).length :=
        Nat.le_of_lt (Statement.height_lt_of_ofTokens hs e he)
    _ ≤ (ofText s).tokens.length := List.length_filter_le _ _
    _ ≤ s.utf8ByteSize := length_tokens_ofText_le s
    _ ≤ bufferSize := hbytes

end Line

end IntegerBasic
