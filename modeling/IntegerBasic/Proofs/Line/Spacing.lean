import IntegerBasic.Proofs.Expr.Spelling
import IntegerBasic.Proofs.Line.Retyping
import IntegerBasic.Proofs.Token.Splitting

/-!
# Blanks between tokens and around a line

The blanks of a line only keep its tokens apart. The significant tokens of a text are found piece by
piece, whatever blanks stand before each piece.

The main statements are that a text which starts with a letter is read as the statement that the
grammar derives from its significant tokens, and that blanks around a text do not count at all.
-/

namespace IntegerBasic

def Text.IsBlanks (w : String) : Prop :=
  ∀ c ∈ w.toList, isBlank c = true

instance (w : String) : Decidable (Text.IsBlanks w) :=
  decidable_of_iff (w.toList.all Text.isBlank = true) List.all_eq_true

namespace Token

variable {cs w : List Char} {c : Char}

theorem significant_scan_reserved {r : ReservedWord} (hr : r ≠ .REM)
    (hrun : Text.LongestRun isWordChar r.text.toList cs) :
    significant (scan (r.text.toList ++ cs)) = .word r :: significant (scan cs) := by
  rw [scan_reserved hrun, if_neg hr]
  rfl

theorem scan_literal (n : Nat) (hcs : ∀ c ∈ cs.head?, c.isDigit = false) :
    scan (n.repr.toList ++ cs) = .literal n.repr :: scan cs := by
  have hrun : Text.LongestRun Char.isDigit n.repr.toList cs :=
    ⟨toList_repr_ne_nil n, fun _ => Text.isDigit_of_mem_repr, hcs⟩
  have hsplits := splits_iff.1 (.literal hrun (splits_scan cs))
  rw [← hsplits, String.ofList_toList]

end Token

namespace Line

/-- A text that starts with a letter has no number, and all of its significant tokens are the
line's if they are regular. -/
theorem significant_tokens_ofText {s : String} {c : Char} {cs : List Char} (hs : s.toList = c :: cs)
    (hc : c.isAlpha = true)
    (h : ∀ t ∈ Token.significant (Token.scan s.toList), t.IsRegular) :
    (ofText s).number = none ∧
      Token.significant (ofText s).tokens = Token.significant (Token.scan s.toList) := by
  have hunknown (x : String) : .unknown x ∉ Token.scan s.toList := fun hx =>
    (h _ (List.mem_filter.2 ⟨hx, rfl⟩)).2 x rfl
  have hblanks (n : Nat) (us : List Token) : Token.scan s.toList ≠ .blanks n :: us := by
    intro heq
    rw [hs, Token.scan_of_isAlpha hc] at heq
    have hfirst := Token.isBlanks_ofWord (String.ofList (c :: cs.takeWhile Token.isWordChar))
    rw [(List.cons.inj heq).1] at hfirst
    cases hfirst
  rw [ofText_of_isAlpha hs hc, Token.trim_eq_dropFinalBlanks hblanks hunknown]
  exact ⟨rfl, Token.significant_dropFinalBlanks _⟩

/-- White space in front of a text does not count. -/
theorem ofText_append_left {u : String} (hu : ∀ c ∈ u.toList, Text.isSpace c = true) (s : String) :
    ofText (u ++ s) = ofText s := by
  have hstart : Text.trimStart (u ++ s).toList = Text.trimStart s.toList := by
    rw [String.toList_append, Text.trimStart, List.dropWhile_append_of_pos hu, Text.trimStart]
  rw [ofText, hstart, ofText]

/-- Blanks around a line do not count: whatever the line ends with, it has the same number and the
same tokens. -/
theorem ofText_between_blanks {u w : String} (hu : Text.IsBlanks u) (hw : Text.IsBlanks w)
    (s : String) : ofText (u ++ s ++ w) = ofText s := by
  have hspace : ∀ c ∈ u.toList, Text.isSpace c = true := fun c hc =>
    Text.isSpace_of_isBlank (hu c hc)
  rw [ofText_append _ hw, ofText_append_left hspace]

/-- A line that ends with the word `REM`, with a no-break space after a blank, and with nothing but
its number. -/
theorem ofText_between_blanks_of_no_break_space :
    Text.IsBlanks "\t\r " ∧ Text.IsBlanks " \r\n" ∧
      ofText ("\t\r " ++ "7 REM" ++ " \r\n") = ⟨some 7, [.word .REM]⟩ ∧
      ofText ("\t\r " ++ "7PRINT \u00a0" ++ " \r\n") = ⟨some 7, [.word .PRINT, .blanks 1]⟩ ∧
      ofText ("\t\r " ++ "7" ++ " \r\n") = ⟨some 7, []⟩ := by
  have hu : Text.IsBlanks "\t\r " := by decide
  have hw : Text.IsBlanks " \r\n" := by decide
  refine ⟨hu, hw, ?_, ?_, ?_⟩
  · rw [ofText_between_blanks hu hw]
    decide +kernel
  · rw [ofText_between_blanks hu hw]
    decide +kernel
  · rw [ofText_between_blanks hu hw]
    decide +kernel

end Line

end IntegerBasic
