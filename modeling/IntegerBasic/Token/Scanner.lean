import IntegerBasic.Text.Blank
import IntegerBasic.Token

/-!
# Splitting a text into tokens

`scan` takes the longest run of blanks, of digits, or of a letter followed by
letters, digits and underscores; any other character is a token by itself. After
the word `REM` the rest of the text is one remark. `trim` then removes white
space from the two ends. The main statements give the token at the front of
each kind of text.
-/

namespace IntegerBasic

namespace Token

def isWordChar (c : Char) : Bool :=
  c.isAlphanum || c = '_'

/-- A remark is one token; an empty one is no token. -/
def remark (cs : List Char) : List Token :=
  if cs.isEmpty then [] else [.unknown (String.ofList cs)]

def scan : List Char → List Token
  | [] => []
  | c :: cs =>
    if Text.isBlank c then
      .blanks ((cs.takeWhile Text.isBlank).length + 1) :: scan (cs.dropWhile Text.isBlank)
    else if c.isDigit then
      .literal (String.ofList (c :: cs.takeWhile Char.isDigit)) ::
        scan (cs.dropWhile Char.isDigit)
    else if c.isAlpha then
      let t := ofWord (String.ofList (c :: cs.takeWhile isWordChar))
      if t = .word .REM then
        t :: remark (cs.dropWhile isWordChar)
      else
        t :: scan (cs.dropWhile isWordChar)
    else
      ofSymbol c :: scan cs
termination_by cs => cs.length
decreasing_by
  all_goals
    simp only [List.length_cons, Nat.lt_succ_iff]
    first
      | exact (List.dropWhile_suffix _).length_le
      | exact Nat.le_refl _

@[simp] theorem scan_nil : scan [] = [] := by
  rw [scan]

/-- A text that starts with a blank starts with the longest run of blanks. -/
theorem scan_of_isBlank {c : Char} {cs : List Char} (h : Text.isBlank c = true) :
    scan (c :: cs) =
      .blanks ((cs.takeWhile Text.isBlank).length + 1) ::
        scan (cs.dropWhile Text.isBlank) := by
  rw [scan, if_pos h]

theorem isBlank_eq_false_of_isAlphanum {c : Char} (h : c.isAlphanum = true) :
    Text.isBlank c = false := by
  rw [Bool.eq_false_iff]
  intro hb
  rcases (Text.isBlank_iff c).1 hb with rfl | rfl | rfl | rfl <;> exact absurd h (by decide)

theorem scan_of_isDigit {c : Char} {cs : List Char} (h : c.isDigit = true) :
    scan (c :: cs) =
      .literal (String.ofList (c :: cs.takeWhile Char.isDigit)) ::
        scan (cs.dropWhile Char.isDigit) := by
  have hb : Text.isBlank c = false :=
    isBlank_eq_false_of_isAlphanum (by simp [Char.isAlphanum, h])
  rw [scan, hb, if_neg Bool.false_ne_true, if_pos h]

theorem isDigit_eq_false_of_isAlpha {c : Char} (h : c.isAlpha = true) :
    c.isDigit = false := by
  rw [Bool.eq_false_iff]
  intro hd
  have hletter := (Text.isAlpha_iff c).1 h
  have hdigit := (Text.isDigit_iff c).1 hd
  omega

/-- A text that starts with a letter starts with the longest word; after the
word `REM` all of the rest is a remark. -/
theorem scan_of_isAlpha {c : Char} {cs : List Char} (h : c.isAlpha = true) :
    scan (c :: cs) =
      ofWord (String.ofList (c :: cs.takeWhile isWordChar)) ::
        (if ofWord (String.ofList (c :: cs.takeWhile isWordChar)) = .word .REM then
          remark (cs.dropWhile isWordChar)
        else
          scan (cs.dropWhile isWordChar)) := by
  have hb : Text.isBlank c = false :=
    isBlank_eq_false_of_isAlphanum (by simp [Char.isAlphanum, h])
  rw [scan, hb, if_neg Bool.false_ne_true, isDigit_eq_false_of_isAlpha h,
    if_neg Bool.false_ne_true, if_pos h]
  dsimp only
  split <;> rfl

theorem scan_of_symbol {c : Char} {cs : List Char} (hb : Text.isBlank c = false)
    (h : c.isAlphanum = false) : scan (c :: cs) = ofSymbol c :: scan cs := by
  simp only [Char.isAlphanum, Bool.or_eq_false_iff] at h
  rw [scan, hb, if_neg Bool.false_ne_true, h.2, if_neg Bool.false_ne_true, h.1,
    if_neg Bool.false_ne_true]

def dropFinalBlanks (ts : List Token) : List Token :=
  match ts.getLast? with
  | some (.blanks _) => ts.dropLast
  | _ => ts

/-- Trims the end of the last token if it is no regular token, and removes it
if nothing of it is left. -/
def trimFinalUnknown (ts : List Token) : List Token :=
  match ts.getLast? with
  | some (.unknown s) => ts.dropLast ++ remark (Text.trimEnd s.toList)
  | _ => ts

def dropInitialBlanks : List Token → List Token
  | .blanks _ :: ts => ts
  | ts => ts

/-- Removes white space from the ends of a line: blanks at its end, then white
space at the end of an unknown token, then blanks at its start. -/
def trim (ts : List Token) : List Token :=
  dropInitialBlanks (trimFinalUnknown (dropFinalBlanks ts))

end Token

end IntegerBasic
