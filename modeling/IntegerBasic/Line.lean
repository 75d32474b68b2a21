import IntegerBasic.Text.Blank
import IntegerBasic.Token.Scanner
import IntegerBasic.Value

/-!
# Lines

A line is an optional line number and a list of tokens. A text starts with its
line number if it starts, after white space, with digits that are one; the
number takes one space after it. A line without a number is direct: it is meant
to be obeyed at once, while a numbered line belongs to a program.
-/

namespace IntegerBasic

structure Line where
  number : Option LineNumber
  tokens : List Token
  deriving DecidableEq, Repr

namespace Line

/-- The text after a line number, without the one space that belongs to the
number. -/
def dropOneSpace : List Char → List Char
  | ' ' :: cs => cs
  | cs => cs

/-- Splits a text into the line number it starts with and the rest. Digits that
are too large for a line number stay in the rest. -/
def splitNumber (cs : List Char) : Option LineNumber × List Char :=
  match LineNumber.read? (cs.takeWhile Char.isDigit) with
  | some n => (some n, dropOneSpace (cs.dropWhile Char.isDigit))
  | none => (none, cs)

def ofText (s : String) : Line :=
  let split := splitNumber (Text.trimStart s.toList)
  ⟨split.1, Token.trim (Token.scan split.2)⟩

def isDirect (l : Line) : Bool :=
  l.number.isNone

def isEmpty (l : Line) : Bool :=
  l.tokens.isEmpty

/-- The line without its number, as text. -/
def source (l : Line) : String :=
  Token.textOf l.tokens

def text (l : Line) : String :=
  match l.number with
  | some n => n.text ++ " " ++ l.source
  | none => l.source

@[simp] theorem isDirect_iff (l : Line) : l.isDirect = true ↔ l.number = none := by
  simp [isDirect]

@[simp] theorem isEmpty_iff (l : Line) : l.isEmpty = true ↔ l.tokens = [] := by
  simp [isEmpty]

theorem ofText_of_isAlpha {s : String} {c : Char} {cs : List Char} (hs : s.toList = c :: cs)
    (hc : c.isAlpha = true) : ofText s = ⟨none, Token.trim (Token.scan s.toList)⟩ := by
  have hspace : Text.isSpace c = false :=
    Text.isSpace_eq_false_of_isAlphanum (by simp [Char.isAlphanum, hc])
  have hdigit : c.isDigit = false := Token.isDigit_eq_false_of_isAlpha hc
  have hstart : Text.trimStart s.toList = s.toList := by
    rw [hs, Text.trimStart, List.dropWhile_cons_of_neg (by simp [hspace])]
  have hsplit : splitNumber s.toList = (none, s.toList) := by
    rw [hs, splitNumber, List.takeWhile_cons_of_neg (by simp [hdigit])]
    rfl
  rw [ofText, hstart, hsplit]

end Line

end IntegerBasic
