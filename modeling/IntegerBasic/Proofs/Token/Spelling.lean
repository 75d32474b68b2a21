import IntegerBasic.Token.Scanner

/-!
# Spelled tokens

Tokens are spelled if each has the form that the scanner gives it and none runs into the
next: blanks are not followed by blanks, a literal not by a digit, a word not by a letter, a
digit or an underscore, and the word `REM` by nothing but its remark. The main statements
say that scanning the text of spelled tokens gives the tokens back, and that trimming keeps
tokens that have no white space at their ends.
-/

namespace IntegerBasic

namespace Token

def initial? (ts : List Token) : Option Char :=
  (textOf ts).toList.head?

/-- The tokens are spelled as the scanner spells them. -/
inductive Spelled : List Token → Prop
  | nil : Spelled []
  | blanks {n : Nat} {ts : List Token} (h : Spelled ts)
      (hn : ∀ c ∈ initial? ts, Text.isBlank c = false) : Spelled (.blanks (n + 1) :: ts)
  | literal {c : Char} {cs : List Char} {ts : List Token} (hc : c.isDigit = true)
      (hcs : ∀ b ∈ cs, b.isDigit = true) (h : Spelled ts)
      (hn : ∀ b ∈ initial? ts, b.isDigit = false) :
      Spelled (.literal (String.ofList (c :: cs)) :: ts)
  | word {c : Char} {cs : List Char} {ts : List Token} (hc : c.isAlpha = true)
      (hcs : ∀ b ∈ cs, isWordChar b = true)
      (hr : ofWord (String.ofList (c :: cs)) ≠ .word .REM) (h : Spelled ts)
      (hn : ∀ b ∈ initial? ts, isWordChar b = false) :
      Spelled (ofWord (String.ofList (c :: cs)) :: ts)
  | remark {cs : List Char} (hn : ∀ b ∈ cs.head?, isWordChar b = false) :
      Spelled (.word .REM :: Token.remark cs)
  | symbol {c : Char} {ts : List Token} (hb : Text.isBlank c = false)
      (hc : c.isAlphanum = false) (h : Spelled ts) : Spelled (ofSymbol c :: ts)

theorem takeWhile_append_of_head? {p : Char → Bool} {l r : List Char}
    (hl : ∀ c ∈ l, p c = true) (hr : ∀ c ∈ r.head?, p c = false) :
    (l ++ r).takeWhile p = l := by
  rw [List.takeWhile_append_of_pos hl]
  cases r with
  | nil => simp
  | cons c r => simp [hr c rfl]

theorem dropWhile_append_of_head? {p : Char → Bool} {l r : List Char}
    (hl : ∀ c ∈ l, p c = true) (hr : ∀ c ∈ r.head?, p c = false) :
    (l ++ r).dropWhile p = r := by
  rw [List.dropWhile_append_of_pos hl]
  cases r with
  | nil => rfl
  | cons c r => simp [hr c rfl]

theorem toList_textOf_cons (t : Token) (ts : List Token) :
    (textOf (t :: ts)).toList = t.text.toList ++ (textOf ts).toList := by
  rw [textOf_cons, String.toList_append]

theorem toList_textOf_remark (cs : List Char) : (textOf (remark cs)).toList = cs := by
  cases cs <;> simp [remark, text]

/-- Scanning the text of spelled tokens gives them back. -/
theorem scan_textOf {ts : List Token} (h : Spelled ts) : scan (textOf ts).toList = ts := by
  induction h with
  | nil => simp
  | @blanks n ts h hn ih =>
      have hblank : ∀ c ∈ List.replicate n ' ', Text.isBlank c = true := fun c hc => by
        rw [(List.mem_replicate.1 hc).2]
        rfl
      rw [toList_textOf_cons, text, String.toList_ofList, List.replicate_succ, List.cons_append,
        scan_of_isBlank rfl, takeWhile_append_of_head? hblank hn,
        dropWhile_append_of_head? hblank hn, ih, List.length_replicate]
  | literal hc hcs h hn ih =>
      rw [toList_textOf_cons, text, String.toList_ofList, List.cons_append, scan_of_isDigit hc,
        takeWhile_append_of_head? hcs hn, dropWhile_append_of_head? hcs hn, ih]
  | word hc hcs hr h hn ih =>
      rw [toList_textOf_cons, text_ofWord, String.toList_ofList, List.cons_append,
        scan_of_isAlpha hc, takeWhile_append_of_head? hcs hn, dropWhile_append_of_head? hcs hn,
        if_neg hr, ih]
  | @remark cs hn =>
      have hcs : ∀ c ∈ ['E', 'M'], isWordChar c = true := List.all_eq_true.1 rfl
      have htext : (text (.word .REM)).toList ++ cs = 'R' :: (['E', 'M'] ++ cs) := rfl
      rw [toList_textOf_cons, toList_textOf_remark, htext, scan_of_isAlpha rfl,
        takeWhile_append_of_head? hcs hn, dropWhile_append_of_head? hcs hn, if_pos (by decide)]
      rfl
  | @symbol c ts hb hc h ih =>
      rw [toList_textOf_cons, text_ofSymbol, String.toList_singleton, List.singleton_append,
        scan_of_symbol hb hc, ih]

section

variable {ts : List Token}

theorem initial?_cons {t : Token} {c : Char} {cs : List Char} (h : t.text.toList = c :: cs)
    (ts : List Token) : initial? (t :: ts) = some c := by
  rw [initial?, toList_textOf_cons, h]
  rfl

theorem forall_initial?_cons {P : Char → Prop} {t : Token} {c : Char} {cs : List Char}
    (h : t.text.toList = c :: cs) (hc : P c) : ∀ b ∈ initial? (t :: ts), P b := by
  intro b hb
  rw [initial?_cons h, Option.mem_some_iff] at hb
  exact hb ▸ hc

theorem isBlank_eq_false_of_isAlpha {c : Char} (h : c.isAlpha = true) :
    Text.isBlank c = false :=
  isBlank_eq_false_of_isAlphanum (by simp [Char.isAlphanum, h])

theorem isBlank_eq_false_of_isDigit {c : Char} (h : c.isDigit = true) :
    Text.isBlank c = false :=
  isBlank_eq_false_of_isAlphanum (by simp [Char.isAlphanum, h])

theorem Spelled.blank (h : Spelled ts) (hn : ∀ c ∈ initial? ts, Text.isBlank c = false) :
    Spelled (.blanks 1 :: ts) :=
  .blanks h hn

theorem isWordChar_initial?_nil : ∀ c ∈ initial? [], isWordChar c = false := by
  simp [initial?]

theorem isWordChar_initial?_blank :
    ∀ c ∈ initial? (.blanks 1 :: ts), isWordChar c = false := by
  have htext : (blanks 1).text.toList = [' '] := rfl
  exact forall_initial?_cons htext (by decide)

theorem isWordChar_initial?_rightParen :
    ∀ c ∈ initial? (.rightParen :: ts), isWordChar c = false := by
  have htext : rightParen.text.toList = [')'] := rfl
  exact forall_initial?_cons htext (by decide)

theorem isBlank_initial?_operator (o : Operator) :
    ∀ c ∈ initial? (.operator o :: ts), Text.isBlank c = false := by
  have htext : ∃ c, o.text.toList = [c] ∧ Text.isBlank c = false := by
    cases o <;> exact ⟨_, rfl, rfl⟩
  obtain ⟨c, hc, hb⟩ := htext
  exact forall_initial?_cons hc hb

theorem Spelled.operator (h : Spelled ts) (o : Operator) : Spelled (.operator o :: ts) := by
  cases o with
  | multiply => exact .symbol (c := '*') rfl rfl h
  | divide => exact .symbol (c := '/') rfl rfl h
  | plus => exact .symbol (c := '+') rfl rfl h
  | minus => exact .symbol (c := '-') rfl rfl h
  | equal => exact .symbol (c := '=') rfl rfl h
  | less => exact .symbol (c := '<') rfl rfl h
  | greater => exact .symbol (c := '>') rfl rfl h

theorem Spelled.leftParen (h : Spelled ts) : Spelled (.leftParen :: ts) :=
  .symbol (c := '(') rfl rfl h

theorem Spelled.rightParen (h : Spelled ts) : Spelled (.rightParen :: ts) :=
  .symbol (c := ')') rfl rfl h

theorem exists_text_reserved_eq (w : ReservedWord) : ∃ c cs, w.text = String.ofList (c :: cs) ∧
    c.isAlpha = true ∧ ∀ b ∈ cs, isWordChar b = true := by
  cases w <;> exact ⟨_, _, rfl, rfl, List.all_eq_true.1 rfl⟩

theorem isBlank_initial?_word (w : ReservedWord) :
    ∀ c ∈ initial? (.word w :: ts), Text.isBlank c = false := by
  obtain ⟨c, cs, htext, hc, _⟩ := exists_text_reserved_eq w
  have htoken : (word w).text.toList = c :: cs := by rw [text, htext, String.toList_ofList]
  exact forall_initial?_cons htoken (isBlank_eq_false_of_isAlpha hc)

theorem Spelled.reserved (h : Spelled ts) {w : ReservedWord} (hw : w ≠ .REM)
    (hn : ∀ b ∈ initial? ts, isWordChar b = false) : Spelled (.word w :: ts) := by
  have hword : ofWord w.text = .word w := by
    rw [ofWord, ReservedWord.ofText?_eq_some_iff.2 rfl]
  obtain ⟨c, cs, htext, hc, hcs⟩ := exists_text_reserved_eq w
  rw [← hword, htext]
  refine .word hc hcs ?_ h hn
  rw [← htext, hword]
  exact fun h => hw (Token.word.inj h)

end

/-- A regular token is trimmed at neither end of a line. -/
def IsRegular (t : Token) : Prop :=
  t.isBlanks = false ∧ ∀ s, t ≠ .unknown s

theorem dropInitialBlanks_word (w : ReservedWord) (ts : List Token) :
    dropInitialBlanks (.word w :: ts) = .word w :: ts := rfl

theorem trimFinal_of_getLast? {ts : List Token} {t : Token} (hlast : ts.getLast? = some t)
    (h : t.IsRegular) : trimFinalUnknown (dropFinalBlanks ts) = ts := by
  obtain ⟨hb, hu⟩ := h
  have hfinal : dropFinalBlanks ts = ts := by
    unfold dropFinalBlanks
    split
    · next n hn =>
        obtain rfl : t = .blanks n := by simpa [hlast] using hn
        cases hb
    · rfl
  rw [hfinal]
  unfold trimFinalUnknown
  split
  · next s hs => exact absurd (by simpa [hlast] using hs) (hu s)
  · rfl

theorem trimEnd_eq_self {cs : List Char} (h : ∀ c ∈ cs.getLast?, Text.isSpace c = false) :
    Text.trimEnd cs = cs := by
  have hhead : ∀ c ∈ cs.reverse.head?, Text.isSpace c = false := by simpa using h
  have hdrop := dropWhile_append_of_head? (l := []) (by simp) hhead
  rw [List.nil_append] at hdrop
  rw [Text.trimEnd, hdrop, List.reverse_reverse]

theorem trimFinal_remark (ts : List Token) {cs : List Char} (hcs : cs ≠ [])
    (h : ∀ c ∈ cs.getLast?, Text.isSpace c = false) :
    trimFinalUnknown (dropFinalBlanks (ts ++ remark cs)) = ts ++ remark cs := by
  have hremark : remark cs = [.unknown (String.ofList cs)] := by simp [remark, hcs]
  rw [hremark, dropFinalBlanks, List.getLast?_concat, trimFinalUnknown, List.getLast?_concat]
  simp [trimEnd_eq_self h, hremark]

end Token

end IntegerBasic
