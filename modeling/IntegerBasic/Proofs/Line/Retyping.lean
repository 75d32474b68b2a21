import IntegerBasic.Line.Meaning
import IntegerBasic.Proofs.Expr.Spelling
import IntegerBasic.Proofs.Statement.Grammar
import IntegerBasic.Proofs.Token.Rescanning

/-!
# Typing a line again

A numbered line is written as its number, one space and its tokens, and a direct line as its
tokens. What is written is read as a line with the same number, if there is one, and the same
tokens, which are trimmed once more; and blanks at the end of what is typed do not count.

The main statements are that the second trimming removes blanks only, if the line says a
statement, that the line then has the same number and says the same statement, and that a text
without a blank at its end is written again as it is.
-/

namespace IntegerBasic

namespace Token

section

variable {t : Token} {ts us : List Token}

@[simp] theorem isRegular_word (w : ReservedWord) : (word w).IsRegular :=
  ⟨rfl, fun _ => Token.noConfusion⟩

@[simp] theorem isRegular_operator (o : Operator) : (operator o).IsRegular :=
  ⟨rfl, fun _ => Token.noConfusion⟩

@[simp] theorem isRegular_literal (d : String) : (literal d).IsRegular :=
  ⟨rfl, fun _ => Token.noConfusion⟩

@[simp] theorem isRegular_ident (x : String) : (ident x).IsRegular :=
  ⟨rfl, fun _ => Token.noConfusion⟩

@[simp] theorem isRegular_leftParen : leftParen.IsRegular :=
  ⟨rfl, fun _ => Token.noConfusion⟩

@[simp] theorem isRegular_rightParen : rightParen.IsRegular :=
  ⟨rfl, fun _ => Token.noConfusion⟩

theorem ofWord_ne_literal (s d : String) : ofWord s ≠ .literal d := by
  unfold ofWord
  split <;> exact Token.noConfusion

theorem ofSymbol_ne_literal (c : Char) (d : String) : ofSymbol c ≠ .literal d := by
  unfold ofSymbol
  split <;> exact Token.noConfusion

theorem ofSymbol_ne_word (c : Char) (w : ReservedWord) : ofSymbol c ≠ .word w := by
  unfold ofSymbol
  split <;> exact Token.noConfusion

theorem numerals_cons (h : ∀ d, t = .literal d → ∀ c ∈ d.toList, c.isDigit = true)
    (hts : Expr.Numerals ts) : Expr.Numerals (t :: ts) :=
  fun d hd => (List.mem_cons.1 hd).elim (fun ht => h d ht.symm) (hts d)

theorem Spelled.numerals (h : Spelled ts) : Expr.Numerals ts := by
  induction h with
  | nil => exact fun _ hd => absurd hd List.not_mem_nil
  | blanks _ _ ih => exact numerals_cons (fun _ => Token.noConfusion) ih
  | @literal c cs _ hc hcs _ _ ih =>
      refine numerals_cons (fun d hd => ?_) ih
      cases hd
      rw [String.toList_ofList]
      exact List.forall_mem_cons.2 ⟨hc, hcs⟩
  | word _ _ _ _ _ ih => exact numerals_cons (fun d hd => absurd hd (ofWord_ne_literal _ d)) ih
  | @remark cs _ =>
      refine numerals_cons (fun _ => Token.noConfusion) ?_
      cases cs with
      | nil => exact fun _ hd => absurd hd List.not_mem_nil
      | cons c cs =>
          exact numerals_cons (fun _ => Token.noConfusion) fun _ hd => absurd hd List.not_mem_nil
  | symbol _ _ _ ih => exact numerals_cons (fun d hd => absurd hd (ofSymbol_ne_literal _ d)) ih

theorem Spelled.of_remark (h : Spelled (.word .REM :: ts)) : ∃ cs, ts = Token.remark cs := by
  generalize hus : Token.word .REM :: ts = us at h
  cases h with
  | nil | blanks | literal => cases hus
  | word _ _ hr => exact absurd (List.cons.inj hus).1.symm hr
  | @remark cs =>
      cases hus
      exact ⟨cs, rfl⟩
  | symbol => exact absurd (List.cons.inj hus).1.symm (ofSymbol_ne_word _ _)

theorem trimEnd_trimEnd (cs : List Char) : Text.trimEnd (Text.trimEnd cs) = Text.trimEnd cs := by
  have hspace : ∀ c ∈ (cs.reverse.takeWhile Text.isSpace).reverse, Text.isSpace c = true :=
    fun c hc => forall_mem_takeWhile _ _ c (List.mem_reverse.1 hc)
  rw [← trimEnd_append hspace (Text.trimEnd cs), Text.trimEnd_append_takeWhile]

/-- Trimming the end of a line changes no token before it. -/
theorem exists_of_trimFinalUnknown (h : trimFinalUnknown us = t :: ts)
    (ht : ∀ s, t ≠ .unknown s) : ∃ vs, us = t :: vs ∧ trimFinalUnknown vs = ts := by
  cases us with
  | nil => cases h
  | cons u vs =>
      by_cases hu : (∀ s, u ≠ .unknown s) ∨ vs ≠ []
      · rw [trimFinalUnknown_cons hu] at h
        cases h
        exact ⟨vs, rfl, rfl⟩
      · simp only [not_or, Classical.not_forall, Decidable.not_not] at hu
        obtain ⟨⟨s, rfl⟩, rfl⟩ := hu
        have hlast : remark (Text.trimEnd s.toList) = t :: ts := h
        unfold remark at hlast
        split at hlast
        · cases hlast
        · exact absurd (List.cons.inj hlast).1.symm (ht _)

theorem Spelled.trim_remark (h : Spelled us) (heq : Token.trim us = .word .REM :: ts) :
    ∃ cs, ts = Token.remark cs ∧ Text.trimEnd cs = cs := by
  have hremark (vs : List Token) (hvs : Spelled vs)
      (hv : Token.trimFinalUnknown vs = .word .REM :: ts) :
      ∃ cs, ts = Token.remark cs ∧ Text.trimEnd cs = cs := by
    obtain ⟨rest, rfl, _⟩ := exists_of_trimFinalUnknown hv fun _ => Token.noConfusion
    obtain ⟨cs, rfl⟩ := hvs.of_remark
    rw [trimFinalUnknown_remark] at hv
    exact ⟨_, (List.cons.inj hv).2.symm, trimEnd_trimEnd cs⟩
  unfold Token.trim Token.dropInitialBlanks at heq
  split at heq
  · next n rest hrest =>
      obtain ⟨vs, hvs, hv⟩ := exists_of_trimFinalUnknown hrest fun _ => Token.noConfusion
      exact hremark vs (hvs ▸ h.dropFinalBlanks).of_blanks.2.1 (hv.trans heq)
  · exact hremark _ h.dropFinalBlanks heq

theorem trim_remark_eq_self {cs : List Char} (h : Text.trimEnd cs = cs) :
    trim (.word .REM :: remark cs) = .word .REM :: remark cs := by
  rw [trim, dropFinalBlanks_remark, trimFinalUnknown_remark, h, dropInitialBlanks_word]

theorem significant_dropFinalBlanks (ts : List Token) :
    significant (dropFinalBlanks ts) = significant ts := by
  unfold dropFinalBlanks
  split
  · next n hn =>
      obtain ⟨us, rfl⟩ := List.getLast?_eq_some_iff.1 hn
      have hblank : significant [.blanks n] = [] := rfl
      rw [List.dropLast_concat, significant_append, hblank, List.append_nil]
  · rfl

theorem trimFinalUnknown_eq_self (h : ∀ s, .unknown s ∉ ts) : trimFinalUnknown ts = ts := by
  unfold trimFinalUnknown
  split
  · next s hs => exact absurd (List.mem_of_getLast? hs) (h s)
  · rfl

theorem dropFinalBlanks_isPrefix (ts : List Token) : dropFinalBlanks ts <+: ts := by
  unfold dropFinalBlanks
  split
  · exact List.dropLast_prefix ts
  · exact List.prefix_refl ts

theorem dropInitialBlanks_eq_self (h : ∀ n us, ts ≠ .blanks n :: us) :
    dropInitialBlanks ts = ts := by
  unfold dropInitialBlanks
  split
  · exact absurd rfl (h _ _)
  · rfl

/-- Without irregular tokens in it, a line that starts with no blanks can lose blanks at its end
only. -/
theorem trim_eq_dropFinalBlanks (hb : ∀ n us, ts ≠ .blanks n :: us)
    (hu : ∀ s, .unknown s ∉ ts) : trim ts = dropFinalBlanks ts := by
  obtain ⟨rest, hrest⟩ := dropFinalBlanks_isPrefix ts
  have hfinal : ∀ s, .unknown s ∉ dropFinalBlanks ts := fun s hs =>
    hu s (hrest ▸ List.mem_append_left _ hs)
  have hinitial (n : Nat) (us : List Token) : dropFinalBlanks ts ≠ .blanks n :: us := fun heq =>
    hb n (us ++ rest) (by rw [← hrest, heq]; rfl)
  rw [trim, trimFinalUnknown_eq_self hfinal, dropInitialBlanks_eq_self hinitial]

theorem textOf_dropFinalBlanks (h : (textOf ts).toList.getLast? ≠ some ' ') :
    textOf (dropFinalBlanks ts) = textOf ts := by
  unfold dropFinalBlanks
  split
  · next n hn =>
      obtain ⟨us, rfl⟩ := List.getLast?_eq_some_iff.1 hn
      cases n with
      | zero =>
          have hempty : textOf [.blanks 0] = "" := rfl
          rw [List.dropLast_concat, textOf_append, hempty, String.append_empty]
      | succ n =>
          refine absurd ?_ h
          rw [textOf_append, String.toList_append, toList_textOf_cons, text, String.toList_ofList,
            List.replicate_succ', textOf_nil, String.toList_empty, List.append_nil,
            ← List.append_assoc, List.getLast?_concat]
  · rfl

end

end Token

theorem Expr.isRegular_of_derives {deepest d : Nat} {r : Rank} {us : List Token} {e : Expr}
    (h : Derives deepest r d us e) : ∀ t ∈ us, t.IsRegular := by
  induction h with
  | var | number | negative => simp
  | negation _ _ _ ih => exact List.forall_mem_cons.2 ⟨Token.isRegular_operator _, ih⟩
  | paren _ _ ih =>
      exact List.forall_mem_append.2
        ⟨List.forall_mem_cons.2 ⟨Token.isRegular_leftParen, ih⟩, by simp⟩
  | ofFactor _ ih | ofProduct _ ih => exact ih
  | multiply _ _ ih ih' | divide _ _ ih ih' | plus _ _ ih ih' | minus _ _ ih ih' =>
      exact List.forall_mem_append.2
        ⟨ih, List.forall_mem_cons.2 ⟨Token.isRegular_operator _, ih'⟩⟩

namespace Statement

theorem exists_word_of_ofTokens {ts : List Token} {s : Statement} (h : ofTokens ts = .ok s) :
    ∃ w rest, ts.dropWhile Token.isBlanks = .word w :: rest := by
  unfold ofTokens at h
  split at h
  · cases h
  · next rest hts => exact ⟨_, rest, hts⟩
  · next w rest _ hts => exact ⟨w, rest, hts⟩
  · cases h

theorem isRegular_of_derives {us : List Token} {s : Statement} (h : Derives us s) :
    ∀ t ∈ us, t.IsRegular := by
  cases h with
  | assign h | print h => simpa using Expr.isRegular_of_derives h
  | input | goto | halt => simp
  | @branch _ _ _ _ rel _ _ hl hr =>
      have hleft := List.forall_mem_cons.2
        ⟨Token.isRegular_word .IF, Expr.isRegular_of_derives hl⟩
      have hright := List.forall_mem_cons.2
        ⟨Token.isRegular_operator rel.operator, Expr.isRegular_of_derives hr⟩
      exact List.forall_mem_append.2 ⟨List.forall_mem_append.2 ⟨hleft, hright⟩, by simp⟩

/-- A line that says a statement loses blanks only when it is trimmed once more, and still says
the statement. -/
theorem trim_trim_of_ofTokens {us : List Token} {s : Statement} (hus : Token.Spelled us)
    (h : ofTokens (Token.trim us) = .ok s) :
    Token.trim (Token.trim us) = Token.dropFinalBlanks (Token.trim us) ∧
      ofTokens (Token.dropFinalBlanks (Token.trim us)) = .ok s := by
  have hb := hus.trim_ne_blanks
  have hmeans := means_of_ofTokens hus.trim.numerals h
  generalize hts : Token.trim us = ts at hb hmeans h
  cases hmeans with
  | @remark bs rest hbs =>
      cases bs with
      | nil =>
          obtain ⟨cs, rfl, hcs⟩ := hus.trim_remark hts
          rw [List.nil_append] at h ⊢
          rw [Token.trim_remark_eq_self hcs, Token.dropFinalBlanks_remark]
          exact ⟨rfl, h⟩
      | cons t bs =>
          have ht := hbs t List.mem_cons_self
          cases t with
          | blanks n => exact absurd rfl (hb n _)
          | _ => cases ht
  | ofDerives hd =>
      have hu (s : String) : .unknown s ∉ ts := fun hs =>
        have hmem : .unknown s ∈ Token.significant ts := List.mem_filter.2 ⟨hs, rfl⟩
        (isRegular_of_derives hd _ hmem).2 s rfl
      rw [Token.trim_eq_dropFinalBlanks hb hu]
      exact ⟨rfl, ofTokens_of_means (.ofDerives (Token.significant_dropFinalBlanks ts ▸ hd))⟩

end Statement

namespace Line

theorem dropOneSpace_isSuffix (cs : List Char) : dropOneSpace cs <:+ cs := by
  unfold dropOneSpace
  split
  · exact List.suffix_cons _ _
  · exact List.suffix_refl _

theorem dropOneSpace_cons_append (c : Char) (cs w : List Char) :
    dropOneSpace (c :: cs ++ w) = dropOneSpace (c :: cs) ++ w := by
  by_cases hc : c = ' '
  · subst hc
    rfl
  · have hcons (ds : List Char) : dropOneSpace (c :: ds) = c :: ds := by
      unfold dropOneSpace
      split
      · next heq => exact absurd (List.cons.inj heq).1 hc
      · rfl
    rw [List.cons_append, hcons, hcons, List.cons_append]

section

variable {w : List Char} (hw : ∀ c ∈ w, Text.isBlank c = true)

include hw

theorem dropOneSpace_append (cs : List Char) : ∃ v, (∀ c ∈ v, Text.isBlank c = true) ∧
    dropOneSpace (cs ++ w) = dropOneSpace cs ++ v := by
  cases cs with
  | nil => exact ⟨dropOneSpace w, fun c hc => hw c ((dropOneSpace_isSuffix w).subset hc), rfl⟩
  | cons c cs => exact ⟨w, hw, dropOneSpace_cons_append c cs w⟩

theorem splitNumber_append (cs : List Char) : ∃ v, (∀ c ∈ v, Text.isBlank c = true) ∧
    splitNumber (cs ++ w) = ((splitNumber cs).1, (splitNumber cs).2 ++ v) := by
  obtain ⟨htake, hdrop⟩ := Token.span_append (p := Char.isDigit) (Token.forall_head?_append
    (Token.forall_head?_dropWhile _ cs) fun c hc => Token.isDigit_of_isBlank c (hw c hc))
  unfold splitNumber
  rw [htake, hdrop]
  split
  · obtain ⟨v, hv, hdrop⟩ := dropOneSpace_append hw (cs.dropWhile Char.isDigit)
    exact ⟨v, hv, by rw [hdrop]⟩
  · exact ⟨w, hw, rfl⟩

theorem trimStart_append (cs : List Char) : ∃ v, (∀ c ∈ v, Text.isBlank c = true) ∧
    Text.trimStart (cs ++ w) = Text.trimStart cs ++ v := by
  unfold Text.trimStart
  rw [List.dropWhile_append]
  split
  · next hnil =>
      rw [List.isEmpty_iff.1 hnil]
      exact ⟨_, fun c hc => hw c ((List.dropWhile_suffix _).subset hc), rfl⟩
  · exact ⟨w, hw, rfl⟩

end

/-- Blanks at the end of what is typed do not count. -/
theorem ofText_append (s : String) {w : String} (hw : ∀ c ∈ w.toList, Text.isBlank c = true) :
    ofText (s ++ w) = ofText s := by
  obtain ⟨v, hv, hstart⟩ := trimStart_append hw s.toList
  obtain ⟨u, hu, hsplit⟩ := splitNumber_append hv (Text.trimStart s.toList)
  rw [ofText, String.toList_append, hstart, hsplit]
  simp only [Token.trim_scan_append hu]
  rfl

theorem ofText_of_number {s : String} {n : LineNumber} {cs : List Char}
    (hs : s.toList = n.text.toList ++ cs) (hcs : ∀ c ∈ cs.head?, c.isDigit = false) :
    ofText s = ⟨some n, Token.trim (Token.scan (dropOneSpace cs))⟩ := by
  have hdigits : ∀ c ∈ n.text.toList, c.isDigit = true := fun _ => Text.isDigit_of_mem_repr
  have hsplit : splitNumber s.toList = (some n, dropOneSpace cs) := by
    rw [splitNumber, hs, Token.takeWhile_append_of_head? hdigits hcs,
      Token.dropWhile_append_of_head? hdigits hcs, LineNumber.read?_text]
  have hstart : Text.trimStart s.toList = s.toList := by
    obtain ⟨c, ds, hc⟩ := List.exists_cons_of_ne_nil (toList_repr_ne_nil n.toNat)
    have hdigit : c.isDigit = true := hdigits c (hc ▸ List.mem_cons_self)
    have hspace : Text.isSpace c = false :=
      Text.isSpace_eq_false_of_isAlphanum (by simp [Char.isAlphanum, hdigit])
    rw [hs, LineNumber.text, hc, List.cons_append, Text.trimStart,
      List.dropWhile_cons_of_neg (by simp [hspace])]
  rw [ofText, hstart, hsplit]

/-- What a numbered line is written as is read as its number and its tokens. -/
theorem ofText_text {l : Line} {n : LineNumber} (hn : l.number = some n)
    (h : Token.Spelled l.tokens) : ofText l.text = ⟨some n, Token.trim l.tokens⟩ := by
  have htext : l.text.toList = n.text.toList ++ ' ' :: l.source.toList := by
    rw [text, hn]
    simp
  rw [ofText_of_number htext fun c hc => by cases hc; rfl, dropOneSpace, source,
    Token.scan_textOf h]

theorem ofText_text_of_word {l : Line} {w : ReservedWord} {rest : List Token}
    (hn : l.number = none) (hw : l.tokens = .word w :: rest) (h : Token.Spelled l.tokens) :
    ofText l.text = ⟨none, Token.trim l.tokens⟩ := by
  obtain ⟨c, cs, htext, hc, _⟩ := Token.exists_text_reserved_eq w
  have hsource : l.source.toList = c :: (cs ++ (Token.textOf rest).toList) := by
    rw [source, hw, Token.toList_textOf_cons, Token.text, htext, String.toList_ofList]
    rfl
  have hline : l.text = l.source := by rw [text, hn]
  rw [hline, ofText_of_isAlpha hsource hc, source, Token.scan_textOf h]

/-- A remark can be typed right after its number. -/
theorem ofText_remark {n : LineNumber} {cs : List Char}
    (hhead : ∀ c ∈ cs.head?, Token.isWordChar c = false)
    (hlast : ∀ c ∈ cs.getLast?, Text.isSpace c = false) :
    ofText (n.text ++ "REM" ++ String.ofList cs) = ⟨some n, .word .REM :: Token.remark cs⟩ := by
  have htext : (Token.textOf (.word .REM :: Token.remark cs)).toList = 'R' :: 'E' :: 'M' :: cs := by
    rw [Token.toList_textOf_cons, Token.toList_textOf_remark]
    rfl
  have htyped : (n.text ++ "REM" ++ String.ofList cs).toList =
      n.text.toList ++ 'R' :: 'E' :: 'M' :: cs := by simp
  have hscan : Token.scan ('R' :: 'E' :: 'M' :: cs) = .word .REM :: Token.remark cs := by
    rw [← htext, Token.scan_textOf (.remark hhead)]
  have hdrop : dropOneSpace ('R' :: 'E' :: 'M' :: cs) = 'R' :: 'E' :: 'M' :: cs := rfl
  rw [ofText_of_number htyped fun c hc => by cases hc; rfl, hdrop, hscan,
    Token.trim_remark_eq_self (Token.trimEnd_eq_self hlast)]

theorem text_remark (n : LineNumber) (cs : List Char) :
    text ⟨some n, .word .REM :: Token.remark cs⟩ = n.text ++ " REM" ++ String.ofList cs := by
  apply String.toList_injective
  simp [text, source, Token.toList_textOf_remark, Token.text, ReservedWord.text]

section

variable {s : String} {n : LineNumber} {st : Statement}

theorem exists_tokens_eq_word (hs : (ofText s).statement = .ok st) :
    ∃ w rest, (ofText s).tokens = .word w :: rest := by
  obtain ⟨w, rest, hw⟩ := Statement.exists_word_of_ofTokens hs
  have hblanks := (Token.spelled_scan (splitNumber (Text.trimStart s.toList)).2).trim_ne_blanks
  refine ⟨w, rest, ?_⟩
  rw [← hw]
  cases hts : (ofText s).tokens with
  | nil => rfl
  | cons t ts =>
      cases t with
      | blanks k => exact absurd hts (hblanks k ts)
      | _ => rfl

/-- The text of a line that says a statement is read as the line without the blanks at its end,
which says the same. -/
theorem ofText_text_ofText (hs : (ofText s).statement = .ok st) :
    ofText (ofText s).text = ⟨(ofText s).number, Token.dropFinalBlanks (ofText s).tokens⟩ ∧
      (ofText (ofText s).text).statement = .ok st := by
  have hspelled : Token.Spelled (ofText s).tokens := (Token.spelled_scan _).trim
  have htrim := Statement.trim_trim_of_ofTokens (Token.spelled_scan _) hs
  have hread : ofText (ofText s).text = ⟨(ofText s).number, Token.trim (ofText s).tokens⟩ := by
    cases hn : (ofText s).number with
    | some n => exact ofText_text hn hspelled
    | none =>
        obtain ⟨w, rest, hw⟩ := exists_tokens_eq_word hs
        exact ofText_text_of_word hn hw hspelled
  have hline := hread.trans (congrArg (Line.mk (ofText s).number) htrim.1)
  exact ⟨hline, hline ▸ htrim.2⟩

theorem getLast?_text {l : Line} (hn : l.number = some n)
    (h : l.source.toList.getLast? = some ' ') : l.text.toList.getLast? = some ' ' := by
  rw [text, hn]
  dsimp only
  rw [String.toList_append, List.getLast?_append, h, Option.some_or]

/-- The text of a line that says a statement is the text of what it is read as, unless it ends
with a blank. -/
theorem text_ofText_text (hn : (ofText s).number = some n) (hs : (ofText s).statement = .ok st)
    (hlast : (ofText s).text.toList.getLast? ≠ some ' ') :
    (ofText (ofText s).text).text = (ofText s).text := by
  have hsource := Token.textOf_dropFinalBlanks (mt (getLast?_text hn) hlast)
  rw [(ofText_text_ofText hs).1, text, text, hn]
  exact congrArg (n.text ++ " " ++ ·) hsource

/-- A line that says a statement keeps its meaning when it is written and read again: what is read
has the same number, or none, and says the same statement. -/
theorem number_and_statement_ofText_text (hs : (ofText s).statement = .ok st) :
    (ofText (ofText s).text).number = (ofText s).number ∧
      (ofText (ofText s).text).statement = .ok st := by
  obtain ⟨hline, hstatement⟩ := ofText_text_ofText hs
  exact ⟨hline ▸ rfl, hstatement⟩

/-- A line is typed with a tab, with zeros and without a space after its number, and with a
no-break space at its end, which leaves a blank behind that is lost when the line is read again. -/
theorem number_and_statement_ofText_text_of_no_break_space :
    let s := "\t007IF\tX<2THEN 030 \u00a0"
    (ofText s).statement = .ok (.branch (.var "X") .less (.int 2) 30) ∧
      (ofText s).text = "7 IF X<2THEN 030 " ∧
      (ofText "7 IF X<2THEN 030 ").number = some 7 ∧
      (ofText "7 IF X<2THEN 030 ").statement = .ok (.branch (.var "X") .less (.int 2) 30) := by
  intro s
  have hs : (ofText s).statement = .ok (.branch (.var "X") .less (.int 2) 30) := by
    have hoption : (ofText s).statement.toOption = some (.branch (.var "X") .less (.int 2) 30) := by
      decide +kernel
    cases hst : (ofText s).statement with
    | error f =>
        rw [hst] at hoption
        cases hoption
    | ok st =>
        rw [hst] at hoption
        exact congrArg Except.ok (Option.some.inj hoption)
  have htext : (ofText s).text = "7 IF X<2THEN 030 " := by decide +kernel
  have hnumber : (ofText s).number = some 7 := by decide +kernel
  have h := number_and_statement_ofText_text hs
  rw [htext, hnumber] at h
  exact ⟨hs, htext, h⟩

end

end Line

end IntegerBasic
