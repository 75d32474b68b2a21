import IntegerBasic.Line.Meaning
import IntegerBasic.Proofs.Expr.Spelling
import IntegerBasic.Proofs.Statement.Grammar

/-!
# The tokens of a statement

A statement is written as the tokens `tokens s`. If its names are names and its remark can
be told from the word before it and from the end of the line, then these tokens are what
its text is split into.

The main statement says that reading the text of such a statement gives the statement back,
or fails because an expression in it is too high, and that the height alone decides which.
-/

namespace IntegerBasic

namespace Statement

def tokens : Statement → List Token
  | .assign x e =>
    [.word .LET, .blanks 1, .ident x, .blanks 1, .operator .equal, .blanks 1] ++ e.tokens
  | .print e => [.word .PRINT, .blanks 1] ++ e.tokens
  | .input x => [.word .INPUT, .blanks 1, .ident x]
  | .remark s => .word .REM :: Token.remark s.toList
  | .goto n => [.word .GOTO, .blanks 1, .literal n.text]
  | .branch l rel r n =>
    [.word .IF, .blanks 1] ++ l.tokens ++ [.blanks 1, .operator rel.operator, .blanks 1] ++
      r.tokens ++ [.blanks 1, .word .THEN, .blanks 1, .literal n.text]
  | .halt => [.word .END]

def names : Statement → List String
  | .assign x e => x :: e.names
  | .print e => e.names
  | .input x => [x]
  | .branch l _ r _ => l.names ++ r.names
  | _ => []

def exprs : Statement → List Expr
  | .assign _ e => [e]
  | .print e => [e]
  | .branch l _ r _ => [l, r]
  | _ => []

/-- The text of the statement says what the statement is: its names are names, and a remark
neither goes on with the word before it nor ends with white space. -/
structure Writable (s : Statement) : Prop where
  names : ∀ x ∈ s.names, IsName x
  head : ∀ r, s = .remark r → ∀ c ∈ r.toList.head?, Token.isWordChar c = false
  last : ∀ r, s = .remark r → ∀ c ∈ r.toList.getLast?, Text.isSpace c = false

theorem writable_of_names {s : Statement} (hs : ∀ r, s ≠ .remark r)
    (hn : ∀ x ∈ s.names, IsName x) : s.Writable :=
  ⟨hn, fun r h => absurd h (hs r), fun r h => absurd h (hs r)⟩

theorem textOf_tokens (s : Statement) : Token.textOf s.tokens = s.text := by
  apply String.toList_injective
  cases s with
  | remark r => simp [tokens, text, Token.toList_textOf_remark,
      Token.text, ReservedWord.text]
  | branch l rel r n =>
      have hrel : rel.operator.text = rel.sign := by cases rel <;> rfl
      simp [tokens, text, Token.text, ReservedWord.text, hrel, Expr.textOf_tokens]
  | _ => simp [tokens, text, Token.text, ReservedWord.text, Operator.text, Expr.textOf_tokens]

section

variable {s : Statement} {e : Expr}

theorem exists_tokens_eq (s : Statement) : ∃ w us, s.tokens = .word w :: us := by
  cases s <;> exact ⟨_, _, rfl⟩

theorem spelled_blank_tokens (he : ∀ x ∈ e.names, IsName x) :
    Token.Spelled (.blanks 1 :: e.tokens) := by
  have htokens := e.spelled_tokens_append he .nil Token.isWordChar_initial?_nil
  simpa using htokens.blank (e.isBlank_initial?_tokens he [])

theorem spelled_blank_literal (n : LineNumber) :
    Token.Spelled [.blanks 1, .literal n.text] :=
  (spelled_literal_repr n.toNat .nil Token.isWordChar_initial?_nil).blank
    (isBlank_initial?_literal_repr _ _)

theorem spelled_tokens (h : s.Writable) : Token.Spelled s.tokens := by
  have hblank {ts : List Token} : ∀ b ∈ Token.initial? (.blanks 1 :: ts),
      Token.isWordChar b = false := Token.isWordChar_initial?_blank
  cases s with
  | assign x e =>
      have hx := h.names x (by simp [names])
      have he : ∀ y ∈ e.names, IsName y := fun y hy => h.names y (by simp [names, hy])
      have hequal := ((spelled_blank_tokens he).operator .equal).blank
        (Token.isBlank_initial?_operator _)
      have hname := (hx.spelled hequal hblank).blank (hx.isBlank_initial? _)
      exact hname.reserved (by decide) hblank
  | print e =>
      have he : ∀ y ∈ e.names, IsName y := fun y hy => h.names y (by simp [names, hy])
      exact (spelled_blank_tokens he).reserved (by decide) hblank
  | input x =>
      have hx := h.names x (by simp [names])
      have hname := (hx.spelled .nil Token.isWordChar_initial?_nil).blank (hx.isBlank_initial? _)
      exact hname.reserved (by decide) hblank
  | remark r => exact .remark (h.head r rfl)
  | goto n => exact (spelled_blank_literal n).reserved (by decide) hblank
  | branch l rel r n =>
      have hl : ∀ y ∈ l.names, IsName y := fun y hy => h.names y (by simp [names, hy])
      have hr : ∀ y ∈ r.names, IsName y := fun y hy => h.names y (by simp [names, hy])
      have hthen := ((spelled_blank_literal n).reserved (w := .THEN) (by decide) hblank).blank
        (Token.isBlank_initial?_word _)
      have hright := r.spelled_tokens_append hr hthen hblank
      have hrel := ((hright.blank (r.isBlank_initial?_tokens hr _)).operator rel.operator).blank
        (Token.isBlank_initial?_operator _)
      have hleft := l.spelled_tokens_append hl hrel hblank
      have hif := (hleft.blank (l.isBlank_initial?_tokens hl _)).reserved (w := .IF) (by decide)
        hblank
      simpa [tokens] using hif
  | halt => exact Token.Spelled.nil.reserved (by decide) Token.isWordChar_initial?_nil

theorem getLast?_tokens (hs : ∀ r, s = .remark r → r.toList = []) :
    ∃ t, s.tokens.getLast? = some t ∧ t.IsRegular := by
  cases s with
  | assign x e =>
      obtain ⟨t, he, ht⟩ := e.getLast?_tokens
      exact ⟨t, by rw [tokens, List.getLast?_append, he]; rfl, ht⟩
  | print e =>
      obtain ⟨t, he, ht⟩ := e.getLast?_tokens
      exact ⟨t, by rw [tokens, List.getLast?_append, he]; rfl, ht⟩
  | input x => exact ⟨_, rfl, rfl, by simp⟩
  | remark r =>
      refine ⟨.word .REM, ?_, rfl, by simp⟩
      rw [tokens, hs r rfl]
      rfl
  | goto n => exact ⟨_, rfl, rfl, by simp⟩
  | branch l rel r n =>
      exact ⟨.literal n.text, by rw [tokens, List.getLast?_append]; rfl, rfl, by simp⟩
  | halt => exact ⟨_, rfl, rfl, by simp⟩

theorem trim_tokens (h : s.Writable) : Token.trim s.tokens = s.tokens := by
  have hfinal : Token.trimFinalUnknown (Token.dropFinalBlanks s.tokens) = s.tokens := by
    by_cases hs : ∃ r, s = .remark r ∧ r.toList ≠ []
    · obtain ⟨r, rfl, hr⟩ := hs
      exact Token.trimFinal_remark [.word .REM] hr (h.last r rfl)
    · have hempty : ∀ r, s = .remark r → r.toList = [] := fun r hr =>
        Decidable.byContradiction fun hne => hs ⟨r, hr, hne⟩
      obtain ⟨t, hlast, ht⟩ := s.getLast?_tokens hempty
      exact Token.trimFinal_of_getLast? hlast ht
  obtain ⟨w, us, htokens⟩ := s.exists_tokens_eq
  rw [Token.trim, hfinal, htokens, Token.dropInitialBlanks_word]

/-- The text of a statement is a direct line that consists of its tokens. -/
theorem ofText_text (h : s.Writable) : Line.ofText s.text = ⟨none, s.tokens⟩ := by
  obtain ⟨w, us, htokens⟩ := s.exists_tokens_eq
  obtain ⟨c, cs, hw, hc, _⟩ := Token.exists_text_reserved_eq w
  have htext : s.text.toList = c :: (cs ++ (Token.textOf us).toList) := by
    rw [← textOf_tokens, htokens, Token.toList_textOf_cons, Token.text, hw, String.toList_ofList]
    rfl
  rw [Line.ofText_of_isAlpha htext hc, ← textOf_tokens, Token.scan_textOf (spelled_tokens h),
    trim_tokens h]

theorem digits?_text (n : LineNumber) : Text.digits? n.text.toList = some n.toNat := by
  rw [LineNumber.text, Nat.toList_repr, Text.digits?_toDigits]

theorem means_tokens (h : ∀ e ∈ s.exprs, e.height ≤ 64) : Means s.tokens s := by
  cases s with
  | assign x e =>
      have he := Expr.derives_tokens_of_height_le (h e (by simp [exprs]))
      refine .ofDerives ?_
      rw [tokens, Token.significant_append]
      exact .assign he
  | print e =>
      have he := Expr.derives_tokens_of_height_le (h e (by simp [exprs]))
      refine .ofDerives ?_
      rw [tokens, Token.significant_append]
      exact .print he
  | input x => exact .ofDerives .input
  | remark r =>
      have hr : Token.textOf (Token.remark r.toList) = r :=
        String.toList_injective (Token.toList_textOf_remark _)
      have hmeans : Means ([] ++ .word .REM :: Token.remark r.toList) _ := .remark (by simp)
      rwa [hr] at hmeans
  | goto n => exact .ofDerives (.goto (digits?_text n))
  | branch l rel r n =>
      have hl := Expr.derives_tokens_of_height_le (h l (by simp [exprs]))
      have hr := Expr.derives_tokens_of_height_le (h r (by simp [exprs]))
      have hbranch : Derives _ (.branch l rel r n) := .branch hl hr (digits?_text n)
      refine .ofDerives ?_
      simpa [tokens, Token.significant, Token.isBlanks] using hbranch
  | halt => exact .ofDerives .halt

theorem bind_eq_error {ε α β : Type} {x : Except ε α} {f : α → Except ε β} {a : ε}
    (h : x = .error a) : (x >>= f) = .error a := by
  rw [h]
  rfl

section

variable {us : List Token} {f : SyntaxFault}

theorem readAfter_let_of_error (h : Expr.read us = .error f) (x : String) :
    readAfter (.ident x :: .operator .equal :: us) .LET = .error f := by
  simp only [readAfter, readName, readEqual, bind, Except.bind, h]

theorem readAfter_print_of_error (h : Expr.read us = .error f) :
    readAfter us .PRINT = .error f :=
  bind_eq_error h

theorem readAfter_if_of_error (h : Expr.read us = .error f) : readAfter us .IF = .error f :=
  bind_eq_error h

theorem readAfter_if_of_reads_of_error {ts : List Token} {l : Expr} {rel : Relation}
    (hl : Expr.Reads Expr.read ts l (.operator rel.operator :: us))
    (h : Expr.read us = .error f) : readAfter ts .IF = .error f := by
  obtain ⟨_, hl⟩ := hl
  have hrel : readRelation (.operator rel.operator :: us) = .ok (rel, us) :=
    readRelation_eq_ok_iff.2 rfl
  rw [readAfter, hl]
  simp only [bind, Except.bind, hrel, h]

end

theorem readAfter_if_tokens_eq_error {l r : Expr} (h : 64 < l.height ∨ 64 < r.height)
    (rel : Relation) (rest : List Token) :
    readAfter (Token.significant l.tokens ++ .operator rel.operator ::
      (Token.significant r.tokens ++ rest)) .IF = .error .expressionTooComplex := by
  by_cases hl : 64 < l.height
  · exact readAfter_if_of_error (Expr.read_eq_error hl _)
  · have hr : 64 < r.height := h.resolve_left hl
    have hderives := Expr.derives_tokens_of_height_le (Nat.le_of_not_lt hl)
    have hm := Expr.ends_operator_of_eq_none (multiplicative?_operator rel)
      (Token.significant r.tokens ++ rest)
    have ha := Expr.ends_operator_of_eq_none (additive?_operator rel)
      (Token.significant r.tokens ++ rest)
    have hleft := Expr.reads_of_derives hderives hm ha
    exact readAfter_if_of_reads_of_error hleft (Expr.read_eq_error hr _)

theorem ofTokens_of_significant_of_error {w : ReservedWord} {ts us : List Token} {f : SyntaxFault}
    (hw : w ≠ .REM) (hts : Token.significant ts = .word w :: us) (h : readAfter us w = .error f) :
    ofTokens ts = .error f := by
  obtain ⟨rest, hrest, rfl⟩ := Token.dropWhile_eq_cons_of_significant hts
  rw [ofTokens_of_dropWhile hrest hw, bind_eq_error h]

theorem ofTokens_word_of_error {w : ReservedWord} {us : List Token} {f : SyntaxFault}
    (hw : w ≠ .REM) (h : readAfter (Token.significant us) w = .error f) :
    ofTokens (.word w :: us) = .error f :=
  ofTokens_of_significant_of_error hw rfl h

/-- Reading the tokens of a statement fails if an expression in it is too high. -/
theorem ofTokens_tokens_of_height (h : ∃ e ∈ s.exprs, 64 < e.height) :
    ofTokens s.tokens = .error .expressionTooComplex := by
  obtain ⟨e', hmem, he⟩ := h
  cases s with
  | assign x e =>
      obtain rfl : e' = e := by simpa [exprs] using hmem
      have hread := readAfter_let_of_error (Expr.read_tokens_eq_error he) x
      exact ofTokens_word_of_error (by decide) hread
  | print e =>
      obtain rfl : e' = e := by simpa [exprs] using hmem
      have hread := readAfter_print_of_error (Expr.read_tokens_eq_error he)
      exact ofTokens_word_of_error (by decide) hread
  | branch l rel r n =>
      have hhigh : 64 < l.height ∨ 64 < r.height := by
        obtain rfl | rfl : e' = l ∨ e' = r := by simpa [exprs] using hmem
        · exact .inl he
        · exact .inr he
      have hread := readAfter_if_tokens_eq_error hhigh rel [.word .THEN, .literal n.text]
      refine ofTokens_word_of_error (by decide) ?_
      simpa [Token.significant, Token.isBlanks] using hread
  | input | remark | goto | halt => simp [exprs] at hmem

end

/-- Reading the text of a statement gives the statement back if no expression in it is higher
than sixty-four levels, and says that an expression is too complex if one is. -/
theorem statement_ofText_text {s : Statement} (h : s.Writable) :
    ((∀ e ∈ s.exprs, e.height ≤ 64) → (Line.ofText s.text).statement = .ok s) ∧
      ((¬ ∀ e ∈ s.exprs, e.height ≤ 64) → ∃ f, (Line.ofText s.text).statement = .error f ∧
        f.toError = { kind := .syntaxError, detail := "EXPRESSION TOO COMPLEX" }) := by
  rw [ofText_text h]
  constructor
  · intro hheight
    exact ofTokens_of_means (means_tokens hheight)
  · intro hheight
    have hhigh : ∃ e ∈ s.exprs, 64 < e.height := by simpa using hheight
    exact ⟨_, ofTokens_tokens_of_height hhigh, rfl⟩

/-- The statement `LET A_1 = (X - -2147483648)` is read back, and a sum of sixty-five ones is
too complex to be. -/
theorem statement_ofText_text_of_least_value :
    (Line.ofText "LET A_1 = (X - -2147483648)").statement =
        .ok (.assign "A_1" (.binary .subtract (.var "X") (.int (-2147483648)))) ∧
      ∃ f, (Line.ofText (print (Nat.repeat (.binary .add (.int 1)) 64 (.int 1))).text).statement =
        .error f ∧ f.toError = { kind := .syntaxError, detail := "EXPRESSION TOO COMPLEX" } := by
  have hname (x : String) (c : Char) (cs : List Char) (hx : x = String.ofList (c :: cs))
      (hc : c.isAlpha = true) (hcs : cs.all Token.isWordChar = true)
      (hw : ReservedWord.ofText? x = none) : IsName x :=
    ⟨⟨c, cs, hx, hc, List.all_eq_true.1 hcs⟩, ReservedWord.ofText?_eq_none_iff.1 hw⟩
  have hassign : (assign "A_1" (.binary .subtract (.var "X") (.int (-2147483648)))).Writable := by
    refine writable_of_names (fun r h => by cases h) fun x hx => ?_
    obtain rfl | rfl : x = "A_1" ∨ x = "X" := by simpa [names, Expr.names] using hx
    · exact hname _ 'A' ['_', '1'] rfl rfl rfl (by decide)
    · exact hname _ 'X' [] rfl rfl rfl (by decide)
  have hprint : (print (Nat.repeat (.binary .add (.int 1)) 64 (.int 1))).Writable :=
    writable_of_names (fun r h => by cases h) fun x hx =>
      absurd hx (by simp [names, Nat.repeat, Expr.names])
  exact ⟨(statement_ofText_text hassign).1 (by decide),
    (statement_ofText_text hprint).2 (by decide +kernel)⟩

end Statement

end IntegerBasic
