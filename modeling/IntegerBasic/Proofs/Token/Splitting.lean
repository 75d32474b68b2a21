import IntegerBasic.Proofs.Token.Rescanning

/-!
# Splitting a text by longest runs

`Splits cs ts` says, without the scanner, that the text `cs` is split into the tokens `ts`: runs of
blanks, of digits and of the characters of a word are as long as they can be, any other character
is a token by itself, and the word `REM` is followed by one token with all of the rest.

The main statements are that there is exactly one way to split a text, and that its tokens show
the text with a space for each blank outside the remark.
-/

namespace IntegerBasic

def Text.shown (c : Char) : Char :=
  if isBlank c then ' ' else c

/-- A run of characters of a kind that is not empty, and as long as it can be before `rest`. -/
structure Text.LongestRun (p : Char → Bool) (run rest : List Char) : Prop where
  ne_nil : run ≠ []
  forall_mem : ∀ c ∈ run, p c = true
  ends : ∀ c ∈ rest.head?, p c = false

theorem Text.LongestRun.takeWhile_eq {p : Char → Bool} {run rest : List Char}
    (h : LongestRun p run rest) : (run ++ rest).takeWhile p = run :=
  Token.takeWhile_append_of_head? h.forall_mem h.ends

theorem Text.LongestRun.dropWhile_eq {p : Char → Bool} {run rest : List Char}
    (h : LongestRun p run rest) : (run ++ rest).dropWhile p = rest :=
  Token.dropWhile_append_of_head? h.forall_mem h.ends

theorem Text.longestRun_takeWhile {p : Char → Bool} {c : Char} (hc : p c = true)
    (cs : List Char) : LongestRun p (c :: cs.takeWhile p) (cs.dropWhile p) where
  ne_nil := List.cons_ne_nil c _
  forall_mem := List.forall_mem_cons.2 ⟨hc, Token.forall_mem_takeWhile p cs⟩
  ends := Token.forall_head?_dropWhile p cs

namespace Token

/-- A character that is no part of any other token. -/
structure IsOther (c : Char) : Prop where
  not_blank : Text.isBlank c = false
  not_alphanum : c.isAlphanum = false
  not_operator : ∀ o : Operator, o.text ≠ String.singleton c
  ne_leftParen : c ≠ '('
  ne_rightParen : c ≠ ')'

/-- The text is split into the tokens. -/
inductive Splits : List Char → List Token → Prop
  | nil : Splits [] []
  | blanks {run rest : List Char} {ts : List Token} (hrun : Text.LongestRun Text.isBlank run rest)
      (h : Splits rest ts) : Splits (run ++ rest) (.blanks run.length :: ts)
  | literal {run rest : List Char} {ts : List Token} (hrun : Text.LongestRun Char.isDigit run rest)
      (h : Splits rest ts) : Splits (run ++ rest) (.literal (String.ofList run) :: ts)
  | reserved {w : ReservedWord} {rest : List Char} {ts : List Token} (hw : w ≠ .REM)
      (hrun : Text.LongestRun isWordChar w.text.toList rest) (h : Splits rest ts) :
      Splits (w.text.toList ++ rest) (.word w :: ts)
  | remark {rest : List Char}
      (hrun : Text.LongestRun isWordChar ReservedWord.REM.text.toList rest) :
      Splits (ReservedWord.REM.text.toList ++ rest) (.word .REM :: Token.remark rest)
  | ident {c : Char} {cs rest : List Char} {ts : List Token} (hc : c.isAlpha = true)
      (hrun : Text.LongestRun isWordChar (c :: cs) rest)
      (hw : ∀ w : ReservedWord, w.text ≠ String.ofList (c :: cs)) (h : Splits rest ts) :
      Splits (c :: cs ++ rest) (.ident (String.ofList (c :: cs)) :: ts)
  | operator {o : Operator} {rest : List Char} {ts : List Token} (h : Splits rest ts) :
      Splits (o.text.toList ++ rest) (.operator o :: ts)
  | leftParen {rest : List Char} {ts : List Token} (h : Splits rest ts) :
      Splits ('(' :: rest) (.leftParen :: ts)
  | rightParen {rest : List Char} {ts : List Token} (h : Splits rest ts) :
      Splits (')' :: rest) (.rightParen :: ts)
  | other {c : Char} {rest : List Char} {ts : List Token} (hc : IsOther c) (h : Splits rest ts) :
      Splits (c :: rest) (.unknown (String.singleton c) :: ts)

section

variable {c : Char} {cs rest : List Char} {ts us : List Token}

theorem isWordChar_of_isAlpha (h : c.isAlpha = true) : isWordChar c = true := by
  simp [isWordChar, Char.isAlphanum, h]

theorem Splits.ofWord (hc : c.isAlpha = true) (hrun : Text.LongestRun isWordChar (c :: cs) rest)
    (hr : ofWord (String.ofList (c :: cs)) ≠ .word .REM) (h : Splits rest ts) :
    Splits (c :: cs ++ rest) (Token.ofWord (String.ofList (c :: cs)) :: ts) := by
  rw [Token.ofWord] at hr ⊢
  split
  · next w hw =>
      have htext : w.text.toList = c :: cs := by
        rw [ReservedWord.ofText?_eq_some_iff.1 hw, String.toList_ofList]
      rw [hw] at hr
      rw [← htext] at hrun ⊢
      exact .reserved (fun hrem => hr (congrArg word hrem)) hrun h
  · next hw => exact .ident hc hrun (ReservedWord.ofText?_eq_none_iff.1 hw) h

theorem Splits.ofSymbol (hb : Text.isBlank c = false) (hc : c.isAlphanum = false)
    (h : Splits rest ts) : Splits (c :: rest) (Token.ofSymbol c :: ts) := by
  unfold Token.ofSymbol
  split
  · exact .operator (o := .multiply) h
  · exact .operator (o := .divide) h
  · exact .operator (o := .plus) h
  · exact .operator (o := .minus) h
  · exact .operator (o := .equal) h
  · exact .operator (o := .less) h
  · exact .operator (o := .greater) h
  · exact .leftParen h
  · exact .rightParen h
  · next hmul hdiv hplus hminus heq hless hgreater hleft hright =>
      refine .other ⟨hb, hc, fun o ho => ?_, hleft, hright⟩ h
      have htext : o.text.toList = [c] := by rw [ho, String.toList_singleton]
      cases o <;> cases htext <;> contradiction

theorem cons_takeWhile_append_dropWhile (p : Char → Bool) (c : Char) (cs : List Char) :
    c :: cs.takeWhile p ++ cs.dropWhile p = c :: cs :=
  congrArg (c :: ·) List.takeWhile_append_dropWhile

theorem splits_scan (cs : List Char) : Splits cs (scan cs) := by
  fun_induction scan cs with
  | case1 => exact .nil
  | case2 c cs hb ih =>
      have hlength : (c :: cs.takeWhile Text.isBlank).length =
          (cs.takeWhile Text.isBlank).length + 1 := rfl
      rw [← hlength]
      exact cons_takeWhile_append_dropWhile _ c cs ▸ .blanks (Text.longestRun_takeWhile hb cs) ih
  | case3 c cs _ hd ih =>
      exact cons_takeWhile_append_dropWhile _ c cs ▸ .literal (Text.longestRun_takeWhile hd cs) ih
  | case4 c cs _ _ ha t ht =>
      have hrun := Text.longestRun_takeWhile (isWordChar_of_isAlpha ha) cs
      have hcs := cons_takeWhile_append_dropWhile isWordChar c cs
      have htext : ReservedWord.REM.text.toList = c :: cs.takeWhile isWordChar := by
        have hword : ofWord (String.ofList (c :: cs.takeWhile isWordChar)) = .word .REM := ht
        have hw := text_ofWord (String.ofList (c :: cs.takeWhile isWordChar))
        rw [hword, text] at hw
        rw [hw, String.toList_ofList]
      rw [← htext] at hrun hcs
      rw [ht]
      exact hcs ▸ .remark hrun
  | case5 c cs _ _ ha t ht ih =>
      have hrun := Text.longestRun_takeWhile (isWordChar_of_isAlpha ha) cs
      exact cons_takeWhile_append_dropWhile _ c cs ▸ .ofWord ha hrun ht ih
  | case6 c cs hb hd ha ih =>
      exact .ofSymbol (Bool.eq_false_iff.2 hb) (by simp [Char.isAlphanum, ha, hd]) ih

theorem exists_ofSymbol_eq_operator (o : Operator) : ∃ c, o.text.toList = [c] ∧
    Text.isBlank c = false ∧ c.isAlphanum = false ∧ ofSymbol c = .operator o := by
  cases o <;> exact ⟨_, rfl, rfl, rfl, rfl⟩

theorem IsOther.ofSymbol_eq (h : IsOther c) : ofSymbol c = .unknown (String.singleton c) := by
  unfold ofSymbol
  split
  · exact absurd rfl (h.not_operator .multiply)
  · exact absurd rfl (h.not_operator .divide)
  · exact absurd rfl (h.not_operator .plus)
  · exact absurd rfl (h.not_operator .minus)
  · exact absurd rfl (h.not_operator .equal)
  · exact absurd rfl (h.not_operator .less)
  · exact absurd rfl (h.not_operator .greater)
  · exact absurd rfl h.ne_leftParen
  · exact absurd rfl h.ne_rightParen
  · rfl

theorem scan_word (hc : c.isAlpha = true) (hrun : Text.LongestRun isWordChar (c :: cs) rest) :
    scan (c :: cs ++ rest) =
      ofWord (String.ofList (c :: cs)) ::
        if ofWord (String.ofList (c :: cs)) = .word .REM then remark rest else scan rest := by
  have htail : ∀ d ∈ cs, isWordChar d = true := fun d hd =>
    hrun.forall_mem d (List.mem_cons_of_mem c hd)
  rw [List.cons_append, scan_of_isAlpha hc, takeWhile_append_of_head? htail hrun.ends,
    dropWhile_append_of_head? htail hrun.ends]

theorem scan_reserved {w : ReservedWord}
    (hrun : Text.LongestRun isWordChar w.text.toList rest) :
    scan (w.text.toList ++ rest) =
      .word w :: if w = .REM then remark rest else scan rest := by
  obtain ⟨c, cs, htext, hc, _⟩ := exists_text_reserved_eq w
  have hword : ofWord w.text = .word w := by
    rw [ofWord, ReservedWord.ofText?_eq_some_iff.2 rfl]
  have hlist : w.text.toList = c :: cs := by rw [htext, String.toList_ofList]
  rw [hlist] at hrun ⊢
  rw [scan_word hc hrun, ← htext, hword]
  simp only [Token.word.injEq]

/-- There is exactly one way to split a text. -/
theorem splits_iff : Splits cs ts ↔ ts = scan cs := by
  constructor
  · intro h
    induction h with
    | nil => exact scan_nil.symm
    | @blanks run rest ts hrun _ ih =>
        obtain ⟨c, cs, rfl⟩ := List.exists_cons_of_ne_nil hrun.ne_nil
        obtain ⟨hc, hcs⟩ := List.forall_mem_cons.1 hrun.forall_mem
        rw [List.cons_append, scan_of_isBlank hc, takeWhile_append_of_head? hcs hrun.ends,
          dropWhile_append_of_head? hcs hrun.ends, ← ih]
        rfl
    | @literal run rest ts hrun _ ih =>
        obtain ⟨c, cs, rfl⟩ := List.exists_cons_of_ne_nil hrun.ne_nil
        obtain ⟨hc, hcs⟩ := List.forall_mem_cons.1 hrun.forall_mem
        rw [List.cons_append, scan_of_isDigit hc, takeWhile_append_of_head? hcs hrun.ends,
          dropWhile_append_of_head? hcs hrun.ends, ← ih]
    | reserved hw hrun _ ih => rw [scan_reserved hrun, if_neg hw, ← ih]
    | remark hrun => rw [scan_reserved hrun, if_pos rfl]
    | @ident c cs rest ts hc hrun hw _ ih =>
        have hident : ofWord (String.ofList (c :: cs)) = .ident (String.ofList (c :: cs)) := by
          rw [ofWord, ReservedWord.ofText?_eq_none_iff.2 hw]
        rw [scan_word hc hrun, hident, if_neg Token.noConfusion, ← ih]
    | @operator o rest ts _ ih =>
        obtain ⟨c, htext, hb, hc, ho⟩ := exists_ofSymbol_eq_operator o
        rw [htext, List.singleton_append, scan_of_symbol hb hc, ho, ← ih]
    | leftParen _ ih => rw [scan_of_symbol (c := '(') rfl rfl, ← ih]; rfl
    | rightParen _ ih => rw [scan_of_symbol (c := ')') rfl rfl, ← ih]; rfl
    | other hc _ ih =>
        rw [scan_of_symbol hc.not_blank hc.not_alphanum, hc.ofSymbol_eq, ← ih]
  · rintro rfl
    exact splits_scan cs

end

section Shown

variable {c : Char} {cs run body after : List Char} {t : Token} {ts : List Token}

/-- The tokens show a text: its body with a space for each blank, and then what comes after the
first word `REM`, as it is. -/
structure Shows (ts : List Token) (body after : List Char) : Prop where
  text_eq : (textOf ts).toList = body.map Text.shown ++ after
  remark : .word .REM ∉ ts ∧ after = [] ∨
    ∃ before, .word .REM ∉ before ∧ ts = before ++ .word .REM :: Token.remark after

theorem map_shown_of_isBlank (h : ∀ c ∈ run, Text.isBlank c = true) :
    run.map Text.shown = List.replicate run.length ' ' := by
  rw [← List.map_const']
  exact List.map_congr_left fun c hc => if_pos (h c hc)

theorem map_shown_eq_self (h : ∀ c ∈ run, Text.isBlank c = false) : run.map Text.shown = run := by
  have hself : ∀ c ∈ run, Text.shown c = id c := fun c hc =>
    if_neg (Bool.eq_false_iff.1 (h c hc))
  rw [List.map_congr_left hself, List.map_id]

theorem isBlank_eq_false_of_isWordChar (h : isWordChar c = true) : Text.isBlank c = false := by
  refine Bool.eq_false_iff.2 fun hb => ?_
  rw [isWordChar_of_isBlank c hb] at h
  cases h

theorem Text.LongestRun.map_shown_word {rest : List Char}
    (h : Text.LongestRun isWordChar run rest) : run.map Text.shown = run :=
  map_shown_eq_self fun c hc => isBlank_eq_false_of_isWordChar (h.forall_mem c hc)

theorem Shows.cons (h : Shows ts body after) (hrun : run.map Text.shown = t.text.toList)
    (ht : t ≠ .word .REM) : Shows (t :: ts) (run ++ body) after where
  text_eq := by
    rw [toList_textOf_cons, h.text_eq, List.map_append, hrun, List.append_assoc]
  remark := by
    obtain ⟨hts, hafter⟩ | ⟨before, hbefore, hts⟩ := h.remark
    · exact .inl ⟨List.not_mem_cons_of_ne_of_not_mem ht.symm hts, hafter⟩
    · exact .inr ⟨t :: before, List.not_mem_cons_of_ne_of_not_mem ht.symm hbefore, by rw [hts]; rfl⟩

theorem Splits.exists_shows (h : Splits cs ts) :
    ∃ body after, cs = body ++ after ∧ Shows ts body after := by
  have hcons {rest : List Char} {ts : List Token} {t : Token} (run : List Char)
      (ih : ∃ body after, rest = body ++ after ∧ Shows ts body after)
      (hrun : run.map Text.shown = t.text.toList) (ht : t ≠ .word .REM) :
      ∃ body after, run ++ rest = body ++ after ∧ Shows (t :: ts) body after := by
    obtain ⟨body, after, rfl, hshows⟩ := ih
    exact ⟨run ++ body, after, (List.append_assoc _ _ _).symm, hshows.cons hrun ht⟩
  induction h with
  | nil => exact ⟨[], [], rfl, rfl, .inl ⟨List.not_mem_nil, rfl⟩⟩
  | @blanks run rest ts hrun _ ih =>
      refine hcons run ih ?_ Token.noConfusion
      rw [map_shown_of_isBlank hrun.forall_mem, text, String.toList_ofList]
  | @literal run rest ts hrun _ ih =>
      refine hcons run ih ?_ Token.noConfusion
      rw [text, String.toList_ofList]
      exact map_shown_eq_self fun c hc => isBlank_eq_false_of_isDigit (hrun.forall_mem c hc)
  | reserved hw hrun _ ih =>
      exact hcons _ ih (Text.LongestRun.map_shown_word hrun) fun h => hw (Token.word.inj h)
  | @remark rest hrun =>
      refine ⟨_, rest, rfl, ?_, .inr ⟨[], List.not_mem_nil, rfl⟩⟩
      rw [toList_textOf_cons, toList_textOf_remark, Text.LongestRun.map_shown_word hrun, text]
  | @ident c cs rest ts hc hrun _ _ ih =>
      refine hcons (c :: cs) ih ?_ Token.noConfusion
      rw [text, String.toList_ofList, Text.LongestRun.map_shown_word hrun]
  | @operator o rest ts _ ih =>
      obtain ⟨c, htext, hb, _⟩ := exists_ofSymbol_eq_operator o
      refine hcons o.text.toList ih (map_shown_eq_self fun d hd => ?_) Token.noConfusion
      rw [htext] at hd
      exact List.mem_singleton.1 hd ▸ hb
  | leftParen _ ih => exact hcons ['('] ih rfl Token.noConfusion
  | rightParen _ ih => exact hcons [')'] ih rfl Token.noConfusion
  | @other c rest ts hc _ ih =>
      refine hcons [c] ih ?_ Token.noConfusion
      rw [text, String.toList_singleton]
      exact map_shown_eq_self fun d hd => List.mem_singleton.1 hd ▸ hc.not_blank

end Shown

end Token

end IntegerBasic
