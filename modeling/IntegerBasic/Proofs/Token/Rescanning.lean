import IntegerBasic.Proofs.Token.Spelling

/-!
# Scanning again

What the scanner gives is spelled, and stays spelled when it is trimmed. So a text that is
written from the tokens of a line is split into these tokens again.

The main statements are that trimming leaves spelled tokens, that blanks at the end of a text
do not change what is left after trimming, and that a remark is trimmed at its end.
-/

namespace IntegerBasic

namespace Token

theorem forall_head?_dropWhile (p : Char → Bool) (cs : List Char) :
    ∀ c ∈ (cs.dropWhile p).head?, p c = false := by
  intro c hc
  have h := List.head?_dropWhile_not p cs
  rw [Option.mem_def.1 hc] at h
  exact h

theorem toList_text_blanks (n : Nat) :
    (blanks (n + 1)).text.toList = ' ' :: List.replicate n ' ' := by
  rw [text, String.toList_ofList, List.replicate_succ]

theorem exists_head?_of_initial?_scan {cs : List Char} {c : Char} (h : c ∈ initial? (scan cs)) :
    ∃ d ∈ cs.head?, c = d ∨ (c = ' ' ∧ Text.isBlank d = true) := by
  cases cs with
  | nil => simp [initial?] at h
  | cons d cs =>
      refine ⟨d, rfl, ?_⟩
      by_cases hb : Text.isBlank d = true
      · rw [scan_of_isBlank hb, initial?_cons (toList_text_blanks _)] at h
        exact .inr ⟨(Option.mem_some_iff.1 h).symm, hb⟩
      · refine .inl ?_
        have hb : Text.isBlank d = false := Bool.eq_false_iff.2 hb
        by_cases hd : d.isDigit = true
        · rw [scan_of_isDigit hd, initial?_cons (by rw [text, String.toList_ofList])] at h
          exact (Option.mem_some_iff.1 h).symm
        · by_cases ha : d.isAlpha = true
          · rw [scan_of_isAlpha ha, initial?_cons (by rw [text_ofWord, String.toList_ofList])] at h
            exact (Option.mem_some_iff.1 h).symm
          · have hn : d.isAlphanum = false := by simp [Char.isAlphanum, ha, hd]
            rw [scan_of_symbol hb hn,
              initial?_cons (by rw [text_ofSymbol, String.toList_singleton])] at h
            exact (Option.mem_some_iff.1 h).symm

/-- After a longest run of characters the next token does not go on with the run. -/
theorem forall_initial?_scan_dropWhile {p : Char → Bool} (cs : List Char)
    (hp : ∀ d, Text.isBlank d = true → p d = false → p ' ' = false) :
    ∀ c ∈ initial? (scan (cs.dropWhile p)), p c = false := by
  intro c hc
  obtain ⟨d, hd, hcd⟩ := exists_head?_of_initial?_scan hc
  have hpd := forall_head?_dropWhile p cs d hd
  rcases hcd with rfl | ⟨rfl, hb⟩
  · exact hpd
  · exact hp d hb hpd

theorem forall_mem_takeWhile (p : Char → Bool) (cs : List Char) :
    ∀ c ∈ cs.takeWhile p, p c = true :=
  List.all_eq_true.1 List.all_takeWhile

/-- What the scanner gives is spelled. -/
theorem spelled_scan (cs : List Char) : Spelled (scan cs) := by
  fun_induction scan cs with
  | case1 => exact .nil
  | case2 c cs hb ih =>
      refine .blanks ih (forall_initial?_scan_dropWhile cs fun d hd hn => ?_)
      rw [hd] at hn
      cases hn
  | case3 c cs _ hd ih =>
      exact .literal hd (forall_mem_takeWhile _ cs) ih
        (forall_initial?_scan_dropWhile cs fun _ _ _ => by decide)
  | case4 c cs _ _ ha t ht =>
      rw [ht]
      exact .remark (forall_head?_dropWhile _ cs)
  | case5 c cs _ _ ha t ht ih =>
      exact .word ha (forall_mem_takeWhile _ cs) ht ih
        (forall_initial?_scan_dropWhile cs fun _ _ _ => by decide)
  | case6 c cs hb hd ha ih =>
      exact .symbol (Bool.eq_false_iff.2 hb) (by simp [Char.isAlphanum, ha, hd]) ih

theorem isBlanks_ofSymbol (c : Char) : (ofSymbol c).isBlanks = false := by
  unfold ofSymbol
  split <;> rfl

theorem isBlanks_ofWord (s : String) : (ofWord s).isBlanks = false := by
  unfold ofWord
  split <;> rfl

theorem ofWord_ne_unknown (s s' : String) : ofWord s ≠ .unknown s' := by
  unfold ofWord
  split <;> exact Token.noConfusion

section

variable {t : Token} {ts us : List Token}

theorem dropFinalBlanks_cons (h : t.isBlanks = false ∨ ts ≠ []) :
    dropFinalBlanks (t :: ts) = t :: dropFinalBlanks ts := by
  unfold dropFinalBlanks
  cases ts with
  | nil =>
      have ht : t.isBlanks = false := h.resolve_right (not_not_intro rfl)
      cases t <;> first | rfl | cases ht
  | cons u us =>
      rw [List.getLast?_cons_cons, List.dropLast_cons_cons]
      split <;> rfl

theorem trimFinalUnknown_cons (h : (∀ s, t ≠ .unknown s) ∨ ts ≠ []) :
    trimFinalUnknown (t :: ts) = t :: trimFinalUnknown ts := by
  unfold trimFinalUnknown
  cases ts with
  | nil =>
      have ht := h.resolve_right (not_not_intro rfl)
      cases t <;> first | rfl | exact absurd rfl (ht _)
  | cons u us =>
      rw [List.getLast?_cons_cons, List.dropLast_cons_cons]
      split <;> rfl

theorem mem_head?_of_isPrefix {cs ds : List Char} (h : cs <+: ds) {c : Char}
    (hc : c ∈ cs.head?) : c ∈ ds.head? := by
  obtain ⟨r, rfl⟩ := h
  rw [List.head?_append, Option.mem_def.1 hc]
  rfl

theorem initial?_of_isPrefix (h : (textOf us).toList <+: (textOf ts).toList) {P : Char → Prop}
    (hP : ∀ c ∈ initial? ts, P c) : ∀ c ∈ initial? us, P c :=
  fun c hc => hP c (mem_head?_of_isPrefix h hc)

theorem isPrefix_trimEnd (cs : List Char) : Text.trimEnd cs <+: cs :=
  ⟨_, Text.trimEnd_append_takeWhile cs⟩

theorem textOf_dropFinalBlanks_isPrefix (ts : List Token) :
    (textOf (dropFinalBlanks ts)).toList <+: (textOf ts).toList := by
  unfold dropFinalBlanks
  split
  · next n hn =>
      obtain ⟨us, rfl⟩ := List.getLast?_eq_some_iff.1 hn
      rw [List.dropLast_concat, textOf_append, String.toList_append]
      exact List.prefix_append _ _
  · exact List.prefix_refl _

theorem textOf_trimFinalUnknown_isPrefix (ts : List Token) :
    (textOf (trimFinalUnknown ts)).toList <+: (textOf ts).toList := by
  unfold trimFinalUnknown
  split
  · next s hs =>
      obtain ⟨us, rfl⟩ := List.getLast?_eq_some_iff.1 hs
      rw [List.dropLast_concat, textOf_append, textOf_append, String.toList_append,
        String.toList_append, toList_textOf_remark, List.prefix_append_right_inj,
        toList_textOf_cons, text]
      exact (isPrefix_trimEnd _).trans (List.prefix_append _ _)
  · exact List.prefix_refl _

theorem dropFinalBlanks_remark (cs : List Char) :
    dropFinalBlanks (.word .REM :: remark cs) = .word .REM :: remark cs := by
  cases cs <;> rfl

theorem trimFinalUnknown_remark (cs : List Char) :
    trimFinalUnknown (.word .REM :: remark cs) = .word .REM :: remark (Text.trimEnd cs) := by
  cases cs with
  | nil => rfl
  | cons c cs =>
      have htokens : remark (c :: cs) = [.unknown (String.ofList (c :: cs))] := rfl
      rw [htokens, trimFinalUnknown, List.getLast?_cons_cons]
      simp

theorem trimFinalUnknown_ofSymbol (c : Char) :
    trimFinalUnknown [ofSymbol c] = [] ∨ trimFinalUnknown [ofSymbol c] = [ofSymbol c] := by
  by_cases hu : ∃ s, ofSymbol c = .unknown s
  · obtain ⟨s, hs⟩ := hu
    have hs' : s = String.singleton c := by
      have htext := text_ofSymbol c
      rwa [hs] at htext
    have htrim : trimFinalUnknown [ofSymbol c] = remark (Text.trimEnd [c]) := by
      rw [hs, hs', trimFinalUnknown, List.getLast?_singleton]
      simp
    rw [htrim, hs, hs']
    cases hc : Text.isSpace c with
    | true => exact .inl (by simp [Text.trimEnd, hc, remark])
    | false =>
        have hchar : String.ofList [c] = String.singleton c := String.toList_injective (by simp)
        exact .inr (by rw [trimEnd_eq_self (by simpa using hc), remark, hchar]; rfl)
  · exact .inr (trimFinalUnknown_cons (.inl fun s hs => hu ⟨s, hs⟩))

theorem Spelled.dropFinalBlanks (h : Spelled ts) : Spelled (dropFinalBlanks ts) := by
  induction h with
  | nil => exact .nil
  | @blanks n ts h hn ih =>
      cases ts with
      | nil => exact .nil
      | cons u us =>
          have hne : u :: us ≠ [] := List.cons_ne_nil u us
          rw [dropFinalBlanks_cons (.inr hne)]
          exact .blanks ih (initial?_of_isPrefix (textOf_dropFinalBlanks_isPrefix _) hn)
  | literal hc hcs h hn ih =>
      rw [dropFinalBlanks_cons (.inl rfl)]
      exact .literal hc hcs ih (initial?_of_isPrefix (textOf_dropFinalBlanks_isPrefix _) hn)
  | word hc hcs hr h hn ih =>
      rw [dropFinalBlanks_cons (.inl (isBlanks_ofWord _))]
      exact .word hc hcs hr ih (initial?_of_isPrefix (textOf_dropFinalBlanks_isPrefix _) hn)
  | remark hn =>
      rw [dropFinalBlanks_remark]
      exact .remark hn
  | symbol hb hc h ih =>
      rw [dropFinalBlanks_cons (.inl (isBlanks_ofSymbol _))]
      exact .symbol hb hc ih

theorem Spelled.trimFinalUnknown (h : Spelled ts) : Spelled (trimFinalUnknown ts) := by
  induction h with
  | nil => exact .nil
  | blanks h hn ih =>
      rw [trimFinalUnknown_cons (.inl fun _ => Token.noConfusion)]
      exact .blanks ih (initial?_of_isPrefix (textOf_trimFinalUnknown_isPrefix _) hn)
  | literal hc hcs h hn ih =>
      rw [trimFinalUnknown_cons (.inl fun _ => Token.noConfusion)]
      exact .literal hc hcs ih (initial?_of_isPrefix (textOf_trimFinalUnknown_isPrefix _) hn)
  | word hc hcs hr h hn ih =>
      rw [trimFinalUnknown_cons (.inl fun s => ofWord_ne_unknown _ s)]
      exact .word hc hcs hr ih (initial?_of_isPrefix (textOf_trimFinalUnknown_isPrefix _) hn)
  | remark hn =>
      rw [trimFinalUnknown_remark]
      exact .remark fun b hb => hn b (mem_head?_of_isPrefix (isPrefix_trimEnd _) hb)
  | @symbol c ts hb hc h ih =>
      cases ts with
      | nil =>
          rcases trimFinalUnknown_ofSymbol c with heq | heq
          · rw [heq]
            exact .nil
          · rw [heq]
            exact .symbol hb hc .nil
      | cons u us =>
          have hne : u :: us ≠ [] := List.cons_ne_nil u us
          rw [trimFinalUnknown_cons (.inr hne)]
          exact .symbol hb hc ih

theorem Spelled.of_blanks {n : Nat} (h : Spelled (.blanks n :: ts)) :
    0 < n ∧ Spelled ts ∧ ∀ c ∈ initial? ts, Text.isBlank c = false := by
  generalize hus : Token.blanks n :: ts = us at h
  cases h with
  | nil | literal | remark => cases hus
  | @blanks k _ h hn =>
      cases hus
      exact ⟨Nat.succ_pos k, h, hn⟩
  | word =>
      have hb : (Token.blanks n).isBlanks = false := (List.cons.inj hus).1 ▸ isBlanks_ofWord _
      cases hb
  | symbol =>
      have hb : (Token.blanks n).isBlanks = false := (List.cons.inj hus).1 ▸ isBlanks_ofSymbol _
      cases hb

theorem Spelled.dropInitialBlanks (h : Spelled ts) : Spelled (dropInitialBlanks ts) := by
  unfold Token.dropInitialBlanks
  split
  · exact h.of_blanks.2.1
  · exact h

theorem Spelled.dropInitialBlanks_ne_blanks (h : Spelled ts) (n : Nat) (us : List Token) :
    Token.dropInitialBlanks ts ≠ .blanks n :: us := by
  unfold Token.dropInitialBlanks
  split
  · rintro rfl
    obtain ⟨_, hrest, hn⟩ := h.of_blanks
    obtain ⟨k, rfl⟩ := Nat.exists_eq_succ_of_ne_zero (Nat.ne_of_gt hrest.of_blanks.1)
    cases hn ' ' (initial?_cons (toList_text_blanks k) us)
  · next hne => exact fun heq => hne n us heq

/-- Trimming leaves spelled tokens. -/
theorem Spelled.trim (h : Spelled ts) : Spelled (trim ts) :=
  h.dropFinalBlanks.trimFinalUnknown.dropInitialBlanks

theorem Spelled.trim_ne_blanks (h : Spelled ts) (n : Nat) (us : List Token) :
    Token.trim ts ≠ .blanks n :: us :=
  h.dropFinalBlanks.trimFinalUnknown.dropInitialBlanks_ne_blanks n us

end

section Blanks

/-- The same tokens, up to a remark at their end that goes on with `w`. -/
inductive Extends (w : List Char) : List Token → List Token → Prop
  | refl (ts : List Token) : Extends w ts ts
  | remark (cs : List Char) :
      Extends w (.word .REM :: Token.remark cs) (.word .REM :: Token.remark (cs ++ w))
  | cons (t : Token) {ts us : List Token} (h : Extends w ts us) : Extends w (t :: ts) (t :: us)

variable {w : List Char}

theorem trimEnd_append (hw : ∀ c ∈ w, Text.isSpace c = true) (cs : List Char) :
    Text.trimEnd (cs ++ w) = Text.trimEnd cs := by
  have hreverse : ∀ c ∈ w.reverse, Text.isSpace c = true := fun c hc => hw c (List.mem_reverse.1 hc)
  rw [Text.trimEnd, List.reverse_append, List.dropWhile_append_of_pos hreverse, Text.trimEnd]

theorem Extends.eq_nil_iff {ts us : List Token} (h : Extends w ts us) : ts = [] ↔ us = [] := by
  cases h with
  | refl => exact Iff.rfl
  | remark | cons => simp

theorem Extends.trimFinalUnknown_eq {ts us : List Token} (h : Extends w ts us)
    (hw : ∀ c ∈ w, Text.isSpace c = true) : trimFinalUnknown us = trimFinalUnknown ts := by
  induction h with
  | refl => rfl
  | remark cs => rw [trimFinalUnknown_remark, trimFinalUnknown_remark, trimEnd_append hw]
  | @cons t ts us h ih =>
      by_cases hts : ts = []
      · rw [hts, h.eq_nil_iff.1 hts]
      · have hus : us ≠ [] := mt h.eq_nil_iff.2 hts
        rw [trimFinalUnknown_cons (.inr hts), trimFinalUnknown_cons (.inr hus), ih]

theorem forall_head?_append {P : Char → Prop} {cs ds : List Char} (hcs : ∀ c ∈ cs.head?, P c)
    (hds : ∀ c ∈ ds, P c) : ∀ c ∈ (cs ++ ds).head?, P c := by
  cases cs with
  | nil => exact fun c hc => hds c (List.mem_of_mem_head? hc)
  | cons c cs => exact hcs

/-- A longest run ends before what follows it, which may be cut off. -/
theorem span_append {p : Char → Bool} {cs : List Char}
    (h : ∀ c ∈ (cs.dropWhile p ++ w).head?, p c = false) :
    (cs ++ w).takeWhile p = cs.takeWhile p ∧ (cs ++ w).dropWhile p = cs.dropWhile p ++ w := by
  have hcs : cs ++ w = cs.takeWhile p ++ (cs.dropWhile p ++ w) := by
    rw [← List.append_assoc, List.takeWhile_append_dropWhile]
  rw [hcs]
  exact ⟨takeWhile_append_of_head? (forall_mem_takeWhile p cs) h,
    dropWhile_append_of_head? (forall_mem_takeWhile p cs) h⟩

theorem dropFinalBlanks_scan_of_isBlank (hw : ∀ c ∈ w, Text.isBlank c = true) :
    dropFinalBlanks (scan w) = [] := by
  cases w with
  | nil => rw [scan_nil]; rfl
  | cons c w =>
      have htail : ∀ d ∈ w, Text.isBlank d = true := fun d hd => hw d (List.mem_cons_of_mem _ hd)
      have hdrop : w.dropWhile Text.isBlank = [] := by
        have h : (w ++ []).dropWhile Text.isBlank = [] := List.dropWhile_append_of_pos htail
        rwa [List.append_nil] at h
      rw [scan_of_isBlank (hw c List.mem_cons_self), hdrop, scan_nil]
      rfl

theorem isDigit_of_isBlank (c : Char) (h : Text.isBlank c = true) : c.isDigit = false := by
  rcases (Text.isBlank_iff c).1 h with rfl | rfl | rfl | rfl <;> rfl

theorem isWordChar_of_isBlank (c : Char) (h : Text.isBlank c = true) : isWordChar c = false := by
  rcases (Text.isBlank_iff c).1 h with rfl | rfl | rfl | rfl <;> rfl

theorem scan_ne_nil {cs : List Char} (h : cs ≠ []) : scan cs ≠ [] := by
  obtain ⟨c, cs, rfl⟩ := List.exists_cons_of_ne_nil h
  rw [scan]
  split
  · exact List.cons_ne_nil _ _
  · split
    · exact List.cons_ne_nil _ _
    · split
      · dsimp only
        split <;> exact List.cons_ne_nil _ _
      · exact List.cons_ne_nil _ _

/-- Blanks at the end of a text change nothing but the remark. -/
theorem extends_dropFinalBlanks_scan (hw : ∀ c ∈ w, Text.isBlank c = true) (cs : List Char) :
    Extends w (dropFinalBlanks (scan cs)) (dropFinalBlanks (scan (cs ++ w))) := by
  have hspan (p : Char → Bool) (hp : ∀ c, Text.isBlank c = true → p c = false) (cs : List Char) :=
    span_append (w := w) (forall_head?_append (forall_head?_dropWhile p cs) fun c hc =>
      hp c (hw c hc))
  fun_induction scan cs with
  | case1 =>
      rw [List.nil_append, dropFinalBlanks_scan_of_isBlank hw]
      exact .refl []
  | case2 c cs hb ih =>
      by_cases hcs : cs.dropWhile Text.isBlank = []
      · have hall : ∀ d ∈ c :: cs ++ w, Text.isBlank d = true := by
          refine List.forall_mem_append.2 ⟨List.forall_mem_cons.2 ⟨hb, ?_⟩, hw⟩
          have htake := List.takeWhile_append_dropWhile (p := Text.isBlank) (l := cs)
          rw [hcs, List.append_nil] at htake
          rw [← htake]
          exact forall_mem_takeWhile _ cs
        rw [dropFinalBlanks_scan_of_isBlank hall, hcs, scan_nil]
        exact .refl []
      · have hhead : ∀ d ∈ (cs.dropWhile Text.isBlank ++ w).head?, Text.isBlank d = false := by
          rw [List.head?_append, List.head?_eq_some_head hcs, Option.some_or,
            ← List.head?_eq_some_head hcs]
          exact forall_head?_dropWhile _ cs
        obtain ⟨htake, hdrop⟩ := span_append hhead
        have hne : cs.dropWhile Text.isBlank ++ w ≠ [] := by simp [hcs]
        rw [List.cons_append, scan_of_isBlank hb, htake, hdrop,
          dropFinalBlanks_cons (.inr (scan_ne_nil hcs)),
          dropFinalBlanks_cons (.inr (scan_ne_nil hne))]
        exact ih.cons _
  | case3 c cs _ hd ih =>
      obtain ⟨htake, hdrop⟩ := hspan Char.isDigit isDigit_of_isBlank cs
      rw [List.cons_append, scan_of_isDigit hd, htake, hdrop, dropFinalBlanks_cons (.inl rfl),
        dropFinalBlanks_cons (.inl rfl)]
      exact ih.cons _
  | case4 c cs _ _ ha t ht =>
      have ht' : ofWord (String.ofList (c :: cs.takeWhile isWordChar)) = .word .REM := ht
      obtain ⟨htake, hdrop⟩ := hspan isWordChar isWordChar_of_isBlank cs
      rw [List.cons_append, scan_of_isAlpha ha, htake, hdrop, ht, ht', if_pos rfl,
        dropFinalBlanks_remark, dropFinalBlanks_remark]
      exact .remark _
  | case5 c cs _ _ ha t ht ih =>
      obtain ⟨htake, hdrop⟩ := hspan isWordChar isWordChar_of_isBlank cs
      rw [List.cons_append, scan_of_isAlpha ha, htake, hdrop, if_neg ht,
        dropFinalBlanks_cons (.inl (isBlanks_ofWord _)),
        dropFinalBlanks_cons (.inl (isBlanks_ofWord _))]
      exact ih.cons _
  | case6 c cs hb hd ha ih =>
      have hn : c.isAlphanum = false := by simp [Char.isAlphanum, ha, hd]
      rw [List.cons_append, scan_of_symbol (Bool.eq_false_iff.2 hb) hn,
        dropFinalBlanks_cons (.inl (isBlanks_ofSymbol c)),
        dropFinalBlanks_cons (.inl (isBlanks_ofSymbol c))]
      exact ih.cons _

theorem trim_scan_append (hw : ∀ c ∈ w, Text.isBlank c = true) (cs : List Char) :
    trim (scan (cs ++ w)) = trim (scan cs) := by
  have hextends := extends_dropFinalBlanks_scan hw cs
  rw [trim, hextends.trimFinalUnknown_eq fun c hc => Text.isSpace_of_isBlank (hw c hc), trim]

end Blanks

end Token

end IntegerBasic
