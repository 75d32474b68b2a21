import IntegerBasic.Proofs.Token.Rescanning

/-!
# Trimming tokens

`Trims ts us` says that the tokens `us` are what is left of `ts` when white space is removed from
its two ends: whole tokens, and the end of an unknown token.

The main statements are that trimming removes white space at the two ends and nothing else, and
when blanks are left at the end all the same.
-/

namespace IntegerBasic

namespace Token

section

variable {t : Token} {ts us : List Token}

def IsSpace (t : Token) : Prop :=
  ∀ c ∈ t.text.toList, Text.isSpace c = true

inductive TrimsEnd : List Token → List Token → Prop
  | refl (ts : List Token) : TrimsEnd ts ts
  | token {ts us : List Token} {t : Token} (ht : t.IsSpace) (h : TrimsEnd ts us) :
      TrimsEnd (ts ++ [t]) us
  | unknown (ts : List Token) {cs space : List Char} (hcs : cs ≠ [])
      (hspace : ∀ c ∈ space, Text.isSpace c = true) :
      TrimsEnd (ts ++ [.unknown (String.ofList (cs ++ space))])
        (ts ++ [.unknown (String.ofList cs)])

def Trims (ts us : List Token) : Prop :=
  ∃ front kept, ts = front ++ kept ∧ (∀ t ∈ front, t.IsSpace) ∧ TrimsEnd kept us

theorem isSpace_blanks (n : Nat) : (blanks n).IsSpace := by
  intro c hc
  rw [text, String.toList_ofList] at hc
  rw [(List.mem_replicate.1 hc).2]
  rfl

theorem trimsEnd_trimFinalUnknown (ts : List Token) : TrimsEnd ts (trimFinalUnknown ts) := by
  unfold trimFinalUnknown
  split
  · next s hs =>
      obtain ⟨us, rfl⟩ := List.getLast?_eq_some_iff.1 hs
      have hsplit := Text.trimEnd_append_takeWhile s.toList
      have hspace : ∀ c ∈ (s.toList.reverse.takeWhile Text.isSpace).reverse,
          Text.isSpace c = true := fun c hc =>
        forall_mem_takeWhile _ _ c (List.mem_reverse.1 hc)
      rw [List.dropLast_concat]
      by_cases hnil : Text.trimEnd s.toList = []
      · rw [hnil, List.nil_append] at hsplit
        have hunknown : (unknown s).IsSpace := by rwa [hsplit] at hspace
        have hremark : remark [] = [] := rfl
        rw [hnil, hremark, List.append_nil]
        exact .token hunknown (.refl us)
      · have hremark : remark (Text.trimEnd s.toList) =
            [.unknown (String.ofList (Text.trimEnd s.toList))] := by simp [remark, hnil]
        have hs' : s = String.ofList (Text.trimEnd s.toList ++
            (s.toList.reverse.takeWhile Text.isSpace).reverse) := by
          rw [hsplit, String.ofList_toList]
        rw [hremark]
        conv => lhs; rw [hs']
        exact .unknown us hnil hspace
  · exact .refl ts

theorem eq_dropFinalBlanks_or (ts : List Token) :
    (ts = dropFinalBlanks ts ∧ ∀ n, ts.getLast? ≠ some (.blanks n)) ∨
      ∃ n, ts = dropFinalBlanks ts ++ [.blanks n] := by
  unfold dropFinalBlanks
  split
  · next n hn =>
      obtain ⟨us, rfl⟩ := List.getLast?_eq_some_iff.1 hn
      exact .inr ⟨n, by rw [List.dropLast_concat]⟩
  · next hne => exact .inl ⟨rfl, hne⟩

theorem TrimsEnd.of_dropFinalBlanks (h : TrimsEnd (dropFinalBlanks ts) us) : TrimsEnd ts us := by
  obtain ⟨hts, -⟩ | ⟨n, hts⟩ := eq_dropFinalBlanks_or ts
  · rwa [← hts] at h
  · rw [hts]
    exact .token (isSpace_blanks n) h

/-- What is removed from the end leaves a regular token at the start as it is. -/
theorem TrimsEnd.exists_of_cons (h : TrimsEnd ts (t :: us)) (ht : ∀ s, t ≠ .unknown s) :
    ∃ kept, ts = t :: kept ∧ TrimsEnd kept us := by
  generalize hus : t :: us = vs at h
  induction h with
  | refl => exact ⟨us, hus.symm, .refl us⟩
  | token hspace _ ih =>
      obtain ⟨kept, rfl, hkept⟩ := ih hus
      exact ⟨kept ++ [_], rfl, .token hspace hkept⟩
  | unknown ts hcs hspace =>
      cases ts with
      | nil => exact absurd (List.cons.inj hus).1 (ht _)
      | cons t' ts =>
          cases hus
          exact ⟨_, rfl, .unknown ts hcs hspace⟩

/-- Trimming removes white space from both ends, and nothing else. -/
theorem trims_trim (ts : List Token) : Trims ts (trim ts) := by
  have hend : TrimsEnd ts (trimFinalUnknown (dropFinalBlanks ts)) :=
    (trimsEnd_trimFinalUnknown _).of_dropFinalBlanks
  unfold trim dropInitialBlanks
  split
  · next n us hus =>
      rw [hus] at hend
      obtain ⟨kept, rfl, hkept⟩ := hend.exists_of_cons fun _ => Token.noConfusion
      refine ⟨[.blanks n], kept, rfl, fun t ht => ?_, hkept⟩
      exact List.mem_singleton.1 ht ▸ isSpace_blanks n
  · exact ⟨[], ts, rfl, fun t ht => absurd ht List.not_mem_nil, hend⟩

theorem isSpace_textOf (h : ∀ t ∈ ts, t.IsSpace) :
    ∀ c ∈ (textOf ts).toList, Text.isSpace c = true := by
  induction ts with
  | nil => exact fun c hc => absurd hc List.not_mem_nil
  | cons t ts ih =>
      obtain ⟨ht, hts⟩ := List.forall_mem_cons.1 h
      rw [toList_textOf_cons]
      exact List.forall_mem_append.2 ⟨ht, ih hts⟩

theorem TrimsEnd.exists_text (h : TrimsEnd ts us) :
    ∃ back, (∀ c ∈ back, Text.isSpace c = true) ∧
      (textOf ts).toList = (textOf us).toList ++ back := by
  induction h with
  | refl => exact ⟨[], fun c hc => absurd hc List.not_mem_nil, (List.append_nil _).symm⟩
  | @token ts us t ht _ ih =>
      obtain ⟨back, hback, htext⟩ := ih
      refine ⟨back ++ t.text.toList, List.forall_mem_append.2 ⟨hback, ht⟩, ?_⟩
      rw [textOf_append, String.toList_append, htext, toList_textOf_cons]
      simp
  | @unknown ts cs space _ hspace =>
      refine ⟨space, hspace, ?_⟩
      rw [textOf_append, textOf_append, String.toList_append, String.toList_append,
        toList_textOf_cons, toList_textOf_cons]
      simp [text]

theorem Trims.exists_text (h : Trims ts us) :
    ∃ front back, (∀ c ∈ front ++ back, Text.isSpace c = true) ∧
      (textOf ts).toList = front ++ (textOf us).toList ++ back := by
  obtain ⟨front, kept, rfl, hfront, hkept⟩ := h
  obtain ⟨back, hback, htext⟩ := hkept.exists_text
  refine ⟨(textOf front).toList, back, List.forall_mem_append.2 ⟨isSpace_textOf hfront, hback⟩, ?_⟩
  rw [textOf_append, String.toList_append, htext, List.append_assoc]

end

section

variable {n : Nat} {s : String} {t : Token} {ts before : List Token}

theorem Spelled.of_cons (h : Spelled (t :: ts)) :
    Spelled ts ∨ ∃ cs, ts = Token.remark cs := by
  generalize hus : t :: ts = us at h
  cases h with
  | nil => cases hus
  | blanks h _ => exact .inl ((List.cons.inj hus).2 ▸ h)
  | literal _ _ h _ => exact .inl ((List.cons.inj hus).2 ▸ h)
  | word _ _ _ h _ => exact .inl ((List.cons.inj hus).2 ▸ h)
  | @remark cs _ => exact .inr ⟨cs, (List.cons.inj hus).2⟩
  | symbol _ _ h => exact .inl ((List.cons.inj hus).2 ▸ h)

theorem blanks_not_mem_remark (n : Nat) (cs : List Char) : blanks n ∉ Token.remark cs := by
  cases cs <;> simp [remark]

theorem Spelled.of_append_blanks (h : Spelled (before ++ .blanks n :: ts)) :
    Spelled (.blanks n :: ts) := by
  induction before with
  | nil => exact h
  | cons t before ih =>
      rw [List.cons_append] at h
      obtain hrest | ⟨cs, hcs⟩ := h.of_cons
      · exact ih hrest
      · have hmem : Token.blanks n ∈ before ++ .blanks n :: ts := by simp
        rw [hcs] at hmem
        exact absurd hmem (blanks_not_mem_remark n cs)

theorem Spelled.of_unknown (h : Spelled (.unknown s :: ts)) :
    ∃ c, s = String.singleton c ∧ Text.isBlank c = false := by
  generalize hus : Token.unknown s :: ts = us at h
  cases h with
  | nil | blanks | literal | remark => cases hus
  | word => exact absurd (List.cons.inj hus).1.symm (ofWord_ne_unknown _ s)
  | @symbol c _ hb _ _ =>
      have htext := text_ofSymbol c
      rw [← (List.cons.inj hus).1] at htext
      exact ⟨c, htext, hb⟩

theorem getLast?_of_dropInitialBlanks (h : (dropInitialBlanks ts).getLast? = some t) :
    ts.getLast? = some t := by
  unfold dropInitialBlanks at h
  split at h
  · obtain ⟨us, rfl⟩ := List.getLast?_eq_some_iff.1 h
    rw [← List.cons_append, List.getLast?_concat]
  · exact h

theorem getLast?_dropInitialBlanks_concat (h : before ≠ []) :
    (dropInitialBlanks (before ++ [t])).getLast? = some t := by
  obtain ⟨u, us, rfl⟩ := List.exists_cons_of_ne_nil h
  rw [List.cons_append]
  unfold dropInitialBlanks
  split
  · next heq => rw [← (List.cons.inj heq).2, List.getLast?_concat]
  · rw [← List.cons_append, List.getLast?_concat]

theorem Spelled.getLast?_dropFinalBlanks_ne (h : Spelled ts) (n : Nat) :
    (Token.dropFinalBlanks ts).getLast? ≠ some (.blanks n) := by
  intro hlast
  obtain ⟨hts, hne⟩ | ⟨k, hts⟩ := eq_dropFinalBlanks_or ts
  · rw [← hts] at hlast
    exact hne n hlast
  · obtain ⟨us, hus⟩ := List.getLast?_eq_some_iff.1 hlast
    rw [hus, List.append_assoc, List.singleton_append] at hts
    rw [hts] at h
    exact h.of_append_blanks.dropInitialBlanks_ne_blanks k [] rfl

theorem of_getLast?_append_remark {cs : List Char}
    (h : (ts ++ remark cs).getLast? = some (.blanks n)) :
    cs = [] ∧ ts.getLast? = some (.blanks n) := by
  cases cs with
  | nil => exact ⟨rfl, List.append_nil ts ▸ h⟩
  | cons c cs =>
      have hremark : remark (c :: cs) = [.unknown (String.ofList (c :: cs))] := rfl
      rw [hremark, List.getLast?_concat] at h
      cases h

/-- Blanks come to the end when all of an unknown token after them is removed. -/
theorem eq_append_of_getLast?_trimFinalUnknown
    (h : (trimFinalUnknown ts).getLast? = some (.blanks n)) (hts : ts.getLast? ≠ some (.blanks n)) :
    ∃ before s, ts = before ++ [.blanks n, .unknown s] ∧ Text.trimEnd s.toList = [] ∧
      trimFinalUnknown ts = before ++ [.blanks n] := by
  unfold trimFinalUnknown at h ⊢
  split at h
  · next s hs =>
      obtain ⟨us, rfl⟩ := List.getLast?_eq_some_iff.1 hs
      rw [List.dropLast_concat] at h ⊢
      obtain ⟨htrim, hlast⟩ := of_getLast?_append_remark h
      obtain ⟨before, rfl⟩ := List.getLast?_eq_some_iff.1 hlast
      exact ⟨before, s, by simp, htrim, by simp [htrim, remark]⟩
  · exact absurd h hts

theorem trimEnd_singleton_eq_nil_iff {c : Char} :
    Text.trimEnd [c] = [] ↔ Text.isSpace c = true := by
  cases hc : Text.isSpace c <;> simp [Text.trimEnd, hc]

/-- Blanks are left at the end exactly before one character of white space that is no blank,
which may be followed by more blanks. -/
theorem Spelled.getLast?_trim_eq_some_iff (h : Spelled ts) :
    (Token.trim ts).getLast? = some (.blanks n) ↔
      ∃ before c after, before ≠ [] ∧
        ts = before ++ .blanks n :: .unknown (String.singleton c) :: after ∧
        Text.isSpace c = true ∧ Text.isBlank c = false ∧
        (after = [] ∨ ∃ k, after = [.blanks k]) := by
  constructor
  · intro hlast
    obtain ⟨before, s, hfinal, hs, htrim⟩ := eq_append_of_getLast?_trimFinalUnknown
      (getLast?_of_dropInitialBlanks hlast) (h.getLast?_dropFinalBlanks_ne n)
    have hbefore : before ≠ [] := by
      rintro rfl
      rw [Token.trim, htrim] at hlast
      cases hlast
    obtain ⟨after, hts, hafter⟩ : ∃ after, ts = Token.dropFinalBlanks ts ++ after ∧
        (after = [] ∨ ∃ k, after = [.blanks k]) := by
      obtain ⟨hts, -⟩ | ⟨k, hts⟩ := eq_dropFinalBlanks_or ts
      · exact ⟨[], hts.trans (List.append_nil _).symm, .inl rfl⟩
      · exact ⟨_, hts, .inr ⟨k, rfl⟩⟩
    rw [hfinal, List.append_assoc] at hts
    obtain ⟨c, rfl, hblank⟩ := (hts ▸ h).of_append_blanks.of_blanks.2.1.of_unknown
    rw [String.toList_singleton] at hs
    exact ⟨before, c, after, hbefore, hts, trimEnd_singleton_eq_nil_iff.1 hs, hblank, hafter⟩
  · rintro ⟨before, c, after, hbefore, rfl, hspace, -, hafter⟩
    have hdrop : Token.dropFinalBlanks
        (before ++ .blanks n :: .unknown (String.singleton c) :: after) =
          before ++ [.blanks n] ++ [.unknown (String.singleton c)] := by
      obtain rfl | ⟨k, rfl⟩ := hafter <;> simp [Token.dropFinalBlanks]
    have htrim : Token.trimFinalUnknown (before ++ [.blanks n] ++ [.unknown (String.singleton c)]) =
        before ++ [.blanks n] := by
      simp [Token.trimFinalUnknown, trimEnd_singleton_eq_nil_iff.2 hspace, Token.remark]
    rw [Token.trim, hdrop, htrim]
    exact getLast?_dropInitialBlanks_concat hbefore

end

end Token

end IntegerBasic
