import IntegerBasic.Proofs.Token.Rescanning
import IntegerBasic.Text.Lines

/-!
# Completed lines

Bytes are completed if their last line is ended by a line feed. Then more lines can be written
after them, and the lines are those of the two parts.

The main statement is that the lines of a file, typed in, are its lines without the carriage
returns that are left at their ends.
-/

namespace IntegerBasic

namespace Text

section

variable {bs cs l rest : List UInt8}

theorem decode?_eq_some_iff {s : String} :
    decode? bs = some s ↔ s.toByteArray.data.toList = bs := by
  unfold decode? String.fromUTF8?
  constructor
  · intro h
    split at h
    · obtain rfl := Option.some.inj h
      exact List.toList_toArray
    · cases h
  · rintro rfl
    have hbytes : ByteArray.mk s.toByteArray.data.toList.toArray = s.toByteArray := rfl
    rw [hbytes, dif_pos s.isValidUTF8]
    rfl

theorem decode?_append {s t : String} (hs : decode? bs = some s) (ht : decode? cs = some t) :
    decode? (bs ++ cs) = some (s ++ t) := by
  rw [decode?_eq_some_iff] at hs ht ⊢
  rw [String.toByteArray_append, ByteArray.data_append, Array.toList_append, hs, ht]

def IsCompleted (bs : List UInt8) : Prop :=
  ∀ b ∈ bs.getLast?, b = lineFeed

instance (bs : List UInt8) : Decidable (IsCompleted bs) :=
  inferInstanceAs (Decidable (∀ b ∈ bs.getLast?, b = lineFeed))

/-- The bytes with a line feed after a last line that is not ended. -/
def completed (bs : List UInt8) : List UInt8 :=
  if IsCompleted bs then bs else bs ++ [lineFeed]

theorem isCompleted_nil : IsCompleted [] :=
  nofun

theorem isCompleted_concat (l : List UInt8) : IsCompleted (l ++ [lineFeed]) := by
  simp [IsCompleted]

theorem isCompleted_append_cons_iff : IsCompleted (l ++ lineFeed :: rest) ↔ IsCompleted rest := by
  cases rest with
  | nil => exact iff_of_true (isCompleted_concat l) isCompleted_nil
  | cons b rest => simp [IsCompleted]

theorem completed_append_cons (l rest : List UInt8) :
    completed (l ++ lineFeed :: rest) = l ++ lineFeed :: completed rest := by
  simp only [completed, isCompleted_append_cons_iff]
  split
  · rfl
  · rw [List.append_assoc, List.cons_append]

theorem isCompleted_completed (bs : List UInt8) : IsCompleted (completed bs) := by
  unfold completed
  split
  · assumption
  · exact isCompleted_concat bs

theorem eq_append_cons_of_dropWhile {b : UInt8}
    (h : bs.dropWhile (fun b => b ≠ lineFeed) = b :: rest) :
    bs = bs.takeWhile (fun b => b ≠ lineFeed) ++ lineFeed :: rest := by
  have hb : b = lineFeed := by
    have hhead := List.head?_dropWhile_not (fun b => decide (b ≠ lineFeed)) bs
    rw [h] at hhead
    simpa using hhead
  have hbs := List.takeWhile_append_dropWhile (p := fun b => decide (b ≠ lineFeed)) (l := bs)
  rw [h, hb] at hbs
  exact hbs.symm

theorem ne_of_mem_takeWhile {b : UInt8} (h : b ∈ bs.takeWhile fun b => b ≠ lineFeed) :
    b ≠ lineFeed :=
  of_decide_eq_true (List.all_eq_true.1 List.all_takeWhile b h)

theorem ne_of_dropWhile_eq_nil (h : bs.dropWhile (fun b => b ≠ lineFeed) = []) :
    ∀ b ∈ bs, b ≠ lineFeed := by
  have hbs := List.takeWhile_append_dropWhile (p := fun b => decide (b ≠ lineFeed)) (l := bs)
  rw [h, List.append_nil] at hbs
  exact fun b hb => ne_of_mem_takeWhile (hbs ▸ hb)

/-- Bytes are lines that are ended, and perhaps a last line that is not. -/
theorem lines_induction {P : List UInt8 → Prop} (nil : P [])
    (last : ∀ l, l ≠ [] → (∀ b ∈ l, b ≠ lineFeed) → P l)
    (line : ∀ l rest, (∀ b ∈ l, b ≠ lineFeed) → P rest → P (l ++ lineFeed :: rest))
    (bs : List UInt8) : P bs := by
  fun_induction cut bs with
  | case1 => exact nil
  | case2 bs hdrop hne => exact last bs hne (ne_of_dropWhile_eq_nil hdrop)
  | case3 bs b rest hdrop ih =>
      rw [eq_append_cons_of_dropWhile hdrop]
      exact line _ rest (fun _ => ne_of_mem_takeWhile) ih

theorem cut_nil : cut [] = [] := by
  rw [cut]
  rfl

theorem cut_append_cons (hl : ∀ b ∈ l, b ≠ lineFeed) (rest : List UInt8) :
    cut (l ++ lineFeed :: rest) = (l ++ [lineFeed]) :: cut rest := by
  have hp : ∀ b ∈ l, decide (b ≠ lineFeed) = true := fun b hb => decide_eq_true (hl b hb)
  have htake : (l ++ lineFeed :: rest).takeWhile (fun b => b ≠ lineFeed) = l := by
    rw [List.takeWhile_append_of_pos hp]
    simp
  have hdrop : (l ++ lineFeed :: rest).dropWhile (fun b => b ≠ lineFeed) = lineFeed :: rest := by
    rw [List.dropWhile_append_of_pos hp]
    simp
  rw [cut, htake]
  split
  · next h => cases hdrop.symm.trans h
  · next h =>
      cases hdrop.symm.trans h
      rfl

theorem cut_of_forall_ne (hne : l ≠ []) (hl : ∀ b ∈ l, b ≠ lineFeed) : cut l = [l] := by
  have hdrop : l.dropWhile (fun b => b ≠ lineFeed) = [] := by
    have h : (l ++ []).dropWhile (fun b => b ≠ lineFeed) = [] :=
      List.dropWhile_append_of_pos fun b hb => decide_eq_true (hl b hb)
    rwa [List.append_nil] at h
  rw [cut]
  split
  · rw [if_neg hne]
  · next h => cases hdrop.symm.trans h

theorem not_isCompleted_of_forall_ne (hne : l ≠ []) (hl : ∀ b ∈ l, b ≠ lineFeed) :
    ¬ IsCompleted l := fun h =>
  hl _ (List.getLast_mem hne) (h _ (List.getLast?_eq_some_getLast hne))

theorem cut_append (h : IsCompleted bs) (cs : List UInt8) : cut (bs ++ cs) = cut bs ++ cut cs := by
  induction bs using lines_induction with
  | nil =>
      rw [cut_nil]
      rfl
  | last l hne hl => exact absurd h (not_isCompleted_of_forall_ne hne hl)
  | line l rest hl ih =>
      rw [List.append_assoc, List.cons_append, cut_append_cons hl, cut_append_cons hl,
        ih (isCompleted_append_cons_iff.1 h), List.cons_append]

/-- Completing bytes completes each of their lines. -/
theorem cut_completed (bs : List UInt8) : cut (completed bs) = (cut bs).map completed := by
  induction bs using lines_induction with
  | nil => rw [completed, if_pos isCompleted_nil, cut_nil, List.map_nil]
  | last l hne hl =>
      rw [cut_of_forall_ne hne hl, List.map_singleton, completed,
        if_neg (not_isCompleted_of_forall_ne hne hl), cut_append_cons hl, cut_nil]
  | line l rest hl ih =>
      rw [completed_append_cons, cut_append_cons hl, cut_append_cons hl, ih, List.map_cons,
        completed, if_pos (isCompleted_concat l)]

theorem exists_completed_eq (hne : l ≠ []) :
    ∃ e, completed l = stripEnd l ++ e ∧ (e = [lineFeed] ∨ e = [carriageReturn, lineFeed]) := by
  obtain ⟨x, b, rfl⟩ := (List.eq_nil_or_concat l).resolve_left hne
  rw [List.concat_eq_append]
  by_cases hb : b = lineFeed
  · subst hb
    rw [completed, if_pos (isCompleted_concat x)]
    rcases List.eq_nil_or_concat x with rfl | ⟨y, c, rfl⟩
    · exact ⟨[lineFeed], rfl, .inl rfl⟩
    · by_cases hc : c = carriageReturn
      · exact ⟨_, by simp [stripEnd, hc], .inr rfl⟩
      · exact ⟨_, by simp [stripEnd, hc], .inl rfl⟩
  · have hcompleted : ¬ IsCompleted (x ++ [b]) := fun h =>
      hb (h b (by rw [List.getLast?_concat]; rfl))
    have hstrip : stripEnd (x ++ [b]) = x ++ [b] := by
      rcases List.eq_nil_or_concat x with rfl | ⟨y, c, rfl⟩
      · simp [stripEnd, hb]
      · simp [stripEnd, hb]
    rw [completed, if_neg hcompleted, hstrip]
    exact ⟨_, rfl, .inl rfl⟩

end

section

def isLineEnd (c : Char) : Bool :=
  c = '\r' || c = '\n'

theorem isBlank_of_isLineEnd {c : Char} (h : isLineEnd c = true) : isBlank c = true := by
  obtain rfl | rfl : c = '\r' ∨ c = '\n' := by simpa [isLineEnd] using h
  · rfl
  · rfl

/-- Nothing but the ends of lines is removed. -/
theorem exists_stripLineEnds_append (s : String) :
    ∃ w, stripLineEnds s ++ w = s ∧ ∀ c ∈ w.toList, isLineEnd c = true := by
  refine ⟨String.ofList (s.toList.reverse.takeWhile isLineEnd).reverse, ?_, fun c hc => ?_⟩
  · apply String.toList_injective
    have hs := List.takeWhile_append_dropWhile (p := isLineEnd) (l := s.toList.reverse)
    rw [stripLineEnds, ← String.ofList_append, String.toList_ofList, ← List.reverse_append]
    exact List.reverse_eq_iff.2 hs
  · rw [String.toList_ofList, List.mem_reverse] at hc
    exact Token.forall_mem_takeWhile _ _ c hc

theorem stripLineEnds_append (s : String) {w : String} (hw : ∀ c ∈ w.toList, isLineEnd c = true) :
    stripLineEnds (s ++ w) = stripLineEnds s := by
  have hreverse : ∀ c ∈ w.toList.reverse, isLineEnd c = true := fun c hc =>
    hw c (List.mem_reverse.1 hc)
  have hdrop : (w.toList.reverse ++ s.toList.reverse).dropWhile isLineEnd =
      s.toList.reverse.dropWhile isLineEnd := List.dropWhile_append_of_pos hreverse
  rw [← List.reverse_append, ← String.toList_append] at hdrop
  exact congrArg (fun cs => String.ofList cs.reverse) hdrop

end

section

variable {bs : List UInt8}

theorem typedLines_completed (h : none ∉ fileLines bs) :
    typedLines (completed bs) = (fileLines bs).map (Option.map stripLineEnds) := by
  rw [typedLines, cut_completed, fileLines, List.map_map, List.map_map]
  refine List.map_congr_left fun l hl => ?_
  obtain ⟨e, he, hend⟩ := exists_completed_eq (ne_nil_of_mem_cut hl)
  obtain ⟨w, hw, hwend⟩ : ∃ w, decode? e = some w ∧ ∀ c ∈ w.toList, isLineEnd c = true := by
    rcases hend with rfl | rfl
    · exact ⟨"\n", rfl, List.all_eq_true.1 rfl⟩
    · exact ⟨"\r\n", rfl, List.all_eq_true.1 rfl⟩
  cases hs : decode? (stripEnd l) with
  | none => exact absurd (List.mem_map.2 ⟨l, hl, hs⟩) h
  | some s =>
      simp only [Function.comp_apply, he, decode?_append hs hw, hs, Option.map_some]
      rw [stripLineEnds_append s hwend]

theorem typedLines_append (h : IsCompleted bs) (cs : List UInt8) :
    typedLines (bs ++ cs) = typedLines bs ++ typedLines cs := by
  rw [typedLines, cut_append h, List.map_append, typedLines, typedLines]

end

end Text

end IntegerBasic
