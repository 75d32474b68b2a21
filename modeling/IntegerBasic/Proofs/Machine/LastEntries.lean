import IntegerBasic.Proofs.Machine.Entering
import IntegerBasic.Proofs.Machine.Listing
import Mathlib.Data.List.Induction
import Mathlib.Data.List.Sort

/-!
# The last text of a number

A text that is a line of a program, or blank, edits the program of a machine that is stopped, or is
refused. `Line.edits n s` tells whether the text `s` decides what becomes of the line `n`, which is
then `StoredLine.ofText? n s`; the texts before it that edit the same line do not matter any more.

The main statement is that a program that is typed depends on nothing but the last text that edits
each of its lines.
-/

namespace IntegerBasic

theorem getLast?_filter_concat {α : Type} (p : α → Bool) (l : List α) (x : α) :
    ((l ++ [x]).filter p).getLast? = if p x then some x else (l.filter p).getLast? := by
  rw [List.filter_append]
  cases hx : p x with
  | true => rw [List.filter_cons_of_pos hx, if_pos rfl, List.filter_nil, List.getLast?_concat]
  | false =>
      rw [List.filter_cons_of_neg (Bool.eq_false_iff.1 hx), List.filter_nil, List.append_nil]
      rfl

namespace Line

variable {n k : LineNumber} {s : String} {st : Statement}

def IsForProgram (s : String) : Prop :=
  (ofText s).number ≠ none ∨ (ofText s).tokens = []

instance (s : String) : Decidable (IsForProgram s) :=
  inferInstanceAs (Decidable (_ ∨ _))

/-- Whether a text decides what becomes of the line `n`: it fits the line buffer, has this number,
and holds nothing else or says a statement. -/
def edits (n : LineNumber) (s : String) : Bool :=
  fits s && (ofText s).number = some n &&
    ((ofText s).isEmpty || (ofText s).statement.toOption.isSome)

theorem edits_iff : edits n s = true ↔ fits s = true ∧ (ofText s).number = some n ∧
    ((ofText s).tokens = [] ∨ ∃ st, (ofText s).statement = .ok st) := by
  rw [edits, Bool.and_eq_true, Bool.and_eq_true, Bool.or_eq_true, isEmpty_iff, decide_eq_true_iff,
    and_assoc]
  cases (ofText s).statement <;> simp [Except.toOption]

theorem edits_eq_decide (hf : fits s = true) (hn : (ofText s).number = some k)
    (hs : (ofText s).tokens = [] ∨ ∃ st, (ofText s).statement = .ok st) :
    edits n s = decide (n = k) := by
  rw [Bool.eq_iff_iff, edits_iff, decide_eq_true_iff, hn]
  constructor
  · rintro ⟨_, h, _⟩
    exact (Option.some.inj h).symm
  · rintro rfl
    exact ⟨hf, rfl, hs⟩

end Line

namespace StoredLine

/-- What becomes of the line `n` by a text that edits it. -/
def ofText? (n : LineNumber) (s : String) : Option StoredLine :=
  if n = 0 then
    none
  else
    match (Line.ofText s).statement with
    | .ok st => some ⟨n, Line.ofText s, st, 0⟩
    | .error _ => none

theorem ofText?_of_tokens_eq_nil {s : String} (h : (Line.ofText s).tokens = []) (n : LineNumber) :
    ofText? n s = none := by
  rw [ofText?]
  split
  · rfl
  · split
    · next hs => exact absurd h (Line.tokens_ne_nil_of_statement hs)
    · rfl

theorem ofText?_eq_some_iff {n : LineNumber} {s : String} {e : StoredLine} :
    ofText? n s = some e ↔ n ≠ 0 ∧ (Line.ofText s).statement = .ok e.statement ∧
      e = ⟨n, Line.ofText s, e.statement, 0⟩ := by
  rw [ofText?]
  by_cases hn : n = 0
  · simp [hn]
  · rw [if_neg hn]
    cases (Line.ofText s).statement with
    | error f => simp
    | ok st =>
        simp only [Option.some.injEq, Except.ok.injEq]
        constructor
        · rintro rfl
          exact ⟨hn, rfl, rfl⟩
        · rintro ⟨_, rfl, he⟩
          exact he.symm

end StoredLine

namespace Program

variable {p q : Program}

/-- A program is determined by its limit and by what is found under each number. -/
theorem eq_of_find? (hl : p.limit = q.limit) (h : ∀ n, p.find? n = q.find? n) : p = q := by
  have hirrefl : Std.Irrefl fun a b : StoredLine => a.number < b.number :=
    ⟨fun a => UInt32.lt_irrefl a.number⟩
  have hmem (e : StoredLine) : e ∈ p.lines ↔ e ∈ q.lines := by
    have hfind := h e.number
    constructor
    · intro he
      rw [find?_eq_some_iff.2 ⟨he, rfl⟩] at hfind
      exact (find?_eq_some_iff.1 hfind.symm).1
    · intro he
      rw [find?_eq_some_iff.2 ⟨he, rfl⟩] at hfind
      exact (find?_eq_some_iff.1 hfind).1
  have hlines := p.ascending.eq_of_mem_iff q.ascending hmem
  cases p
  cases q
  cases hl
  cases hlines
  rfl

end Program

namespace Machine

variable {m m' : Machine} {limit : UInt32} {s : String} {ss ss' : List String}

/-- Entering a text for the program leaves a machine stopped. The text edits no line, or is bare
and removes the line of its number, or stores that line. -/
theorem enter_of_isForProgram (hc : m.control = .stopped) (hs : Line.IsForProgram s) :
    (m.enter s).2.control = .stopped ∧
      ((m.enter s).2.program = m.program ∧ (∀ n, n ≠ 0 → Line.edits n s = false) ∨
        (∃ k, (m.enter s).2.program = m.program.erase k ∧ Line.fits s = true ∧
          (Line.ofText s).number = some k ∧ (Line.ofText s).tokens = []) ∨
        ∃ k st, (m.enter s).2.program = m.program.put ⟨k, Line.ofText s, st, 0⟩ ∧ k ≠ 0 ∧
          Line.fits s = true ∧ (Line.ofText s).number = some k ∧
          (Line.ofText s).statement = .ok st) := by
  have hnot (n : LineNumber) (h : ¬ (Line.fits s = true ∧ (Line.ofText s).number = some n ∧
      ((Line.ofText s).tokens = [] ∨ ∃ st, (Line.ofText s).statement = .ok st))) :
      Line.edits n s = false :=
    Bool.eq_false_iff.2 fun he => h (Line.edits_iff.1 he)
  have h := m.enters s
  generalize m.enter s = r at h ⊢
  cases h with
  | answered hw | invalid hw => cases hc.symm.trans hw
  | tooLong _ hf =>
      exact ⟨hc, .inl ⟨rfl, fun n _ => hnot n fun h => Bool.eq_false_iff.1 hf h.1⟩⟩
  | blank _ _ _ hn =>
      exact ⟨hc, .inl ⟨rfl, fun n _ => hnot n fun h => Option.some_ne_none n (h.2.1.symm.trans hn)⟩⟩
  | @bare k _ hf ht hn => exact ⟨hc, .inr (.inl ⟨k, rfl, hf, hn, ht⟩)⟩
  | @refused k e _ _ ht hn hi =>
      -- A line that says a statement is refused only if its number is zero.
      refine ⟨hc, .inl ⟨rfl, fun n hz => hnot n ?_⟩⟩
      rintro ⟨_, hn', hnil | ⟨st, hst⟩⟩
      · exact ht hnil
      · cases hi.symm.trans (m.program.insert_of_statement hn' hz hst)
  | @stored k _ p _ hf _ _ hi =>
      obtain ⟨k, st, hn, hz, hst, _, rfl⟩ := Program.insert_eq_ok_iff.1 hi
      exact ⟨hc, .inr (.inr ⟨k, st, rfl, hz, hf, hn, hst⟩)⟩
  | command _ _ hcommand =>
      obtain ⟨hn, ht⟩ := Line.number_and_tokens_of_command? hcommand
      exact absurd hs (not_or.2 ⟨not_not.2 hn, ht⟩)
  | misread _ _ hn ht => exact absurd hs (not_or.2 ⟨not_not.2 hn, ht⟩)
  | direct _ _ hn _ hst =>
      exact absurd hs (not_or.2 ⟨not_not.2 hn, Line.tokens_ne_nil_of_statement hst⟩)

/-- A machine that is stopped and holds, under each number, what the last of the texts that edit
this line makes of it. -/
structure KeepsLast (limit : UInt32) (ss : List String) (m : Machine) : Prop where
  control : m.control = .stopped
  limit : m.program.limit = limit
  find? : ∀ n, m.program.find? n = (ss.filter (Line.edits n)).getLast?.bind (StoredLine.ofText? n)

theorem keepsLast_new (limit : UInt32) : KeepsLast limit [] (new limit) :=
  ⟨rfl, rfl, fun _ => rfl⟩

namespace KeepsLast

variable {n : LineNumber} {e : StoredLine}

theorem find?_eq_some_iff (h : KeepsLast limit ss m) :
    m.program.find? n = some e ↔ n ≠ 0 ∧ ∃ s, (ss.filter (Line.edits n)).getLast? = some s ∧
      (Line.ofText s).statement = .ok e.statement ∧ e = ⟨n, Line.ofText s, e.statement, 0⟩ := by
  rw [h.find?, Option.bind_eq_some_iff]
  simp only [StoredLine.ofText?_eq_some_iff]
  constructor
  · rintro ⟨s, hs, hz, he⟩
    exact ⟨hz, s, hs, he⟩
  · rintro ⟨hz, s, hs, he⟩
    exact ⟨s, hs, hz, he⟩

theorem exists_find?_iff (h : KeepsLast limit ss m) :
    (∃ e, m.program.find? n = some e) ↔
      n ≠ 0 ∧ ∃ s, (ss.filter (Line.edits n)).getLast? = some s ∧ (Line.ofText s).tokens ≠ [] := by
  constructor
  · rintro ⟨e, he⟩
    obtain ⟨hz, s, hs, hst, _⟩ := h.find?_eq_some_iff.1 he
    exact ⟨hz, s, hs, Line.tokens_ne_nil_of_statement hst⟩
  · rintro ⟨hz, s, hs, ht⟩
    have hmem := List.mem_of_getLast? hs
    obtain ⟨_, _, hnil | ⟨st, hst⟩⟩ := Line.edits_iff.1 (List.mem_filter.1 hmem).2
    · exact absurd hnil ht
    · exact ⟨⟨n, Line.ofText s, st, 0⟩, h.find?_eq_some_iff.2 ⟨hz, s, hs, hst, rfl⟩⟩

theorem number_line (h : KeepsLast limit ss m) (he : e ∈ m.program.lines) :
    e.line.number = some e.number := by
  obtain ⟨_, s, hs, _, hline⟩ := h.find?_eq_some_iff.1 (Program.find?_eq_some_iff.2 ⟨he, rfl⟩)
  have hmem := List.mem_of_getLast? hs
  rw [hline]
  exact (Line.edits_iff.1 (List.mem_filter.1 hmem).2).2.1

theorem queue_list (h : KeepsLast limit ss m) :
    (m.enter "LIST").2.queue = m.queue ++ m.listing.map .list :=
  queue_enter_list fun _ _ hc => nomatch h.control.symm.trans hc

theorem find?_zero (h : KeepsLast limit ss m) : m.program.find? 0 = none :=
  Option.eq_none_iff_forall_ne_some.2 fun _ he => (h.find?_eq_some_iff.1 he).1 rfl

/-- One more text edits the line of its number, and the others are kept. -/
theorem enter (h : KeepsLast limit ss m) (hs : Line.IsForProgram s) :
    KeepsLast limit (ss ++ [s]) (m.enter s).2 := by
  obtain ⟨hc, hp⟩ := enter_of_isForProgram h.control hs
  have hlimit : (m.enter s).2.program.limit = m.program.limit := by
    obtain ⟨hp, _⟩ | ⟨k, hp, _⟩ | ⟨k, st, hp, _⟩ := hp
    · rw [hp]
    · rw [hp]
      rfl
    · rw [hp]
      rfl
  refine ⟨hc, hlimit.trans h.limit, fun n => ?_⟩
  rw [getLast?_filter_concat, apply_ite (Option.bind · (StoredLine.ofText? n)), ← h.find?]
  obtain ⟨hp, hnot⟩ | ⟨k, hp, hf, hn, ht⟩ | ⟨k, st, hp, hz, hf, hn, hst⟩ := hp
  · rw [hp]
    by_cases hz : n = 0
    · subst hz
      rw [h.find?_zero]
      split <;> rfl
    · rw [hnot n hz]
      rfl
  · rw [hp, Program.find?_erase, Line.edits_eq_decide hf hn (.inl ht), Option.bind_some,
      StoredLine.ofText?_of_tokens_eq_nil ht]
    simp only [decide_eq_true_iff]
  · have hstored : StoredLine.ofText? k s = some ⟨k, Line.ofText s, st, 0⟩ :=
      StoredLine.ofText?_eq_some_iff.2 ⟨hz, hst, rfl⟩
    rw [hp, Program.find?_put, Line.edits_eq_decide hf hn (.inr ⟨st, hst⟩), Option.bind_some]
    simp only [decide_eq_true_iff]
    split
    · next hnk => rw [hnk, hstored]
    · rfl

/-- The last text that edits each line determines the program. -/
theorem program_eq (h : KeepsLast limit ss m) (h' : KeepsLast limit ss' m')
    (hlast : ∀ n, n ≠ 0 → (ss'.filter (Line.edits n)).getLast? =
      (ss.filter (Line.edits n)).getLast?) : m'.program = m.program := by
  refine Program.eq_of_find? (h'.limit.trans h.limit.symm) fun n => ?_
  by_cases hz : n = 0
  · rw [hz, h.find?_zero, h'.find?_zero]
  · rw [h.find?, h'.find?, hlast n hz]

end KeepsLast

theorem enterAll_concat (m : Machine) (ss : List String) (s : String) :
    m.enterAll (ss ++ [s]) = ((m.enterAll ss).enter s).2 :=
  List.foldl_concat _ m s ss

theorem keepsLast_enterAll (limit : UInt32) (h : ∀ s ∈ ss, Line.IsForProgram s) :
    KeepsLast limit ss ((new limit).enterAll ss) := by
  induction ss using List.reverseRecOn with
  | nil => exact keepsLast_new limit
  | append_singleton ss s ih =>
      obtain ⟨hss, hs⟩ := List.forall_mem_append.1 h
      rw [enterAll_concat]
      exact (ih hss).enter (hs s List.mem_cons_self)

theorem filter_edits (ss : List String) (n : LineNumber) :
    ss.filter (Line.edits n) =
      (ss.filter fun s => (Line.ofText s).number = some n).filter (Line.edits n) := by
  rw [List.filter_filter]
  refine List.filter_congr fun s _ => ?_
  cases he : Line.edits n s with
  | false => rfl
  | true => rw [Bool.true_and, decide_eq_true (Line.edits_iff.1 he).2.1]

/-- A program that is typed depends only on the last text of each number that edits it. A line is
stored under a number that is not zero if the last text that edits this line is not bare, and it
is what this text says. So the program stays the same if texts of different numbers change places,
and if a text that edits no line is left out. It is listed in ascending order. -/
theorem enterAll_eq_of_last (limit : UInt32) (ss : List String)
    (h : ∀ s ∈ ss, Line.IsForProgram s) :
    let m := (new limit).enterAll ss
    (∀ n, (∃ e, m.program.find? n = some e) ↔
      n ≠ 0 ∧ ∃ s, (ss.filter (Line.edits n)).getLast? = some s ∧ (Line.ofText s).tokens ≠ []) ∧
    (∀ n e, m.program.find? n = some e →
      ∃ s, (ss.filter (Line.edits n)).getLast? = some s ∧ e.number = n ∧ e.line = Line.ofText s ∧
        (Line.ofText s).statement = .ok e.statement ∧ e.count = 0) ∧
    (∀ ss', (∀ s ∈ ss', Line.IsForProgram s) →
      (∀ n, n ≠ 0 → (ss'.filter (Line.edits n)).getLast? =
        (ss.filter (Line.edits n)).getLast?) →
      ((new limit).enterAll ss').program = m.program) ∧
    (∀ ss', ss'.Perm ss →
      (∀ n : LineNumber, (ss'.filter fun s => (Line.ofText s).number = some n) =
        ss.filter fun s => (Line.ofText s).number = some n) →
      ((new limit).enterAll ss').program = m.program ∧
        (((new limit).enterAll ss').enter "LIST").2.queue =
          ((new limit).enterAll ss').queue ++ m.listing.map .list) ∧
    (∀ before s after, ss = before ++ s :: after → (∀ n, n ≠ 0 → Line.edits n s = false) →
      ((new limit).enterAll (before ++ after)).program = m.program) ∧
    (m.enter "LIST").2.queue = m.queue ++ m.program.lines.map (fun e => .list e.line.text) ∧
    (m.program.lines.map StoredLine.number).Pairwise (· < ·) ∧
    ∀ e ∈ m.program.lines, e.line.number = some e.number := by
  intro m
  have hm : KeepsLast limit ss m := keepsLast_enterAll limit h
  have hlast {ss' : List String} (h' : ∀ s ∈ ss', Line.IsForProgram s)
      (heq : ∀ n, n ≠ 0 → (ss'.filter (Line.edits n)).getLast? =
        (ss.filter (Line.edits n)).getLast?) :
      ((new limit).enterAll ss').program = m.program :=
    hm.program_eq (keepsLast_enterAll limit h') heq
  refine ⟨fun n => hm.exists_find?_iff, fun n e he => ?_, fun ss' => hlast, fun ss' hperm heq => ?_,
    fun before s after hss hs => ?_, ?_, List.pairwise_map.2 m.program.ascending,
    fun e he => hm.number_line he⟩
  · obtain ⟨_, s, hs, hst, he⟩ := hm.find?_eq_some_iff.1 he
    exact ⟨s, hs, by rw [he], by rw [he], hst, by rw [he]⟩
  · have h' : ∀ s ∈ ss', Line.IsForProgram s := fun s hs => h s (hperm.mem_iff.1 hs)
    have hprogram : ((new limit).enterAll ss').program = m.program :=
      hlast h' fun n _ => by rw [filter_edits, heq n, ← filter_edits]
    refine ⟨hprogram, ?_⟩
    rw [(keepsLast_enterAll limit h').queue_list, listing, hprogram]
    rfl
  · subst hss
    refine hlast (fun x hx => h x ?_) fun n hz => ?_
    · exact (List.mem_append.1 hx).elim (List.mem_append_left _) fun hx =>
        List.mem_append_right _ (List.mem_cons_of_mem _ hx)
    · rw [List.filter_append, List.filter_append,
        List.filter_cons_of_neg (Bool.eq_false_iff.1 (hs n hz))]
  · rw [hm.queue_list, listing, List.map_map]
    rfl

/-- A line is typed twice, with its number written differently, another one is removed and typed
again, and two texts are refused. -/
theorem enterAll_eq_of_last_of_retyped_lines :
    let ss := ["20 PRINT 2", " 0010PRINT 3", "10 LET", "20", "", "20END", "0 END", "10 PRINT 1"]
    let m := (new 9).enterAll ss
    (∀ s ∈ ss, Line.IsForProgram s) ∧
      (∃ e, m.program.find? 20 = some e) ∧ (¬ ∃ e, m.program.find? 0 = some e) ∧
      ((new 9).enterAll
        ["20 PRINT 2", " 0010PRINT 3", "20", "", "20END", "0 END", "10 PRINT 1"]).program =
          m.program ∧
      (m.program.lines.map StoredLine.number).Pairwise (· < ·) ∧
      m.listing = ["10 PRINT 1", "20 END"] := by
  intro ss m
  have h : ∀ s ∈ ss, Line.IsForProgram s := by decide +kernel
  obtain ⟨hstored, _, _, _, hleft, _, hascending, _⟩ := enterAll_eq_of_last 9 ss h
  have hlast : (ss.filter (Line.edits 20)).getLast? = some "20END" := by decide +kernel
  have hmisread : ∀ n, n ≠ 0 → Line.edits n "10 LET" = false := by
    intro n _
    refine Bool.eq_false_iff.2 fun he => ?_
    have hnone : (Line.ofText "10 LET").statement.toOption = none := by decide +kernel
    obtain ⟨_, _, ht | ⟨st, hst⟩⟩ := Line.edits_iff.1 he
    · exact absurd ht (by decide +kernel)
    · rw [hst] at hnone
      cases hnone
  refine ⟨h, (hstored 20).2 ⟨by decide, "20END", hlast, by decide +kernel⟩,
    fun hzero => ((hstored 0).1 hzero).1 rfl, ?_, hascending, by decide +kernel⟩
  exact hleft ["20 PRINT 2", " 0010PRINT 3"] "10 LET" _ rfl hmisread

end Machine

end IntegerBasic
