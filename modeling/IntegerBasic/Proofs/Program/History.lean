import IntegerBasic.Proofs.Program.InPlace
import IntegerBasic.Proofs.Program.Stored
import Mathlib.Data.List.Induction

/-!
# What a program remembers

A program is the outcome of the actions that were taken on it. `history limit actions` takes
actions on a program without lines; each leaves a record with its result. A record touches a number
if a line was stored under it or removed from it, successfully.

The main statement reads off the records what the program holds: under a number the line that was
stored last, unless it was removed, with the attempts since then that were counted and not reset.
-/

namespace IntegerBasic

namespace Program

inductive Action
  | insert (line : Line)
  | load (text : String)
  | erase (n : LineNumber)
  | clear
  | increment (n : LineNumber)
  | resetCounts

/-- Takes an action: its result, and the program afterwards. -/
def Action.take (p : Program) : Action → Except Error Unit × Program
  | .insert l =>
    match p.insert l with
    | .error e => (.error e, p)
    | .ok (_, q) => (.ok (), q)
  | .load s =>
    match p.load s with
    | .error e => (.error e, p)
    | .ok q => (.ok (), q)
  | .erase n => (.ok (), p.erase n)
  | .clear => (.ok (), p.clear)
  | .increment n => p.increment n
  | .resetCounts => (.ok (), p.resetCounts)

def Action.isReset : Action → Bool
  | .resetCounts => true
  | .insert _ | .load _ | .erase _ | .clear | .increment _ => false

def Action.isAttempt (n : LineNumber) : Action → Bool
  | .increment k => k = n
  | .insert _ | .load _ | .erase _ | .clear | .resetCounts => false

structure Record where
  action : Action
  result : Except Error Unit

namespace Record

inductive Stores (n : LineNumber) (l : Line) : Record → Prop
  | insert (hn : l.number = some n) : Stores n l ⟨.insert l, .ok ()⟩
  | load {s : String} (hl : Line.ofText s = l) (hn : l.number = some n) (ht : l.tokens ≠ []) :
      Stores n l ⟨.load s, .ok ()⟩

inductive Removes (n : LineNumber) : Record → Prop
  | erase : Removes n ⟨.erase n, .ok ()⟩
  | load {s : String} (hn : (Line.ofText s).number = some n) (ht : (Line.ofText s).tokens = []) :
      Removes n ⟨.load s, .ok ()⟩
  | clear : Removes n ⟨.clear, .ok ()⟩

/-- What is stored under the number was decided anew. -/
def Touches (n : LineNumber) (r : Record) : Prop :=
  (∃ l, r.Stores n l) ∨ r.Removes n

end Record

def history (limit : UInt32) (actions : List Action) : List Record × Program :=
  actions.foldl (fun h a => (h.1 ++ [⟨a, (a.take h.2).1⟩], (a.take h.2).2)) ([], empty limit)

/-- The line was stored under the number by the last record that touches it; `after` are the
records since. -/
def LastStored (records : List Record) (n : LineNumber) (l : Line) (after : List Record) : Prop :=
  ∃ before r, records = before ++ r :: after ∧ r.Stores n l ∧ ∀ r' ∈ after, ¬ r'.Touches n

/-- The number of attempts on a line since the counts were last reset. -/
def attemptsOn (n : LineNumber) (records : List Record) : Nat :=
  (records.reverse.takeWhile fun r => !r.action.isReset).countP fun r => r.action.isAttempt n

/-- The numbers under which lines are stored, and how to walk through them. -/
structure Ordered (p : Program) (numbers : List LineNumber) : Prop where
  lines : p.lines.map (fun e => e.line.number) = numbers.map some
  ascending : numbers.Pairwise (· < ·)
  nodup : numbers.Nodup
  mem_iff : ∀ n, n ∈ numbers ↔ p.contains n = true
  size : p.size = numbers.length
  first_some : ∀ n, p.first? = some n ↔ p.contains n = true ∧ ∀ k, p.contains k = true → n ≤ k
  first_none : p.first? = none ↔ ∀ k, p.contains k = false
  next_some : ∀ m n, p.next? m = some n ↔
    (p.contains n = true ∧ m < n) ∧ ∀ k, p.contains k = true → m < k → n ≤ k
  next_none : ∀ m, p.next? m = none ↔ ∀ k, p.contains k = true → ¬ m < k

variable {p q : Program} {n : LineNumber} {l : Line} {a : Action} {records : List Record}

theorem history_concat (limit : UInt32) (actions : List Action) (a : Action) :
    history limit (actions ++ [a]) =
      ((history limit actions).1 ++ [⟨a, (a.take (history limit actions).2).1⟩],
        (a.take (history limit actions).2).2) := by
  rw [history, List.foldl_append]
  rfl

theorem lastStored_concat_iff {r : Record} {after : List Record} :
    LastStored (records ++ [r]) n l after ↔ after = [] ∧ r.Stores n l ∨
      ∃ after', after = after' ++ [r] ∧ LastStored records n l after' ∧ ¬ r.Touches n := by
  constructor
  · rintro ⟨before, r', heq, hr', hafter⟩
    rcases concat_eq_append_cons_iff.1 heq with ⟨rfl, rfl, rfl⟩ | ⟨after', rfl, rfl⟩
    · exact .inl ⟨rfl, hr'⟩
    · refine .inr ⟨after', rfl, ⟨before, r', rfl, hr', fun r'' h => ?_⟩, ?_⟩
      · exact hafter r'' (List.mem_append_left _ h)
      · exact hafter r (List.mem_append_right _ List.mem_cons_self)
  · rintro (⟨rfl, hr⟩ | ⟨after', rfl, ⟨before, r', rfl, hr', hafter⟩, hr⟩)
    · exact ⟨records, r, rfl, hr, nofun⟩
    · refine ⟨before, r', List.append_assoc _ _ _, hr', fun r'' h => ?_⟩
      rcases List.mem_append.1 h with h | h
      · exact hafter r'' h
      · exact List.mem_singleton.1 h ▸ hr

theorem attemptsOn_concat (n : LineNumber) (records : List Record) (r : Record) :
    attemptsOn n (records ++ [r]) =
      if r.action.isReset then 0
      else attemptsOn n records + if r.action.isAttempt n then 1 else 0 := by
  rw [attemptsOn, List.reverse_append, List.reverse_singleton, List.singleton_append,
    List.takeWhile_cons]
  cases r.action.isReset with
  | true => rfl
  | false => exact List.countP_cons

theorem find?_of_insert {old : Option Line} (h : p.insert l = .ok (old, q)) :
    ∃ n s, l.number = some n ∧ l.statement = .ok s ∧
      ∀ k, q.find? k = if k = n then some ⟨n, l, s, 0⟩ else p.find? k := by
  obtain ⟨n, s, hn, _, hs, _, rfl⟩ := insert_eq_ok_iff.1 h
  exact ⟨n, s, hn, hs, fun k => find?_put p ⟨n, l, s, 0⟩ k⟩

theorem exists_of_take_insert (h : ((Action.insert l).take p).1 = .ok ()) :
    ∃ old, p.insert l = .ok (old, ((Action.insert l).take p).2) := by
  rw [Action.take] at h ⊢
  cases hi : p.insert l with
  | error e =>
      rw [hi] at h
      cases h
  | ok r => exact ⟨r.1, rfl⟩

theorem load_of_take_load {s : String} (h : ((Action.load s).take p).1 = .ok ()) :
    p.load s = .ok ((Action.load s).take p).2 := by
  rw [Action.take] at h ⊢
  cases hl : p.load s with
  | error e =>
      rw [hl] at h
      cases h
  | ok q => rfl

theorem take_of_error {e : Error} (h : (a.take p).1 = .error e) (ha : ∀ n, a ≠ .increment n) :
    (a.take p).2 = p := by
  cases a with
  | increment n => exact absurd rfl (ha n)
  | erase | clear | resetCounts => cases h
  | insert l =>
      rw [Action.take] at h ⊢
      split
      · rfl
      · next hi =>
          rw [hi] at h
          cases h
  | load s =>
      rw [Action.take] at h ⊢
      split
      · rfl
      · next hl =>
          rw [hl] at h
          cases h

theorem find?_take_of_stores (h : Record.Stores n l ⟨a, (a.take p).1⟩) :
    ∃ s, l.statement = .ok s ∧ (a.take p).2.find? n = some ⟨n, l, s, 0⟩ := by
  generalize hr : (a.take p).1 = result at h
  have hinsert {old : Option Line} (hi : p.insert l = .ok (old, (a.take p).2))
      (hn : l.number = some n) :
      ∃ s, l.statement = .ok s ∧ (a.take p).2.find? n = some ⟨n, l, s, 0⟩ := by
    obtain ⟨k, s, hk, hs, hfind⟩ := find?_of_insert hi
    obtain rfl : n = k := Option.some.inj (hn.symm.trans hk)
    exact ⟨s, hs, by rw [hfind, if_pos rfl]⟩
  cases h with
  | insert hn =>
      obtain ⟨_, hi⟩ := exists_of_take_insert hr
      exact hinsert hi hn
  | load hl hn ht =>
      subst hl
      rcases cases_of_load (load_of_take_load hr) with ⟨ht', _⟩ | ⟨_, _, hi⟩
      · exact absurd ht' ht
      · exact hinsert hi hn

theorem find?_take_of_removes (h : Record.Removes n ⟨a, (a.take p).1⟩) :
    (a.take p).2.find? n = none := by
  generalize hr : (a.take p).1 = result at h
  cases h with
  | erase =>
      rw [Action.take, find?_erase, if_pos rfl]
  | load hn ht =>
      rcases cases_of_load (load_of_take_load hr) with ⟨_, ⟨k, hk, hq⟩ | ⟨hk, _⟩⟩ | ⟨ht', _⟩
      · obtain rfl : n = k := Option.some.inj (hn.symm.trans hk)
        rw [hq, find?_erase, if_pos rfl]
      · cases hn.symm.trans hk
      · exact absurd ht ht'
  | clear => rfl

/-- What the action makes of the count of a line that it does not touch. -/
def Action.counted (a : Action) (n : LineNumber) (c : UInt32) : UInt32 :=
  if a.isReset then 0 else if a.isAttempt n then countUp c else c

/-- A number that is not touched keeps its line; only the count may change. -/
theorem find?_take_of_not_touches (h : ¬ Record.Touches n ⟨a, (a.take p).1⟩) :
    (a.take p).2.find? n = (p.find? n).map fun e => { e with count := a.counted n e.count } := by
  have hinsert {l : Line} {old : Option Line} (hi : p.insert l = .ok (old, (a.take p).2))
      (hs : l.number = some n → Record.Stores n l ⟨a, (a.take p).1⟩) :
      (a.take p).2.find? n = p.find? n := by
    obtain ⟨k, s, hk, _, hfind⟩ := find?_of_insert hi
    refine (hfind n).trans (if_neg ?_)
    rintro rfl
    exact h (.inl ⟨l, hs hk⟩)
  cases a with
  | resetCounts => exact find?_resetCounts p n
  | clear => exact absurd (.inr .clear) h
  | erase k =>
      have hk : n ≠ k := by
        rintro rfl
        exact h (.inr .erase)
      rw [Action.take, find?_erase, if_neg hk]
      exact Option.map_id'.symm
  | increment k =>
      rw [Action.take, find?_increment]
      congr 1
      funext e
      by_cases hk : k = n
      · simp [Action.counted, Action.isReset, Action.isAttempt, hk]
      · simp [Action.counted, Action.isReset, Action.isAttempt, hk, Ne.symm hk]
  | insert l =>
      refine Eq.trans ?_ Option.map_id'.symm
      cases hr : ((Action.insert l).take p).1 with
      | error e => rw [take_of_error hr nofun]
      | ok =>
          obtain ⟨_, hi⟩ := exists_of_take_insert hr
          exact hinsert hi fun hn => hr ▸ .insert hn
  | load s =>
      refine Eq.trans ?_ Option.map_id'.symm
      cases hr : ((Action.load s).take p).1 with
      | error e => rw [take_of_error hr nofun]
      | ok =>
          rcases cases_of_load (load_of_take_load hr) with ⟨ht, ⟨k, hk, hq⟩ | ⟨_, hq⟩⟩ | ⟨ht, _, hi⟩
          · have hkn : n ≠ k := by
              rintro rfl
              exact h (.inr (hr ▸ .load hk ht))
            rw [hq, find?_erase, if_neg hkn]
          · rw [hq]
          · exact hinsert hi fun hn => hr ▸ .load rfl hn ht

theorem toNat_counted {c : UInt32} {k : Nat} (h : c.toNat = min 4294967295 k) :
    (a.counted n c).toNat =
      min 4294967295 (if a.isReset then 0 else k + if a.isAttempt n then 1 else 0) := by
  rw [Action.counted]
  cases a.isReset with
  | true => rfl
  | false =>
      cases a.isAttempt n with
      | true =>
          rw [if_neg Bool.false_ne_true, if_neg Bool.false_ne_true, if_pos rfl, if_pos rfl,
            toNat_countUp, h]
          omega
      | false => exact h

theorem limit_take (p : Program) (a : Action) : (a.take p).2.limit = p.limit := by
  cases a with
  | erase | clear | resetCounts => rfl
  | increment n => exact p.limit_increment n
  | insert l =>
      cases hr : ((Action.insert l).take p).1 with
      | error e => rw [take_of_error hr nofun]
      | ok =>
          obtain ⟨_, hi⟩ := exists_of_take_insert hr
          exact limit_insert hi
  | load s =>
      cases hr : ((Action.load s).take p).1 with
      | error e => rw [take_of_error hr nofun]
      | ok =>
          rcases cases_of_load (load_of_take_load hr) with ⟨_, ⟨k, _, hq⟩ | ⟨_, hq⟩⟩ | ⟨_, _, hi⟩
          · rw [hq]
            rfl
          · rw [hq]
          · exact limit_insert hi

theorem increment_eq_iff (p : Program) (n : LineNumber) :
    ((p.increment n).1 = .error .missingLine ↔ p.contains n = false) ∧
      ((p.increment n).1 = .error .limitReached ↔
        ∃ e, (p.increment n).2.find? n = some e ∧ p.limit ≤ e.count) ∧
      ((p.increment n).1 = .ok () ↔
        ∃ e, (p.increment n).2.find? n = some e ∧ e.count < p.limit) := by
  rw [find?_increment, contains]
  cases hn : p.find? n with
  | none => simp [increment, hn, Error.missingLine, Error.limitReached]
  | some e =>
      rw [increment_of_find? hn]
      by_cases hl : p.limit ≤ countUp e.count
      · simp [hl, Error.missingLine, Error.limitReached]
      · simp [hl, UInt32.not_le.1 hl]

section

variable (limit : UInt32) (actions : List Action)

theorem limit_history : (history limit actions).2.limit = limit := by
  induction actions using List.reverseRecOn with
  | nil => rfl
  | append_singleton actions a ih => rw [history_concat, limit_take, ih]

/-- What was stored last is found, with the attempts since then. -/
theorem exists_find?_of_lastStored {after : List Record}
    (h : LastStored (history limit actions).1 n l after) :
    ∃ e, (history limit actions).2.find? n = some e ∧ e.line = l ∧
      l.statement = .ok e.statement ∧ e.count.toNat = min 4294967295 (attemptsOn n after) := by
  induction actions using List.reverseRecOn generalizing after with
  | nil =>
      obtain ⟨before, r, heq, _⟩ := h
      cases before <;> cases heq
  | append_singleton actions a ih =>
      rw [history_concat] at h ⊢
      rcases lastStored_concat_iff.1 h with ⟨rfl, hr⟩ | ⟨after', rfl, h, hr⟩
      · obtain ⟨s, hs, hfind⟩ := find?_take_of_stores hr
        exact ⟨_, hfind, rfl, hs, rfl⟩
      · obtain ⟨e, he, hl, hs, hc⟩ := ih h
        refine ⟨_, (find?_take_of_not_touches hr).trans (congrArg _ he), hl, hs, ?_⟩
        rw [attemptsOn_concat]
        exact toNat_counted hc

/-- What is found was stored last. -/
theorem exists_lastStored_of_find? {e : StoredLine}
    (h : (history limit actions).2.find? n = some e) :
    ∃ l after, LastStored (history limit actions).1 n l after := by
  induction actions using List.reverseRecOn generalizing e with
  | nil => cases h
  | append_singleton actions a ih =>
      rw [history_concat] at h ⊢
      by_cases hr : Record.Touches n ⟨a, (a.take (history limit actions).2).1⟩
      · rcases hr with ⟨l, hr⟩ | hr
        · exact ⟨l, [], lastStored_concat_iff.2 (.inl ⟨rfl, hr⟩)⟩
        · cases (find?_take_of_removes hr).symm.trans h
      · dsimp only at h
        rw [find?_take_of_not_touches hr, Option.map_eq_some_iff] at h
        obtain ⟨e', he', _⟩ := h
        obtain ⟨l, after, h⟩ := ih he'
        exact ⟨l, _, lastStored_concat_iff.2 (.inr ⟨after, rfl, h, hr⟩)⟩

theorem LastStored.number {after : List Record} (h : LastStored records n l after) :
    l.number = some n := by
  obtain ⟨_, r, _, hr, _⟩ := h
  cases hr <;> assumption

theorem number_of_mem_history {e : StoredLine} (he : e ∈ (history limit actions).2.lines) :
    e.line.number = some e.number := by
  have hfind := find?_eq_some_iff.2 ⟨he, rfl⟩
  obtain ⟨l, after, h⟩ := exists_lastStored_of_find? limit actions hfind
  obtain ⟨e', he', hl, _⟩ := exists_find?_of_lastStored limit actions h
  obtain rfl : e = e' := Option.some.inj (hfind.symm.trans he')
  exact hl ▸ h.number

end

theorem ordered_of_numbers (h : ∀ e ∈ p.lines, e.line.number = some e.number) :
    p.Ordered (p.lines.map StoredLine.number) := by
  have hascending := List.pairwise_map.2 p.ascending
  refine ⟨?_, hascending, hascending.imp UInt32.ne_of_lt, fun n => ?_, (List.length_map _).symm,
    fun n => first?_eq_some_iff, ?_, fun m n => ?_, fun m => next?_eq_none_iff⟩
  · rw [List.map_map]
    exact List.map_congr_left h
  · rw [contains_iff, List.mem_map]
  · rw [first?_eq_none_iff]
    exact forall_congr' fun n => by
      rw [contains, Option.isSome_eq_false_iff, Option.isNone_iff_eq_none]
  · rw [next?_eq_some_iff, and_assoc]

/-- A program is a map from numbers to lines in ascending order, with a history. Whatever actions
are taken, a line is stored under a number if and only if one was stored there since the number
was last touched; it says what it said then, and its count is the number of attempts since then
and since the counts were last reset, up to the greatest count. An attempt fails if there is no
line or its count reaches the limit; storing a line, or taking over a line of a file, fails before
anything is changed; and the numbers are walked through in ascending order. -/
theorem history_remembers (limit : UInt32) (actions : List Action) :
    let records := (history limit actions).1
    let p := (history limit actions).2
    (∀ n, p.contains n = true ↔ ∃ l after, LastStored records n l after) ∧
      (∀ n l after, LastStored records n l after → ∃ e, p.find? n = some e ∧ e.line = l ∧
        l.statement = .ok e.statement ∧ e.count.toNat = min 4294967295 (attemptsOn n after)) ∧
      (∀ n, ((p.increment n).1 = .error .missingLine ↔ p.contains n = false) ∧
        ((p.increment n).1 = .error .limitReached ↔
          ∃ e, (p.increment n).2.find? n = some e ∧ limit ≤ e.count) ∧
        ((p.increment n).1 = .ok () ↔
          ∃ e, (p.increment n).2.find? n = some e ∧ e.count < limit)) ∧
      (∀ l e q, (insertInPlace l).run p = .error e q ↔ p.insert l = .error e ∧ q = p) ∧
      (∀ s e q, (loadInPlace s).run p = .error e q ↔ p.load s = .error e ∧ q = p) ∧
      ∃ numbers, p.Ordered numbers := by
  intro records p
  refine ⟨fun n => ⟨fun hn => ?_, fun hn => ?_⟩, fun n l after h => ?_, fun n => ?_,
    fun l e q => ?_, fun s e q => run_loadInPlace_eq_error_iff,
    ⟨_, ordered_of_numbers fun e he => ?_⟩⟩
  · obtain ⟨e, he⟩ := Option.isSome_iff_exists.1 hn
    exact exists_lastStored_of_find? limit actions he
  · obtain ⟨l, after, h⟩ := hn
    obtain ⟨e, he, _⟩ := exists_find?_of_lastStored limit actions h
    exact Option.isSome_iff_exists.2 ⟨e, he⟩
  · exact exists_find?_of_lastStored limit actions h
  · have hn := p.increment_eq_iff n
    rwa [limit_history] at hn
  · rw [run_insertInPlace]
    exact settled_eq_error_iff
  · exact number_of_mem_history limit actions he

end Program

end IntegerBasic
