import IntegerBasic.Proofs.Line.Retyping
import IntegerBasic.Proofs.Machine.Edits
import IntegerBasic.Proofs.Machine.Reachable
import Mathlib.Data.List.Forall2

/-!
# Typing a listing in again

`listing m` is what a machine lists, line by line. It can be typed into another machine: every
line in a program that was typed comes from a text, so what it is listed as says the same.

A line may be listed with one more byte than it was typed with, if it was typed without a space
after its number. So the listing of a line that just fits the line buffer may not fit it, and then
it is refused.

The main statement is that typing in a listing stores exactly the lines whose texts fit, and queues
one error for each of the others.
-/

namespace IntegerBasic

namespace StoredLine

def fits (e : StoredLine) : Bool :=
  Line.fits e.line.text

/-- The line that the text of a stored line is stored as. -/
def retyped (e : StoredLine) : StoredLine :=
  ⟨e.number, Line.ofText e.line.text, e.statement, 0⟩

end StoredLine

namespace Program

/-- A stored line that was read from a text. -/
def Typed (n : LineNumber) (e : StoredLine) : Prop :=
  Sound n e ∧ ∃ s, e.line = Line.ofText s

section

variable {n : LineNumber} {e : StoredLine}

/-- What a typed line is listed as is a line of the same number that says the same. -/
theorem Typed.line_retyped (h : Typed n e) :
    e.retyped.line.number = some e.number ∧ e.retyped.line.statement = .ok e.statement := by
  obtain ⟨⟨_, hn, hnumber, hs⟩, s, hline⟩ := h
  rw [hline] at hnumber hs
  obtain ⟨htext, hstatement⟩ := Line.ofText_text_ofText hs
  rw [StoredLine.retyped, hline, hn]
  exact ⟨htext ▸ hnumber, hstatement⟩

theorem Typed.text_retyped (h : Typed n e) (hlast : e.line.text.toList.getLast? ≠ some ' ') :
    e.retyped.line.text = e.line.text := by
  obtain ⟨⟨_, _, hnumber, hs⟩, s, hline⟩ := h
  rw [hline] at hnumber hs hlast
  rw [StoredLine.retyped, hline]
  exact Line.text_ofText_text hnumber hs hlast

theorem Typed.number_ne_zero (h : Typed n e) : e.number ≠ 0 := by
  obtain ⟨⟨⟨hpos, _⟩, hn, _⟩, _⟩ := h
  intro hz
  rw [← hn, hz] at hpos
  exact Nat.not_succ_le_zero 0 hpos

end

end Program

namespace Machine

variable {m : Machine}

theorem Operated.each_typed {limit : UInt32} (h : Operated limit m) :
    m.program.Each Program.Typed :=
  h.each (fun _ _ _ he => he) fun s n st hn hz hs =>
    ⟨Program.admits_sound n _ st hn hz hs, s, rfl⟩

def listing (m : Machine) : List String :=
  m.program.lines.map fun e => e.line.text

def enterAll (m : Machine) (ss : List String) : Machine :=
  ss.foldl (fun m s => (m.enter s).2) m

theorem queue_enter_list (hw : ∀ x l, m.control ≠ .awaiting x l) :
    (m.enter "LIST").2.queue = m.queue ++ m.listing.map .list := by
  have hline : Line.ofText "LIST" = ⟨none, [.word .LIST]⟩ := by decide +kernel
  rw [enter]
  split
  · next x l hc => exact absurd hc (hw x l)
  · rw [enterLine, if_pos (by decide), hline, listing, List.map_map]
    rfl

theorem enter_of_fits {s : String} {n : LineNumber} {st : Statement} (hc : m.control = .stopped)
    (hfits : Line.fits s = true) (hn : (Line.ofText s).number = some n) (hz : n ≠ 0)
    (hs : (Line.ofText s).statement = .ok st) :
    (m.enter s).2 = { m with program := m.program.put ⟨n, Line.ofText s, st, 0⟩ } := by
  have hempty : ¬ (Line.ofText s).isEmpty = true := fun h =>
    Line.tokens_ne_nil_of_statement hs ((Line.isEmpty_iff _).1 h)
  have hdirect : ¬ (Line.ofText s).isDirect = true := fun h =>
    Option.some_ne_none _ (hn.symm.trans ((Line.isDirect_iff _).1 h))
  rw [enter_of_stopped hc, enterLine, if_pos hfits]
  dsimp only
  rw [if_neg hempty, if_neg hdirect, enterNumbered, m.program.insert_of_statement hn hz hs]

theorem enter_of_not_fits {s : String} (hc : m.control = .stopped) (h : Line.fits s = false) :
    (m.enter s).2 = m.post (.error .lineTooLong) := by
  rw [enter_of_stopped hc, enterLine, if_neg (Bool.eq_false_iff.1 h)]

/-- The text of a line above those that are stored is stored after them or refused. -/
theorem enter_text {e : StoredLine} (hc : m.control = .stopped) (he : Program.Typed e.number e)
    (hlt : ∀ x ∈ m.program.lines, x.number < e.number) :
    let m' := (m.enter e.line.text).2
    m'.control = .stopped ∧
      m'.program.lines = m.program.lines ++ ([e].filter StoredLine.fits).map StoredLine.retyped ∧
      m'.queue = m.queue ++ ([e].filter fun e => !e.fits).map fun _ => .error .lineTooLong := by
  intro m'
  cases hf : e.fits with
  | true =>
      obtain ⟨hn, hs⟩ := he.line_retyped
      have hm' : m' = { m with program := m.program.put e.retyped } :=
        enter_of_fits hc hf hn he.number_ne_zero hs
      have hlines : (m.program.put e.retyped).lines = m.program.lines ++ [e.retyped] :=
        StoredLine.putInto_of_forall_lt hlt
      rw [hm']
      exact ⟨hc, by simp [hf, hlines], by simp [hf]⟩
  | false =>
      have hm' : m' = m.post (.error .lineTooLong) := enter_of_not_fits hc hf
      rw [hm']
      exact ⟨hc, by simp [hf, post], by simp [hf, post]⟩

/-- Lines that are listed in ascending order, above those that are stored, are stored after them
or refused. -/
theorem enterAll_texts {es : List StoredLine} (hc : m.control = .stopped)
    (hes : ∀ e ∈ es, Program.Typed e.number e)
    (hascending : ((m.program.lines ++ es).map StoredLine.number).Pairwise (· < ·)) :
    let m' := m.enterAll (es.map fun e => e.line.text)
    m'.control = .stopped ∧
      m'.program.lines = m.program.lines ++ (es.filter StoredLine.fits).map StoredLine.retyped ∧
      m'.queue = m.queue ++ (es.filter fun e => !e.fits).map fun _ => .error .lineTooLong := by
  induction es generalizing m with
  | nil => exact ⟨hc, (List.append_nil _).symm, (List.append_nil _).symm⟩
  | cons e es ih =>
      obtain ⟨he, hes⟩ := List.forall_mem_cons.1 hes
      rw [List.map_append, List.map_cons] at hascending
      have hlt : ∀ x ∈ m.program.lines, x.number < e.number := fun x hx =>
        (List.pairwise_append.1 hascending).2.2 _ (List.mem_map_of_mem hx) _ List.mem_cons_self
      obtain ⟨hcontrol, hlines, hqueue⟩ := enter_text hc he hlt
      -- The line may be missing among those that are stored now; the others keep their order.
      have hnumbers : (((m.enter e.line.text).2.program.lines ++ es).map StoredLine.number).Sublist
          (m.program.lines.map StoredLine.number ++ e.number :: es.map StoredLine.number) := by
        have hstored : (([e].filter StoredLine.fits).map StoredLine.retyped).map StoredLine.number =
            ([e].filter StoredLine.fits).map StoredLine.number := List.map_map
        rw [hlines, List.map_append, List.map_append, hstored, List.append_assoc]
        exact ((List.filter_sublist.map _).append_right _).append_left _
      obtain ⟨hcontrol', hlines', hqueue'⟩ := ih hcontrol hes (hascending.sublist hnumbers)
      rw [List.map_cons, enterAll, List.foldl_cons, ← enterAll, ← List.singleton_append,
        List.filter_append, List.filter_append, List.map_append, List.map_append]
      refine ⟨hcontrol', ?_, ?_⟩
      · rw [hlines', hlines, List.append_assoc]
      · rw [hqueue', hqueue, List.append_assoc]

/-- A listing can be typed in again: it stores the lines whose texts fit the line buffer, with the
same statements under the same numbers, and each of the other texts is refused with an error. Then
the same texts are listed, unless they end with a blank. -/
theorem enterAll_listing {limit : UInt32} (h : m.Operated limit)
    (hw : ∀ x l, m.control ≠ .awaiting x l) :
    let m' := (new limit).enterAll m.listing
    (m.enter "LIST").2.queue = m.queue ++ m.listing.map .list ∧
      m'.queue = (m.listing.filter fun t => !Line.fits t).map (fun _ => .error .lineTooLong) ∧
      (∀ n s, (∃ e, m'.program.find? n = some e ∧ e.statement = s) ↔
        ∃ e, m.program.find? n = some e ∧ e.statement = s ∧ Line.fits e.line.text = true) ∧
      (m'.enter "LIST").2.queue = m'.queue ++ m'.listing.map .list ∧
      List.Forall₂ (fun t t' => t.toList.getLast? ≠ some ' ' → t' = t)
        (m.listing.filter Line.fits) m'.listing := by
  intro m'
  have htyped : ∀ e ∈ m.program.lines, Program.Typed e.number e := fun e => h.each_typed.of_mem
  have hascending := List.pairwise_map.2 m.program.ascending
  obtain ⟨hc, hlines, hqueue⟩ := enterAll_texts (m := new limit) rfl htyped hascending
  have hstored : m'.program.lines = (m.program.lines.filter StoredLine.fits).map
      StoredLine.retyped := hlines
  refine ⟨queue_enter_list hw, ?_, fun n s => ?_, queue_enter_list fun x l hx => ?_, ?_⟩
  · rw [listing, List.filter_map, List.map_map]
    exact hqueue
  · simp only [Program.find?_eq_some_iff, hstored]
    constructor
    · intro h
      obtain ⟨e', ⟨hmem, hn⟩, hs⟩ := h
      obtain ⟨e, he, rfl⟩ := List.mem_map.1 hmem
      obtain ⟨he, hfits⟩ := List.mem_filter.1 he
      exact ⟨e, ⟨he, hn⟩, hs, hfits⟩
    · intro h
      obtain ⟨e, ⟨he, hn⟩, hs, hfits⟩ := h
      have hmem : e ∈ m.program.lines.filter StoredLine.fits := List.mem_filter.2 ⟨he, hfits⟩
      exact ⟨e.retyped, ⟨List.mem_map_of_mem hmem, hn⟩, hs⟩
  · cases hc.symm.trans hx
  · rw [listing, listing, hstored, List.filter_map, List.forall₂_map_left_iff,
      List.forall₂_map_right_iff, List.forall₂_map_right_iff]
    refine List.forall₂_same.2 fun e he => ?_
    exact (htyped e (List.mem_filter.1 he).1).text_retyped

/-- A line is replaced, a program is running, and what is listed is typed in again. -/
theorem enterAll_listing_of_replaced_line :
    let m := (((((new 2).enter "20GOTO 10").2.enter "10 LET X = (1").2.enter "10REM é ").2.enter
      "RUN").2
    let m' := (new 2).enterAll m.listing
    m.Operated 2 ∧ m.control = .running 10 false ∧ m.listing = ["10 REM é", "20 GOTO 10"] ∧
      m'.queue = [] ∧ (∃ e, m'.program.find? 10 = some e ∧ e.statement = .remark " é") ∧
      List.Forall₂ (fun t t' => t.toList.getLast? ≠ some ' ' → t' = t)
        ["10 REM é", "20 GOTO 10"] m'.listing := by
  intro m m'
  have h : m.Operated 2 :=
    (((Operated.new.enter "20GOTO 10").enter "10 LET X = (1").enter "10REM é ").enter "RUN"
  have hc : m.control = .running 10 false := by decide +kernel
  have hlisting : m.listing = ["10 REM é", "20 GOTO 10"] := by decide +kernel
  have hfits : m.listing.filter Line.fits = ["10 REM é", "20 GOTO 10"] := by
    rw [hlisting]
    decide +kernel
  have hnone : (m.listing.filter fun t => !Line.fits t) = [] := by
    rw [hlisting]
    decide +kernel
  have hstored : ∃ e, m.program.find? 10 = some e ∧ e.statement = .remark " é" ∧
      Line.fits e.line.text = true :=
    ⟨⟨10, Line.ofText "10REM é ", .remark " é", 0⟩, by decide +kernel⟩
  obtain ⟨_, hqueue, hprogram, _, htexts⟩ := enterAll_listing h fun x l hx => by
    rw [hc] at hx
    cases hx
  rw [hnone] at hqueue
  rw [hfits] at htexts
  exact ⟨h, hc, hlisting, hqueue, (hprogram 10 _).2 hstored, htexts⟩

/-- A line of 1024 bytes that was typed without a space after its number is listed with one byte
more, and then refused. -/
theorem enterAll_listing_of_longest_line :
    let m := ((new Program.defaultLimit).enter
      ("1REM" ++ String.ofList (List.replicate 1020 '.'))).2
    let m' := (new Program.defaultLimit).enterAll m.listing
    m.control = .stopped ∧ m.queue = [] ∧
      m.listing = ["1 REM" ++ String.ofList (List.replicate 1020 '.')] ∧
      m'.queue = [.error .lineTooLong] ∧ m'.program.lines = [] := by
  intro m m'
  have hdot : ∀ c ∈ List.replicate 1020 '.', c = '.' := fun _ hc => (List.mem_replicate.1 hc).2
  have hline : Line.ofText ("1REM" ++ String.ofList (List.replicate 1020 '.')) =
      ⟨some 1, .word .REM :: Token.remark (List.replicate 1020 '.')⟩ :=
    Line.ofText_remark (n := 1) (fun c hc => hdot c (List.mem_of_mem_head? hc) ▸ rfl)
      fun c hc => hdot c (List.mem_of_getLast? hc) ▸ rfl
  have hm : m = { new Program.defaultLimit with
      program := (Program.empty Program.defaultLimit).put
        ⟨1, Line.ofText ("1REM" ++ String.ofList (List.replicate 1020 '.')),
          .remark (Token.textOf (Token.remark (List.replicate 1020 '.'))), 0⟩ } :=
    enter_of_fits rfl (by decide +kernel) (by rw [hline]) (by decide) (by rw [hline]; rfl)
  have hlisting : m.listing = ["1 REM" ++ String.ofList (List.replicate 1020 '.')] := by
    have htext : m.listing =
        [(Line.ofText ("1REM" ++ String.ofList (List.replicate 1020 '.'))).text] := by
      rw [hm]
      rfl
    rw [htext, hline, Line.text_remark]
    rfl
  have hm' : m' = (new Program.defaultLimit).post (.error .lineTooLong) := by
    have henter : m' = ((new Program.defaultLimit).enterAll
        ["1 REM" ++ String.ofList (List.replicate 1020 '.')]) := hlisting ▸ rfl
    rw [henter]
    exact enter_of_not_fits rfl (by decide +kernel)
  exact ⟨congrArg control hm, congrArg queue hm, hlisting, congrArg queue hm',
    congrArg (fun m => m.program.lines) hm'⟩

end Machine

end IntegerBasic
