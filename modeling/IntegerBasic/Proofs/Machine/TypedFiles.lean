import IntegerBasic.Proofs.CommandLine.Loading
import IntegerBasic.Proofs.Machine.Listing
import IntegerBasic.Proofs.Program.InPlace

/-!
# Files and typed lines

`HasLines bs ls` says, without cutting anything, that the bytes `bs` are the lines `ls` with their
ends. A program takes over the lines of a file one after the other, and `Refuses p l i f` says that
it cannot take over the line `l`, which is then reported with its position `i`.

A line of a file and a line that is typed are dealt with by the same cases, except for a line to be
obeyed at once, which has no place in a file. The main statement is that a file is read as a program
exactly when each of its lines can be taken over, that this is the program of a machine into which
the lines are typed, and that otherwise the first line that cannot be taken over is reported.
-/

namespace IntegerBasic

namespace Text

/-- The bytes are the lines with their ends: each line is ended by a line feed, before which a
carriage return may stand that does not belong to the line, and a last line may end with the
bytes. -/
inductive HasLines : List UInt8 → List (List UInt8) → Prop
  | nil : HasLines [] []
  | last {l : List UInt8} (hne : l ≠ []) (hl : ∀ b ∈ l, b ≠ lineFeed) : HasLines l [l]
  | lineFeed {l rest : List UInt8} {ls : List (List UInt8)} (hl : ∀ b ∈ l, b ≠ lineFeed)
      (hr : l.getLast? ≠ some carriageReturn) (h : HasLines rest ls) :
      HasLines (l ++ Text.lineFeed :: rest) (l :: ls)
  | carriageReturn {l rest : List UInt8} {ls : List (List UInt8)} (hl : ∀ b ∈ l, b ≠ lineFeed)
      (h : HasLines rest ls) :
      HasLines (l ++ Text.carriageReturn :: Text.lineFeed :: rest) (l :: ls)

section

variable {bs l : List UInt8} {ls : List (List UInt8)}

theorem stripEnd_of_forall_ne (hl : ∀ b ∈ l, b ≠ lineFeed) : stripEnd l = l := by
  rcases List.eq_nil_or_concat l with rfl | ⟨x, b, rfl⟩
  · rfl
  · rw [List.concat_eq_append] at hl ⊢
    have hb : b ≠ lineFeed := hl b (List.mem_append_right _ List.mem_cons_self)
    rcases List.eq_nil_or_concat x with rfl | ⟨y, c, rfl⟩ <;> simp [stripEnd, hb]

theorem stripEnd_append_lineFeed (hr : l.getLast? ≠ some carriageReturn) :
    stripEnd (l ++ [lineFeed]) = l := by
  rcases List.eq_nil_or_concat l with rfl | ⟨x, b, rfl⟩
  · rfl
  · have hb : b ≠ carriageReturn := fun hb => hr (by simp [hb])
    simp [stripEnd, hb]

theorem stripEnd_append_carriageReturn (l : List UInt8) :
    stripEnd (l ++ [carriageReturn, lineFeed]) = l := by
  simp [stripEnd]

theorem HasLines.eq_map_cut (h : HasLines bs ls) : ls = (cut bs).map stripEnd := by
  induction h with
  | nil => rw [cut_nil, List.map_nil]
  | last hne hl => rw [cut_of_forall_ne hne hl, List.map_singleton, stripEnd_of_forall_ne hl]
  | lineFeed hl hr _ ih =>
      rw [cut_append_cons hl, List.map_cons, stripEnd_append_lineFeed hr, ← ih]
  | @carriageReturn l rest _ hl _ ih =>
      have hl' : ∀ b ∈ l ++ [Text.carriageReturn], b ≠ Text.lineFeed :=
        List.forall_mem_append.2 ⟨hl, List.forall_mem_singleton.2 (by decide)⟩
      have happend : l ++ Text.carriageReturn :: Text.lineFeed :: rest =
          (l ++ [Text.carriageReturn]) ++ Text.lineFeed :: rest := by simp
      have hend : l ++ [Text.carriageReturn] ++ [Text.lineFeed] =
          l ++ [Text.carriageReturn, Text.lineFeed] := List.append_assoc ..
      rw [happend, cut_append_cons hl', List.map_cons, hend, stripEnd_append_carriageReturn, ← ih]

theorem hasLines_map_cut (bs : List UInt8) : HasLines bs ((cut bs).map stripEnd) := by
  induction bs using lines_induction with
  | nil =>
      rw [cut_nil]
      exact .nil
  | last l hne hl =>
      rw [cut_of_forall_ne hne hl, List.map_singleton, stripEnd_of_forall_ne hl]
      exact .last hne hl
  | line l rest hl ih =>
      rw [cut_append_cons hl, List.map_cons]
      by_cases hr : l.getLast? = some Text.carriageReturn
      · obtain ⟨x, rfl⟩ := List.getLast?_eq_some_iff.1 hr
        have happend : x ++ [Text.carriageReturn] ++ Text.lineFeed :: rest =
            x ++ Text.carriageReturn :: Text.lineFeed :: rest := List.append_assoc ..
        have hend : x ++ [Text.carriageReturn] ++ [Text.lineFeed] =
            x ++ [Text.carriageReturn, Text.lineFeed] := List.append_assoc ..
        rw [happend, hend, stripEnd_append_carriageReturn]
        exact .carriageReturn (fun b hb => hl b (List.mem_append_left _ hb)) ih
      · rw [stripEnd_append_lineFeed hr]
        exact .lineFeed hl hr ih

/-- Bytes are the lines of exactly one list. -/
theorem hasLines_iff : HasLines bs ls ↔ ls = (cut bs).map stripEnd :=
  ⟨HasLines.eq_map_cut, fun h => h ▸ hasLines_map_cut bs⟩

end

end Text

namespace Program

/-- The program that is left behind by taking over a line of a file, whether this succeeds or
not. -/
def afterLoad (p : Program) (s : String) : Program :=
  match (loadInPlace s).run p with
  | .ok _ q => q
  | .error _ q => q

/-- The lines are texts, and the program takes them over one after the other. -/
def TakesOver (p : Program) (ls : List (List UInt8)) (q : Program) : Prop :=
  ∃ texts : List String, ls.map Text.decode? = texts.map some ∧ texts.foldlM load p = .ok q

inductive Refuses (p : Program) (l : List UInt8) (i : Nat) : FileFault → Prop
  | notText (h : Text.decode? l = none) : Refuses p l i .notText
  | badLine {s : String} {e : Error} (hs : Text.decode? l = some s) (he : p.load s = .error e) :
      Refuses p l i (.badLine i e)

section

variable {p q : Program} {l : List UInt8} {ls : List (List UInt8)} {i : Nat} {f : FileFault}
  {s : String}

theorem takesOver_nil_iff : p.TakesOver [] q ↔ q = p := by
  constructor
  · rintro ⟨texts, htexts, h⟩
    obtain rfl := List.map_eq_nil_iff.1 htexts.symm
    cases h
    rfl
  · rintro rfl
    exact ⟨[], rfl, rfl⟩

theorem foldlM_load_cons (p : Program) (s : String) (texts : List String) :
    (s :: texts).foldlM load p = p.load s >>= fun p => texts.foldlM load p :=
  List.foldlM_cons

theorem takesOver_cons_iff : p.TakesOver (l :: ls) q ↔
    ∃ s p', Text.decode? l = some s ∧ p.load s = .ok p' ∧ p'.TakesOver ls q := by
  constructor
  · rintro ⟨texts, htexts, h⟩
    cases texts with
    | nil => cases htexts
    | cons s texts =>
        obtain ⟨hs, htexts⟩ := List.cons.inj htexts
        rw [foldlM_load_cons, bind_eq_ok_iff] at h
        obtain ⟨p', hp', h⟩ := h
        exact ⟨s, p', hs, hp', texts, htexts, h⟩
  · rintro ⟨s, p', hs, hp', texts, htexts, h⟩
    refine ⟨s :: texts, congrArg₂ List.cons hs htexts, ?_⟩
    rw [foldlM_load_cons]
    exact bind_eq_ok_iff.2 ⟨p', hp', h⟩

/-- Lines are taken over exactly when each of them is, after those before it. -/
theorem loadLines_eq_ok_iff :
    p.loadLines i (ls.map Text.decode?) = .ok q ↔ p.TakesOver ls q := by
  induction ls generalizing p i with
  | nil =>
      rw [takesOver_nil_iff, List.map_nil, loadLines, Except.ok.injEq]
      exact eq_comm
  | cons l ls ih =>
      rw [takesOver_cons_iff, List.map_cons]
      cases hl : Text.decode? l with
      | none => simp [loadLines]
      | some s =>
          rw [loadLines]
          cases hs : p.load s with
          | error e => simp [hs]
          | ok p' => simp [hs, ih]

theorem loadLines_eq_error_iff :
    p.loadLines i (ls.map Text.decode?) = .error f ↔
      ∃ before l after q, ls = before ++ l :: after ∧ p.TakesOver before q ∧
        q.Refuses l (i + before.length) f := by
  induction ls generalizing p i with
  | nil => simp [loadLines]
  | cons l ls ih =>
      rw [List.map_cons]
      constructor
      · intro h
        cases hl : Text.decode? l with
        | none =>
            rw [hl, loadLines] at h
            cases h
            exact ⟨[], l, ls, p, rfl, takesOver_nil_iff.2 rfl, .notText hl⟩
        | some s =>
            rw [hl, loadLines] at h
            cases hs : p.load s with
            | error e =>
                rw [hs] at h
                cases h
                exact ⟨[], l, ls, p, rfl, takesOver_nil_iff.2 rfl, .badLine hl hs⟩
            | ok p' =>
                rw [hs] at h
                obtain ⟨before, l', after, q, rfl, hbefore, hrefuses⟩ := ih.1 h
                refine ⟨l :: before, l', after, q, rfl,
                  takesOver_cons_iff.2 ⟨s, p', hl, hs, hbefore⟩, ?_⟩
                rwa [List.length_cons, Nat.add_comm before.length, ← Nat.add_assoc]
      · rintro ⟨before, l', after, q, heq, hbefore, hrefuses⟩
        cases before with
        | nil =>
            obtain ⟨rfl, rfl⟩ := List.cons.inj heq
            obtain rfl := takesOver_nil_iff.1 hbefore
            cases hrefuses with
            | notText h => rw [h, loadLines]
            | badLine hs he =>
                rw [hs, loadLines, he]
                rfl
        | cons l₀ before =>
            obtain ⟨rfl, rfl⟩ := List.cons.inj heq
            obtain ⟨s, p', hl, hs, hbefore⟩ := takesOver_cons_iff.1 hbefore
            rw [hl, loadLines, hs]
            refine ih.2 ⟨before, l', after, q, rfl, hbefore, ?_⟩
            rwa [List.length_cons, Nat.add_comm before.length, ← Nat.add_assoc] at hrefuses

theorem afterLoad_of_load (h : p.load s = .ok q) : p.afterLoad s = q := by
  rw [afterLoad, run_loadInPlace, h]
  rfl

theorem afterLoad_of_error {e : Error} (h : p.load s = .error e) : p.afterLoad s = p := by
  rw [afterLoad, run_loadInPlace, h]
  rfl

end

end Program

namespace Machine

variable {m : Machine} {s : String}

section

variable (hc : m.control = .stopped) (hs : ¬ Line.IsForNow s)

include hc hs

theorem load_eq_error_iff {e : Error} :
    m.program.load s = .error e ↔ (m.enter s).2.queue = m.queue ++ [.error e] := by
  rw [enter_eq_of_not_isForNow hc hs]
  cases m.program.load s with
  | ok p => simp
  | error e' => simp [post]

theorem load_eq_ok_iff {p : Program} :
    m.program.load s = .ok p ↔ (m.enter s).2 = { m with program := p } := by
  rw [enter_eq_of_not_isForNow hc hs]
  cases m.program.load s with
  | ok q =>
      rw [Except.ok.injEq]
      exact ⟨fun h => h ▸ rfl, congrArg program⟩
  | error e =>
      refine ⟨nofun, fun h => ?_⟩
      have hqueue : m.queue ++ [.error e] = m.queue := congrArg queue h
      cases List.append_right_eq_self.1 hqueue

theorem afterLoad_eq_program_enter : m.program.afterLoad s = (m.enter s).2.program := by
  rw [enter_eq_of_not_isForNow hc hs]
  cases h : m.program.load s with
  | ok p => exact Program.afterLoad_of_load h
  | error e => exact Program.afterLoad_of_error h

end

/-- Typing lines that can be taken over does nothing but take them over. -/
theorem enterAll_of_foldlM {texts : List String} {q : Program} (hc : m.control = .stopped)
    (h : texts.foldlM Program.load m.program = .ok q) :
    m.enterAll texts = { m with program := q } := by
  induction texts generalizing m with
  | nil =>
      cases h
      rfl
  | cons s texts ih =>
      rw [Program.foldlM_load_cons, bind_eq_ok_iff] at h
      obtain ⟨p, hp, h⟩ := h
      rw [enterAll, List.foldl_cons, enter_of_load hc hp]
      exact ih hc h

/-- A file is read as what its lines are when they are typed. The bytes of a file are those of one
list of lines; they are read as a program exactly when the lines are texts that can be taken over
one after the other, and a new machine into which the texts are typed then has this program and has
nothing to tell at any time. Otherwise the first line that is no text or cannot be taken over is
reported, in the second case with its position. A line is refused in a file with the same error with
which it is refused by a stopped machine that has the same program, and leaves the same program
behind, unless it is to be obeyed at once: such a line is refused in a file because it is one. -/
theorem ofFile_eq_typed (limit : UInt32) (bytes : List UInt8) :
    (∃ ls, (∀ ls', Text.HasLines bytes ls' ↔ ls' = ls) ∧
      (∀ p, Program.ofFile limit (.ok bytes) = .ok p ↔ (Program.empty limit).TakesOver ls p) ∧
      (∀ p texts, Program.ofFile limit (.ok bytes) = .ok p →
        ls.map Text.decode? = texts.map some →
          (new limit).enterAll texts = { new limit with program := p } ∧
          ∀ k, ((new limit).enterAll (texts.take k)).queue = []) ∧
      ∀ f, Program.ofFile limit (.ok bytes) = .error f ↔
        ∃ before l after q, ls = before ++ l :: after ∧ (Program.empty limit).TakesOver before q ∧
          q.Refuses l (before.length + 1) f) ∧
    (∀ i e, (FileFault.badLine i e).message =
      e.message ++ " in line " ++ i.repr ++ " of the file. (Not BASIC line number)") ∧
    ∀ (m : Machine) s, m.control = .stopped →
      (Line.IsForNow s → m.program.load s = .error .directInFile) ∧
      (¬ Line.IsForNow s →
        (∀ e, m.program.load s = .error e ↔ (m.enter s).2.queue = m.queue ++ [.error e]) ∧
        (∀ p, m.program.load s = .ok p ↔ (m.enter s).2 = { m with program := p }) ∧
        m.program.afterLoad s = (m.enter s).2.program) := by
  have hlines : Text.fileLines bytes = ((Text.cut bytes).map Text.stripEnd).map Text.decode? := by
    rw [List.map_map]
    rfl
  refine ⟨⟨_, fun _ => Text.hasLines_iff, fun p => ?_, fun p texts hp htexts => ?_, fun f => ?_⟩,
    fun _ _ => rfl, fun m s hc => ⟨m.program.load_of_isForNow, fun hs => ?_⟩⟩
  · rw [Program.ofFile, Program.ofBytes, hlines, Program.loadLines_eq_ok_iff]
  · rw [Program.ofFile, Program.ofBytes, hlines, Program.loadLines_eq_ok_iff] at hp
    obtain ⟨texts', htexts', hload⟩ := hp
    obtain rfl : texts' = texts :=
      (List.map_inj_right fun _ _ => Option.some.inj).1 (htexts'.symm.trans htexts)
    refine ⟨enterAll_of_foldlM (m := new limit) rfl hload, fun k => ?_⟩
    rw [← List.take_append_drop k texts', List.foldlM_append, bind_eq_ok_iff] at hload
    obtain ⟨q, hq, _⟩ := hload
    rw [enterAll_of_foldlM (m := new limit) rfl hq]
    rfl
  · rw [Program.ofFile, Program.ofBytes, hlines, Program.loadLines_eq_error_iff]
    simp only [Nat.add_comm 1]
  · exact ⟨fun e => load_eq_error_iff hc hs, fun p => load_eq_ok_iff hc hs,
      afterLoad_eq_program_enter hc hs⟩

/-- A file with both ends of lines, whose last line removes another one although a carriage return
is left in it; a file whose second line is to be obeyed at once; and a line that is refused for its
number. -/
theorem ofFile_eq_typed_of_bare_line :
    let bytes := "10 REM é \r\n20 PRINT 1\n\n10\r".toUTF8.data.toList
    let texts := ["10 REM é ", "20 PRINT 1", "", "10\r"]
    let direct := "10 END\nRUN".toUTF8.data.toList
    (∃ p, Program.ofFile 3 (.ok bytes) = .ok p ∧
      (new 3).enterAll texts = { new 3 with program := p } ∧
      ((new 3).enterAll (texts.take 2)).queue = []) ∧
    (∃ before l after, ∃ q : Program, Text.HasLines direct (before ++ l :: after) ∧
      q.Refuses l (before.length + 1) (.badLine 2 .directInFile)) ∧
    (new 3).control = .stopped ∧ ¬ Line.IsForNow "0 END" ∧
      ((new 3).enter "0 END").2.queue = [.error .numberZero] := by
  intro bytes texts direct
  obtain ⟨⟨ls, hls, _, hok, _⟩, _, hline⟩ := ofFile_eq_typed 3 bytes
  obtain ⟨⟨_, hdirect, _, _, herror⟩, _, _⟩ := ofFile_eq_typed 3 direct
  obtain ⟨p, hp⟩ : ∃ p, Program.ofFile 3 (.ok bytes) = .ok p := by
    have hsome : (Program.ofFile 3 (.ok bytes)).toOption.isSome = true := by decide +kernel
    cases h : Program.ofFile 3 (.ok bytes) with
    | error f =>
        rw [h] at hsome
        cases hsome
    | ok p => exact ⟨p, rfl⟩
  have htexts : ls.map Text.decode? = texts.map some := by
    rw [← (hls _).1 (Text.hasLines_map_cut bytes)]
    decide +kernel
  have hrefused : Program.ofFile 3 (.ok direct) = .error (.badLine 2 .directInFile) := by
    decide +kernel
  have hzero : (new 3).program.load "0 END" = .error .numberZero := by
    decide +kernel
  have hnow : ¬ Line.IsForNow "0 END" := fun h => by
    have hnumber : (Line.ofText "0 END").number = some 0 := by decide +kernel
    cases hnumber.symm.trans h.number
  obtain ⟨hentered, hqueue⟩ := hok p texts hp htexts
  obtain ⟨before, l, after, q, hbefore, _, hrefuses⟩ := (herror _).1 hrefused
  obtain ⟨herror, _⟩ := (hline (new 3) "0 END" rfl).2 hnow
  refine ⟨⟨p, hp, hentered, hqueue 2⟩, ⟨before, l, after, q, (hdirect _).2 hbefore.symm, hrefuses⟩,
    rfl, hnow, (herror .numberZero).1 hzero⟩

end Machine

end IntegerBasic
