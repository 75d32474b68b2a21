import IntegerBasic.Expr.Evaluation
import IntegerBasic.Proofs.Expr.Reading

/-!
# How high an expression is

Evaluating an expression and writing it as a text walk through its levels by calls, each of which
makes calls for the two operands. `evalWithin vars depth e` and `textWithin depth e` are the same
walks with no more than `depth` calls open at a time, and no result if that is too few.
`TakesLevels r` says that the reader `r` takes a token at least for each level of what it reads.

The main statements are that the height of an expression is the number of calls that its walks have
open at a time, and that the reader takes a token for each level.
-/

namespace IntegerBasic

namespace Expr

def evalWithin (vars : Variables) : Nat → Expr → Option (Except EvalFault Value)
  | 0, _ => none
  | _ + 1, .int v => some (.ok v)
  | _ + 1, .var x => some (vars.fetch x)
  | depth + 1, .binary op l r =>
    match evalWithin vars depth l with
    | none => none
    | some (.error f) => some (.error f)
    | some (.ok a) =>
      match evalWithin vars depth r with
      | none => none
      | some (.error f) => some (.error f)
      | some (.ok b) => some (op.apply a b)

def textWithin : Nat → Expr → Option String
  | 0, _ => none
  | _ + 1, .int v => some v.text
  | _ + 1, .var x => some x
  | depth + 1, .binary op l r =>
    (textWithin depth l).bind fun s =>
      (textWithin depth r).map fun t => "(" ++ s ++ " " ++ op.sign ++ " " ++ t ++ ")"

/-- Both walks come to their results with at most so many calls open at a time, whatever the
variables are. -/
def WalksWithin (depth : Nat) (e : Expr) : Prop :=
  (∀ vars, e.evalWithin vars depth = some (e.eval vars)) ∧ e.textWithin depth = some e.text

section Walks

variable {vars : Variables} {depth : Nat} {e l r : Expr} {op : Operation}

theorem height_binary_le_succ_iff :
    (Expr.binary op l r).height ≤ depth + 1 ↔ l.height ≤ depth ∧ r.height ≤ depth := by
  rw [height, Nat.add_le_add_iff_right, Nat.max_le]

theorem not_height_le_zero (e : Expr) : ¬ e.height ≤ 0 :=
  Nat.not_le_of_lt e.height_pos

theorem evalWithin_of_height_le (h : e.height ≤ depth) :
    e.evalWithin vars depth = some (e.eval vars) := by
  induction depth generalizing e with
  | zero => exact absurd h (not_height_le_zero e)
  | succ depth ih =>
      cases e with
      | int v | var x => rfl
      | binary op l r =>
          obtain ⟨hl, hr⟩ := height_binary_le_succ_iff.1 h
          rw [evalWithin, eval, ih hl, ih hr]
          cases l.eval vars with
          | error f => rfl
          | ok a => cases r.eval vars <;> rfl

theorem height_le_of_evalWithin {v : Value} (h : e.evalWithin vars depth = some (.ok v)) :
    e.height ≤ depth := by
  induction depth generalizing e v with
  | zero => cases h
  | succ depth ih =>
      cases e with
      | int w | var x => exact Nat.succ_le_succ (Nat.zero_le depth)
      | binary op l r =>
          rw [evalWithin] at h
          split at h
          · cases h
          · cases h
          · next a ha =>
              split at h
              · cases h
              · cases h
              · next b hb => exact height_binary_le_succ_iff.2 ⟨ih ha, ih hb⟩

/-- An expression that has a value is evaluated with exactly the calls for its levels. -/
theorem evalWithin_eq_some_ok_iff {v : Value} :
    e.evalWithin vars depth = some (.ok v) ↔ e.height ≤ depth ∧ e.eval vars = .ok v := by
  constructor
  · intro h
    have hle := height_le_of_evalWithin h
    rw [evalWithin_of_height_le hle] at h
    exact ⟨hle, Option.some.inj h⟩
  · rintro ⟨hle, hv⟩
    rw [evalWithin_of_height_le hle, hv]

/-- Every expression is written with exactly the calls for its levels. -/
theorem textWithin_eq_some_iff {s : String} :
    e.textWithin depth = some s ↔ e.height ≤ depth ∧ s = e.text := by
  induction depth generalizing e s with
  | zero => exact iff_of_false (fun h => by cases h) fun h => not_height_le_zero e h.1
  | succ depth ih =>
      cases e with
      | int v | var x => simp [textWithin, height, text, eq_comm]
      | binary op l r =>
          rw [height_binary_le_succ_iff, textWithin, text]
          constructor
          · intro h
            obtain ⟨t, ht, h⟩ := Option.bind_eq_some_iff.1 h
            obtain ⟨u, hu, rfl⟩ := Option.map_eq_some_iff.1 h
            obtain ⟨hl, rfl⟩ := ih.1 ht
            obtain ⟨hr, rfl⟩ := ih.1 hu
            exact ⟨⟨hl, hr⟩, rfl⟩
          · rintro ⟨⟨hl, hr⟩, rfl⟩
            exact Option.bind_eq_some_iff.2
              ⟨_, ih.2 ⟨hl, rfl⟩, Option.map_eq_some_iff.2 ⟨_, ih.2 ⟨hr, rfl⟩, rfl⟩⟩

/-- The height of an expression is the number of calls that its walks have open at a time. -/
theorem walksWithin_iff : e.WalksWithin depth ↔ e.height ≤ depth := by
  constructor
  · rintro ⟨_, htext⟩
    exact (textWithin_eq_some_iff.1 htext).1
  · intro h
    exact ⟨fun _ => evalWithin_of_height_le h, textWithin_eq_some_iff.2 ⟨h, rfl⟩⟩

end Walks

section Reading

variable {join? : Operator → Option Operation} {operand : Reader}

/-- The reader takes a token at least for each level of what it reads. -/
def TakesLevels (r : Reader) : Prop :=
  ∀ ts e rest, Reads r ts e rest → e.height + rest.length ≤ ts.length

/-- Going on with a chain keeps within the tokens: the level that an operation puts on top takes its
operator. -/
theorem TakesLevels.tail (h : TakesLevels operand) {e e' : Expr} {ts rest : List Token}
    (ht : Tail join? operand e ts e' rest) {n : Nat} (hn : e.height + ts.length ≤ n) :
    e'.height + rest.length ≤ n := by
  induction ht with
  | stop => exact hn
  | @step e f e' us rest rest' o op ho hf _ ih =>
      have hoperand := h us f rest hf
      refine ih ?_
      rw [List.length_cons] at hn
      rw [height]
      omega

theorem TakesLevels.leftChain (h : TakesLevels operand) :
    TakesLevels (leftChain join? operand) := by
  intro ts e rest hr
  obtain ⟨e₀, rest₀, h₀, ht⟩ := reads_leftChain_iff.1 hr
  exact h.tail ht (h ts e₀ rest₀ h₀)

theorem takesLevels_factor (level : Nat) : TakesLevels (factor level) := by
  induction level with
  | zero =>
      rintro ts e rest ⟨_, h⟩
      rw [factor_zero] at h
      cases h
  | succ level ih =>
      have hsum : TakesLevels (sum (factor level)) := ih.leftChain.leftChain
      intro ts e rest h
      cases reads_factor_succ_iff.1 h with
      | var | number | negative =>
          simp only [height, List.length_cons]
          omega
      | @negation us _ e _ h =>
          have hoperand := ih us e rest h
          have hpos := e.height_pos
          simp only [height, List.length_cons]
          omega
      | @paren us _ _ h =>
          have hinner := hsum us e _ h
          simp only [List.length_cons] at hinner ⊢
          omega

theorem takesLevels_read : TakesLevels read :=
  (takesLevels_factor maxNesting).leftChain.leftChain

end Reading

end Expr

end IntegerBasic
