import IntegerBasic.Machine
import IntegerBasic.Proofs.Expr.Exactness
import IntegerBasic.Proofs.Text.Answers
import Mathlib.Logic.Function.Basic

/-!
# The control-flow loop

The loop by which a program is meant to run, without a machine. Its variables are a map from
names to integers, and expressions are evaluated by rules of its own: `Gives env e a` says that
`e` has the value `a`, and `Faults env e k` that evaluating `e` ends with an error of the kind
`k`. `Acts code limit s t s'` says that one line is executed in the state `s`, that `t` is shown
meanwhile, and that the loop goes on in `s'`, if it does. `Shows code limit env answers t` says
that `t` is shown by a whole run.

A program is a map from line numbers to statements here. Questions are answered by the texts
of a list; a question that is left open ends what is shown.

The main statement says that in every state something happens.
-/

namespace IntegerBasic

namespace Loop

abbrev Code : Type :=
  LineNumber → Option Statement

abbrev Env : Type :=
  String → Option Int

/-- The events that are shown, each with the variables at that time. -/
abbrev Trace : Type :=
  List (Event × Env)

/-- A state of the loop: the line to execute, unless the program is over, how often each line
was attempted, the variables, and the answers that are left. -/
structure State where
  place : Option LineNumber
  counts : LineNumber → Nat
  env : Env
  answers : List String

def IsLeast (S : LineNumber → Prop) : Option LineNumber → Prop
  | some n => S n ∧ ∀ k, S k → n ≤ k
  | none => ∀ k, ¬ S k

def Follows (code : Code) (n : LineNumber) : Option LineNumber → Prop :=
  IsLeast fun k => code k ≠ none ∧ n < k

/-- The exact result of an operation. A quotient is cut off toward zero; there is none by zero. -/
inductive Computes : Operation → Int → Int → Int → Prop
  | multiply (a b : Int) : Computes .multiply a b (a * b)
  | divide (a : Int) {b : Int} (hb : b ≠ 0) : Computes .divide a b (a.tdiv b)
  | add (a b : Int) : Computes .add a b (a + b)
  | subtract (a b : Int) : Computes .subtract a b (a - b)

inductive Gives (env : Env) : Expr → Int → Prop
  | int (v : Value) : Gives env (.int v) v.toInt
  | var {x : String} {a : Int} (h : env x = some a) : Gives env (.var x) a
  | binary {op : Operation} {l r : Expr} {a b c : Int} (hl : Gives env l a) (hr : Gives env r b)
      (h : Computes op a b c) (hc : Value.InRange c) : Gives env (.binary op l r) c

/-- Evaluating the expression from left to right ends with an error of the kind. -/
inductive Faults (env : Env) : Expr → ErrorKind → Prop
  | unset {x : String} (h : env x = none) : Faults env (.var x) .undefinedVariable
  | left {op : Operation} {l r : Expr} {k : ErrorKind} (hl : Faults env l k) :
      Faults env (.binary op l r) k
  | right {op : Operation} {l r : Expr} {a : Int} {k : ErrorKind} (hl : Gives env l a)
      (hr : Faults env r k) : Faults env (.binary op l r) k
  | zero {l r : Expr} {a : Int} (hl : Gives env l a) (hr : Gives env r 0) :
      Faults env (.binary .divide l r) .divisionByZero
  | range {op : Operation} {l r : Expr} {a b c : Int} (hl : Gives env l a) (hr : Gives env r b)
      (h : Computes op a b c) (hc : ¬ Value.InRange c) : Faults env (.binary op l r) .overflow

/-- The statement has no effect, because an expression in it has no value. -/
inductive Fails (env : Env) : Statement → ErrorKind → Prop
  | assign {x : String} {e : Expr} {k : ErrorKind} (h : Faults env e k) :
      Fails env (.assign x e) k
  | print {e : Expr} {k : ErrorKind} (h : Faults env e k) : Fails env (.print e) k
  | left {l r : Expr} {rel : Relation} {target : LineNumber} {k : ErrorKind}
      (h : Faults env l k) : Fails env (.branch l rel r target) k
  | right {l r : Expr} {rel : Relation} {target : LineNumber} {a : Int} {k : ErrorKind}
      (h : Gives env l a) (h' : Faults env r k) : Fails env (.branch l rel r target) k

/-- The text is a numeral for a value, after white space. -/
def Accepts (s : String) (a : Int) : Prop :=
  Text.Answers s a ∧ Value.InRange a

/-- What is shown while a question is answered by texts that are no numbers. -/
def asked {V : Type} (vars : V) (invalid : List String) : List (Event × V) :=
  (.input " ? ", vars) :: invalid.flatMap fun _ =>
    [(.message (.print "INVALID NUMBER\n"), vars), (.input " ? ", vars)]

def attempt (counts : LineNumber → Nat) (n : LineNumber) : LineNumber → Nat :=
  Function.update counts n (counts n + 1)

theorem attempt_self (counts : LineNumber → Nat) (n : LineNumber) :
    attempt counts n n = counts n + 1 :=
  Function.update_self n _ counts

theorem attempt_of_ne {k n : LineNumber} (h : k ≠ n) (counts : LineNumber → Nat) :
    attempt counts n k = counts k :=
  Function.update_of_ne h _ counts

section

variable (code : Code) (limit : Nat)

/-- What happens at one line, and where the loop goes on, if it does. -/
inductive Acts : State → Trace → Option State → Prop
  | finish {c : LineNumber → Nat} {env : Env} {as : List String} :
      Acts ⟨none, c, env, as⟩ [(.stopped, env)] none
  | missing {n : LineNumber} {c : LineNumber → Nat} {env : Env} {as : List String}
      (hn : code n = none) :
      Acts ⟨some n, c, env, as⟩
        [(.message (.error { kind := .lineNumberError }), env), (.stopped, env)] none
  | exhausted {n : LineNumber} {c : LineNumber → Nat} {env : Env} {as : List String}
      {s : Statement} (hn : code n = some s) (hl : limit ≤ c n + 1) :
      Acts ⟨some n, c, env, as⟩
        [(.message (.error { kind := .executionLimit }), env), (.stopped, env)] none
  | fault {n : LineNumber} {c : LineNumber → Nat} {env : Env} {as : List String}
      {s : Statement} {k : ErrorKind} (hn : code n = some s) (hl : c n + 1 < limit)
      (hf : Fails env s k) :
      Acts ⟨some n, c, env, as⟩ [(.message (.error { kind := k }), env), (.stopped, env)] none
  | assign {n : LineNumber} {c : LineNumber → Nat} {env : Env} {as : List String}
      {x : String} {e : Expr} {a : Int} {k : Option LineNumber}
      (hn : code n = some (.assign x e)) (hl : c n + 1 < limit) (he : Gives env e a)
      (hk : Follows code n k) :
      Acts ⟨some n, c, env, as⟩ []
        (some ⟨k, attempt c n, Function.update env x (some a), as⟩)
  | print {n : LineNumber} {c : LineNumber → Nat} {env : Env} {as : List String}
      {e : Expr} {a : Int} {k : Option LineNumber} (hn : code n = some (.print e))
      (hl : c n + 1 < limit) (he : Gives env e a) (hk : Follows code n k) :
      Acts ⟨some n, c, env, as⟩ [(.message (.print (a.repr ++ "\n")), env)]
        (some ⟨k, attempt c n, env, as⟩)
  | remark {n : LineNumber} {c : LineNumber → Nat} {env : Env} {as : List String}
      {r : String} {k : Option LineNumber} (hn : code n = some (.remark r))
      (hl : c n + 1 < limit) (hk : Follows code n k) :
      Acts ⟨some n, c, env, as⟩ [] (some ⟨k, attempt c n, env, as⟩)
  | input {n : LineNumber} {c : LineNumber → Nat} {env : Env} {invalid as : List String}
      {x s : String} {a : Int} {k : Option LineNumber} (hn : code n = some (.input x))
      (hl : c n + 1 < limit) (hinvalid : ∀ b ∈ invalid, ∀ a, ¬ Accepts b a)
      (hs : Accepts s a) (hk : Follows code n k) :
      Acts ⟨some n, c, env, invalid ++ s :: as⟩ (asked env invalid)
        (some ⟨k, attempt c n, Function.update env x (some a), as⟩)
  | unanswered {n : LineNumber} {c : LineNumber → Nat} {env : Env} {invalid : List String}
      {x : String} (hn : code n = some (.input x)) (hl : c n + 1 < limit)
      (hinvalid : ∀ b ∈ invalid, ∀ a, ¬ Accepts b a) :
      Acts ⟨some n, c, env, invalid⟩ (asked env invalid) none
  | goto {n target : LineNumber} {c : LineNumber → Nat} {env : Env} {as : List String}
      (hn : code n = some (.goto target)) (hl : c n + 1 < limit) :
      Acts ⟨some n, c, env, as⟩ [] (some ⟨some target, attempt c n, env, as⟩)
  | jump {n target : LineNumber} {c : LineNumber → Nat} {env : Env} {as : List String}
      {l r : Expr} {rel : Relation} {a b : Int} (hn : code n = some (.branch l rel r target))
      (hl : c n + 1 < limit) (ha : Gives env l a) (hb : Gives env r b)
      (hrel : rel.Relates a b) :
      Acts ⟨some n, c, env, as⟩ [] (some ⟨some target, attempt c n, env, as⟩)
  | pass {n target : LineNumber} {c : LineNumber → Nat} {env : Env} {as : List String}
      {l r : Expr} {rel : Relation} {a b : Int} {k : Option LineNumber}
      (hn : code n = some (.branch l rel r target)) (hl : c n + 1 < limit)
      (ha : Gives env l a) (hb : Gives env r b) (hrel : ¬ rel.Relates a b)
      (hk : Follows code n k) :
      Acts ⟨some n, c, env, as⟩ [] (some ⟨k, attempt c n, env, as⟩)
  | halt {n : LineNumber} {c : LineNumber → Nat} {env : Env} {as : List String}
      (hn : code n = some .halt) (hl : c n + 1 < limit) :
      Acts ⟨some n, c, env, as⟩ [(.stopped, env)] none

/-- What is shown from a state on, until the loop is over or a question is left open. -/
inductive Runs : State → Trace → Prop
  | done {s : State} {t : Trace} (h : Acts code limit s t none) : Runs s t
  | step {s s' : State} {t t' : Trace} (h : Acts code limit s t (some s')) (h' : Runs s' t') :
      Runs s (t ++ t')

/-- What is shown by a run, which starts at the least stored line. -/
def Shows (env : Env) (answers : List String) (t : Trace) : Prop :=
  ∃ first, IsLeast (fun n => code n ≠ none) first ∧
    Runs code limit ⟨first, fun _ => 0, env, answers⟩ t

end

theorem IsLeast.unique {S : LineNumber → Prop} {m n : Option LineNumber} (hm : IsLeast S m)
    (hn : IsLeast S n) : m = n := by
  cases m with
  | none =>
      cases n with
      | none => rfl
      | some n => exact absurd hn.1 (hm n)
  | some m =>
      cases n with
      | none => exact absurd hm.1 (hn m)
      | some n => exact congrArg some (UInt32.le_antisymm (hm.2 n hn.1) (hn.2 m hm.1))

theorem map_asked {V W : Type} (f : V → W) (vars : V) (invalid : List String) :
    (asked vars invalid).map (fun o => (o.1, f o.2)) = asked (f vars) invalid := by
  simp only [asked, List.map_cons, List.map_flatMap, List.map_nil]

theorem exists_computes (op : Operation) {a b : Int} (h : ¬ (op = .divide ∧ b = 0)) :
    ∃ c, Computes op a b c := by
  cases op with
  | multiply => exact ⟨_, .multiply a b⟩
  | divide => exact ⟨_, .divide a fun hb => h ⟨rfl, hb⟩⟩
  | add => exact ⟨_, .add a b⟩
  | subtract => exact ⟨_, .subtract a b⟩

theorem exists_gives_or_faults (env : Env) (e : Expr) :
    (∃ a, Gives env e a) ∨ ∃ k, Faults env e k := by
  induction e with
  | int v => exact .inl ⟨_, .int v⟩
  | var x =>
      cases hx : env x with
      | none => exact .inr ⟨_, .unset hx⟩
      | some a => exact .inl ⟨a, .var hx⟩
  | binary op l r ihl ihr =>
      rcases ihl with ⟨a, hl⟩ | ⟨k, hl⟩
      · rcases ihr with ⟨b, hr⟩ | ⟨k, hr⟩
        · by_cases hz : op = .divide ∧ b = 0
          · obtain ⟨rfl, rfl⟩ := hz
            exact .inr ⟨_, .zero hl hr⟩
          · obtain ⟨c, h⟩ := exists_computes op (a := a) hz
            by_cases hc : Value.InRange c
            · exact .inl ⟨c, .binary hl hr h hc⟩
            · exact .inr ⟨_, .range hl hr h hc⟩
        · exact .inr ⟨k, .right hl hr⟩
      · exact .inr ⟨k, .left hl⟩

theorem forall_invalid_or_exists (answers : List String) :
    (∀ b ∈ answers, ∀ a, ¬ Accepts b a) ∨
      ∃ invalid s as a, answers = invalid ++ s :: as ∧
        (∀ b ∈ invalid, ∀ a, ¬ Accepts b a) ∧ Accepts s a := by
  induction answers with
  | nil => exact .inl nofun
  | cons b bs ih =>
      by_cases hb : ∃ a, Accepts b a
      · obtain ⟨a, ha⟩ := hb
        exact .inr ⟨[], b, bs, a, rfl, nofun, ha⟩
      · rw [not_exists] at hb
        rcases ih with h | ⟨invalid, s, as, a, rfl, hinvalid, hs⟩
        · exact .inl (List.forall_mem_cons.2 ⟨hb, h⟩)
        · exact .inr ⟨b :: invalid, s, as, a, rfl, List.forall_mem_cons.2 ⟨hb, hinvalid⟩, hs⟩

/-- In every state something happens. -/
theorem exists_acts {code : Code} (limit : Nat) (hcode : ∀ n, ∃ k, Follows code n k) (s : State) :
    ∃ t s', Acts code limit s t s' := by
  obtain ⟨place, c, env, as⟩ := s
  cases place with
  | none => exact ⟨_, _, .finish⟩
  | some n =>
      obtain ⟨k, hk⟩ := hcode n
      cases hn : code n with
      | none => exact ⟨_, _, .missing hn⟩
      | some s =>
          by_cases hl : limit ≤ c n + 1
          · exact ⟨_, _, .exhausted hn hl⟩
          · have hl := Nat.lt_of_not_le hl
            cases s with
            | assign x e =>
                rcases exists_gives_or_faults env e with ⟨a, he⟩ | ⟨f, he⟩
                · exact ⟨_, _, .assign hn hl he hk⟩
                · exact ⟨_, _, .fault hn hl (.assign he)⟩
            | print e =>
                rcases exists_gives_or_faults env e with ⟨a, he⟩ | ⟨f, he⟩
                · exact ⟨_, _, .print hn hl he hk⟩
                · exact ⟨_, _, .fault hn hl (.print he)⟩
            | input x =>
                rcases forall_invalid_or_exists as with h | ⟨_, _, _, _, rfl, h, hs⟩
                · exact ⟨_, _, .unanswered hn hl h⟩
                · exact ⟨_, _, .input hn hl h hs hk⟩
            | remark r => exact ⟨_, _, .remark hn hl hk⟩
            | goto target => exact ⟨_, _, .goto hn hl⟩
            | branch l rel r target =>
                rcases exists_gives_or_faults env l with ⟨a, ha⟩ | ⟨f, ha⟩
                · rcases exists_gives_or_faults env r with ⟨b, hb⟩ | ⟨f, hb⟩
                  · by_cases hrel : rel.Relates a b
                    · exact ⟨_, _, .jump hn hl ha hb hrel⟩
                    · exact ⟨_, _, .pass hn hl ha hb hrel hk⟩
                  · exact ⟨_, _, .fault hn hl (.right ha hb)⟩
                · exact ⟨_, _, .fault hn hl (.left ha)⟩
            | halt => exact ⟨_, _, .halt hn hl⟩

end Loop

end IntegerBasic
