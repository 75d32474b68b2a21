import IntegerBasic.Proofs.Expr.Grammar
import IntegerBasic.Proofs.Token.Spelling
import IntegerBasic.Statement.Parser

/-!
# The tokens of an expression

An expression is written as the tokens `tokens e`. The main statements say that these are
spelled, as far as the names in the expression are names, that the grammar derives the
expression from them if it is not higher than there are levels, and that reading them runs
out of levels if it is.
-/

namespace IntegerBasic

def IsName (x : String) : Prop :=
  (∃ c cs, x = String.ofList (c :: cs) ∧ c.isAlpha = true ∧
    ∀ b ∈ cs, Token.isWordChar b = true) ∧ ∀ w : ReservedWord, w.text ≠ x

theorem IsName.ofWord_eq {x : String} (h : IsName x) : Token.ofWord x = .ident x := by
  rw [Token.ofWord, ReservedWord.ofText?_eq_none_iff.2 h.2]

theorem IsName.spelled {x : String} (h : IsName x) {ts : List Token} (hts : Token.Spelled ts)
    (hn : ∀ b ∈ Token.initial? ts, Token.isWordChar b = false) :
    Token.Spelled (.ident x :: ts) := by
  have hx := h.ofWord_eq
  obtain ⟨⟨c, cs, rfl, hc, hcs⟩, _⟩ := h
  rw [← hx]
  refine .word hc hcs ?_ hts hn
  rw [hx]
  exact Token.noConfusion

theorem IsName.isBlank_initial? {x : String} (h : IsName x) (ts : List Token) :
    ∀ c ∈ Token.initial? (.ident x :: ts), Text.isBlank c = false := by
  obtain ⟨⟨c, cs, rfl, hc, _⟩, _⟩ := h
  exact Token.forall_initial?_cons String.toList_ofList (Token.isBlank_eq_false_of_isAlpha hc)

theorem isDigit_eq_false_of_isWordChar {c : Char} (h : Token.isWordChar c = false) :
    c.isDigit = false := by
  simp only [Token.isWordChar, Char.isAlphanum, Bool.or_eq_false_iff] at h
  exact h.1.2

theorem toList_repr_ne_nil (n : Nat) : n.repr.toList ≠ [] :=
  Nat.toList_repr ▸ Nat.toDigits_ne_nil

theorem spelled_literal_repr (n : Nat) {ts : List Token} (hts : Token.Spelled ts)
    (hn : ∀ b ∈ Token.initial? ts, Token.isWordChar b = false) :
    Token.Spelled (.literal n.repr :: ts) := by
  have hdigit : ∀ c ∈ n.repr.toList, c.isDigit = true := fun _ => Text.isDigit_of_mem_repr
  obtain ⟨c, cs, hc⟩ := List.exists_cons_of_ne_nil (toList_repr_ne_nil n)
  have hrepr : n.repr = String.ofList (c :: cs) := String.toList_injective (by simpa using hc)
  rw [hc] at hdigit
  rw [hrepr]
  exact .literal (hdigit c List.mem_cons_self) (fun b hb => hdigit b (List.mem_cons_of_mem _ hb))
    hts fun b hb => isDigit_eq_false_of_isWordChar (hn b hb)

theorem isBlank_initial?_literal_repr (n : Nat) (ts : List Token) :
    ∀ c ∈ Token.initial? (.literal n.repr :: ts), Text.isBlank c = false := by
  obtain ⟨c, cs, hc⟩ := List.exists_cons_of_ne_nil (toList_repr_ne_nil n)
  have hdigit : c.isDigit = true := Text.isDigit_of_mem_repr (hc ▸ List.mem_cons_self)
  exact Token.forall_initial?_cons hc (Token.isBlank_eq_false_of_isDigit hdigit)

def Operation.operator : Operation → Operator
  | .multiply => .multiply
  | .divide => .divide
  | .add => .plus
  | .subtract => .minus

def Value.tokens (v : Value) : List Token :=
  if 0 ≤ v.toInt then [.literal v.toInt.toNat.repr]
  else [.operator .minus, .literal (-v.toInt).toNat.repr]

theorem Value.textOf_tokens (v : Value) : Token.textOf v.tokens = v.text := by
  unfold tokens text
  rw [Int.repr_eq_if]
  split
  · simp [Token.text]
  · simp [Token.text, Operator.text]

namespace Expr

def tokens : Expr → List Token
  | .int v => v.tokens
  | .var x => [.ident x]
  | .binary op l r =>
    .leftParen :: l.tokens ++ .blanks 1 :: .operator op.operator :: .blanks 1 :: r.tokens ++
      [.rightParen]

def names : Expr → List String
  | .int _ => []
  | .var x => [x]
  | .binary _ l r => l.names ++ r.names

theorem textOf_tokens (e : Expr) : Token.textOf e.tokens = e.text := by
  induction e with
  | int v => exact v.textOf_tokens
  | var x => simp [tokens, text, Token.text]
  | binary op l r ihl ihr =>
      have hop : op.operator.text = op.sign := by cases op <;> rfl
      simp [tokens, text, ihl, ihr, Token.text, hop, String.append_assoc]

theorem isBlank_initial?_tokens {e : Expr} (he : ∀ x ∈ e.names, IsName x) (ts : List Token) :
    ∀ c ∈ Token.initial? (e.tokens ++ ts), Text.isBlank c = false := by
  cases e with
  | int v =>
      rw [tokens, Value.tokens]
      split
      · exact isBlank_initial?_literal_repr _ ts
      · exact Token.isBlank_initial?_operator .minus
  | var x => exact (he x (by simp [names])).isBlank_initial? ts
  | binary op l r =>
      have htext : Token.leftParen.text.toList = ['('] := rfl
      exact Token.forall_initial?_cons htext rfl

theorem spelled_tokens_append {e : Expr} (he : ∀ x ∈ e.names, IsName x) {ts : List Token}
    (hts : Token.Spelled ts) (hn : ∀ b ∈ Token.initial? ts, Token.isWordChar b = false) :
    Token.Spelled (e.tokens ++ ts) := by
  induction e generalizing ts with
  | int v =>
      rw [tokens, Value.tokens]
      split
      · exact spelled_literal_repr _ hts hn
      · exact (spelled_literal_repr _ hts hn).operator .minus
  | var x => exact (he x (by simp [names])).spelled hts hn
  | binary op l r ihl ihr =>
      have hl : ∀ x ∈ l.names, IsName x := fun x hx => he x (by simp [names, hx])
      have hr : ∀ x ∈ r.names, IsName x := fun x hx => he x (by simp [names, hx])
      have hclose := ihr hr hts.rightParen Token.isWordChar_initial?_rightParen
      have hright := (hclose.blank (isBlank_initial?_tokens hr _)).operator op.operator
      have hop := hright.blank (Token.isBlank_initial?_operator _)
      have hleft := ihl hl hop Token.isWordChar_initial?_blank
      simpa [tokens] using hleft.leftParen

theorem getLast?_tokens (e : Expr) : ∃ t, e.tokens.getLast? = some t ∧ t.IsRegular := by
  cases e with
  | int v =>
      rw [tokens, Value.tokens]
      split <;> exact ⟨_, rfl, rfl, by simp⟩
  | var x => exact ⟨_, rfl, rfl, by simp⟩
  | binary op l r => exact ⟨_, by rw [tokens, List.getLast?_concat], rfl, by simp⟩

theorem significant_tokens_binary (op : Operation) (l r : Expr) :
    Token.significant (binary op l r).tokens =
      .leftParen :: (Token.significant l.tokens ++
        .operator op.operator :: Token.significant r.tokens) ++ [.rightParen] := by
  simp [tokens, Token.significant, Token.isBlanks]

section

variable {deepest d : Nat}

theorem Derives.sum_binary {us vs : List Token} {l r : Expr} (op : Operation)
    (hl : Derives deepest .factor d us l) (hr : Derives deepest .factor d vs r) :
    Derives deepest .sum d (us ++ .operator op.operator :: vs) (.binary op l r) := by
  cases op with
  | multiply => exact .ofProduct (.multiply (.ofFactor hl) hr)
  | divide => exact .ofProduct (.divide (.ofFactor hl) hr)
  | add => exact .plus (.ofProduct (.ofFactor hl)) (.ofFactor hr)
  | subtract => exact .minus (.ofProduct (.ofFactor hl)) (.ofFactor hr)

theorem derives_int (v : Value) (hd : d ≤ deepest) :
    Derives deepest .factor d (Token.significant v.tokens) (.int v) := by
  have hdigits (n : Nat) : Text.digits? n.repr.toList = some n := by
    rw [Nat.toList_repr, Text.digits?_toDigits]
  rw [Value.tokens]
  split
  · next h => exact .number hd (hdigits _) (Int.toNat_of_nonneg h).symm
  · next h => exact .negative hd (hdigits _) (by omega)

theorem derives_tokens {e : Expr} (h : e.height + d ≤ deepest + 1) :
    Derives deepest .factor d (Token.significant e.tokens) e := by
  induction e generalizing d with
  | int v => exact derives_int v (by simp only [height] at h; omega)
  | var x => exact .var (by simp only [height] at h; omega)
  | binary op l r ihl ihr =>
      rw [height] at h
      have hl := ihl (d := d + 1) (by omega)
      have hr := ihr (d := d + 1) (by omega)
      rw [significant_tokens_binary]
      exact .paren (by omega) (hl.sum_binary op hr)

end

theorem sum_of_reads_of_error {n : Nat} {ts us : List Token} {e : Expr} {op : Operation}
    {f : SyntaxFault} (h : Reads (factor n) ts e (.operator op.operator :: us))
    (hf : factor n us = .error f) : sum (factor n) ts = .error f := by
  have hends {o : Operator} (ho : multiplicative? o = none) :
      Ends multiplicative? (.operator o :: us) := ends_operator_of_eq_none ho us
  cases op with
  | multiply | divide => exact leftChain_of_error (leftChain_of_reads_of_error h rfl hf)
  | add =>
      have hproduct := reads_leftChain_of_ends h (hends (o := .plus) rfl)
      exact leftChain_of_reads_of_error hproduct rfl (leftChain_of_error hf)
  | subtract =>
      have hproduct := reads_leftChain_of_ends h (hends (o := .minus) rfl)
      exact leftChain_of_reads_of_error hproduct rfl (leftChain_of_error hf)

/-- A factor that is read from the tokens of an expression higher than the levels that are
left runs out of them. -/
theorem factor_eq_error {n : Nat} {e : Expr} (h : n < e.height) (rest : List Token) :
    factor n (Token.significant e.tokens ++ rest) = .error .expressionTooComplex := by
  induction e generalizing n rest with
  | int v =>
      obtain rfl : n = 0 := by simp only [height] at h; omega
      exact factor_zero _
  | var x =>
      obtain rfl : n = 0 := by simp only [height] at h; omega
      exact factor_zero _
  | binary op l r ihl ihr =>
      cases n with
      | zero => exact factor_zero _
      | succ n =>
          rw [height] at h
          have happend : Token.significant (binary op l r).tokens ++ rest =
              .leftParen :: (Token.significant l.tokens ++ .operator op.operator ::
                (Token.significant r.tokens ++ .rightParen :: rest)) := by
            simp [significant_tokens_binary]
          rw [happend]
          by_cases hl : n < l.height
          · exact factor_succ_leftParen_of_error
              (leftChain_of_error (leftChain_of_error (ihl hl _)))
          · have hl' : Derives n .factor 1 _ l := derives_tokens (by omega)
            have hread : ReadsRank n _ l .factor := readsRank_of_derives hl' rfl
            have hr := ihr (n := n) (by omega) (.rightParen :: rest)
            exact factor_succ_leftParen_of_error (sum_of_reads_of_error (hread _) hr)

theorem read_eq_error {e : Expr} (h : 64 < e.height) (rest : List Token) :
    read (Token.significant e.tokens ++ rest) = .error .expressionTooComplex :=
  leftChain_of_error (leftChain_of_error (factor_eq_error h rest))

theorem read_tokens_eq_error {e : Expr} (h : 64 < e.height) :
    read (Token.significant e.tokens) = .error .expressionTooComplex := by
  have hread := read_eq_error h []
  rwa [List.append_nil] at hread

theorem derives_tokens_of_height_le {e : Expr} (h : e.height ≤ 64) :
    Derives 64 .sum 1 (Token.significant e.tokens) e :=
  .ofProduct (.ofFactor (derives_tokens (by omega)))

end Expr

end IntegerBasic
