import IntegerBasic.Proofs.Expr.Reading

/-!
# The grammar of expressions

`Derives deepest r d ts e` says that the tokens `ts` are an expression `e` of rank `r`
at level `d`: a sum of products of factors, both chains grouped to the left. The inside of a
pair of parentheses, and the operand of a minus sign, are one level further in, and no
factor stands at a level above `deepest`. The operands of a chain all stand at the level
of the chain.

The main statements compare the grammar with the reader: it reads what the grammar
derives, and derives what it reads.
-/

namespace IntegerBasic

namespace Expr

inductive Rank
  | factor
  | product
  | sum

/-- The tokens `ts` are an expression `e` of a rank at a level. -/
inductive Derives (deepest : Nat) : Rank → Nat → List Token → Expr → Prop
  | var {d : Nat} {x : String} (hd : d ≤ deepest) :
      Derives deepest .factor d [.ident x] (.var x)
  | number {d k : Nat} {s : String} {v : Value} (hd : d ≤ deepest)
      (hs : Text.digits? s.toList = some k) (hv : v.toInt = k) :
      Derives deepest .factor d [.literal s] (.int v)
  | negative {d k : Nat} {s : String} {v : Value} (hd : d ≤ deepest)
      (hs : Text.digits? s.toList = some k) (hv : v.toInt = -k) :
      Derives deepest .factor d [.operator .minus, .literal s] (.int v)
  | negation {d : Nat} {us : List Token} {e : Expr} (hd : d ≤ deepest)
      (hl : ¬ StartsWithLiteral us) (h : Derives deepest .factor (d + 1) us e) :
      Derives deepest .factor d (.operator .minus :: us) (.binary .subtract (.int 0) e)
  | paren {d : Nat} {us : List Token} {e : Expr} (hd : d ≤ deepest)
      (h : Derives deepest .sum (d + 1) us e) :
      Derives deepest .factor d (.leftParen :: us ++ [.rightParen]) e
  | ofFactor {d : Nat} {us : List Token} {e : Expr} (h : Derives deepest .factor d us e) :
      Derives deepest .product d us e
  | multiply {d : Nat} {us vs : List Token} {e f : Expr} (h : Derives deepest .product d us e)
      (h' : Derives deepest .factor d vs f) :
      Derives deepest .product d (us ++ .operator .multiply :: vs) (.binary .multiply e f)
  | divide {d : Nat} {us vs : List Token} {e f : Expr} (h : Derives deepest .product d us e)
      (h' : Derives deepest .factor d vs f) :
      Derives deepest .product d (us ++ .operator .divide :: vs) (.binary .divide e f)
  | ofProduct {d : Nat} {us : List Token} {e : Expr} (h : Derives deepest .product d us e) :
      Derives deepest .sum d us e
  | plus {d : Nat} {us vs : List Token} {e f : Expr} (h : Derives deepest .sum d us e)
      (h' : Derives deepest .product d vs f) :
      Derives deepest .sum d (us ++ .operator .plus :: vs) (.binary .add e f)
  | minus {d : Nat} {us vs : List Token} {e f : Expr} (h : Derives deepest .sum d us e)
      (h' : Derives deepest .product d vs f) :
      Derives deepest .sum d (us ++ .operator .minus :: vs) (.binary .subtract e f)

/-- Every literal among the tokens is made of digits. -/
def Numerals (ts : List Token) : Prop :=
  ∀ d, Token.literal d ∈ ts → ∀ c ∈ d.toList, c.isDigit = true

theorem Numerals.of_suffix {ts us : List Token} (h : Numerals ts) (hs : us <:+ ts) :
    Numerals us :=
  fun d hd => h d (hs.subset hd)

theorem read?_eq_some_iff_of_isDigit {cs : List Char} {v : Value}
    (h : ∀ c ∈ cs, c.isDigit = true) :
    Value.read? cs = some v ↔ ∃ k : Nat, Text.digits? cs = some k ∧ v.toInt = k := by
  rw [Value.read?, Text.signed?_eq_digits? h]
  simp [Option.bind_map, Option.bind_eq_some_iff, Value.ofInt?_eq_some_iff]

theorem read?_minus_eq_some_iff {cs : List Char} {v : Value} :
    Value.read? ('-' :: cs) = some v ↔ ∃ k : Nat, Text.digits? cs = some k ∧ v.toInt = -k := by
  rw [Value.read?, Text.signed?]
  simp [Option.bind_map, Option.bind_eq_some_iff, Value.ofInt?_eq_some_iff]

section Soundness

variable {join? : Operator → Option Operation} {operand : Reader}
  {P Q : List Token → Expr → Prop}

/-- If `P` holds of what an operand is read from, and `Q` is kept by joining one more such
operand, then `Q` holds of what a chain is read from. -/
theorem exists_of_tail
    (hP : ∀ ts e rest, Numerals ts → Reads operand ts e rest → ∃ us, ts = us ++ rest ∧ P us e)
    (hQ : ∀ us e o op vs f, Q us e → join? o = some op → P vs f →
      Q (us ++ .operator o :: vs) (.binary op e f))
    {e e' : Expr} {ts rest : List Token} (h : Tail join? operand e ts e' rest)
    (hts : Numerals ts) {us : List Token} (hus : Q us e) :
    ∃ vs, ts = vs ++ rest ∧ Q (us ++ vs) e' := by
  induction h generalizing us with
  | stop => exact ⟨[], rfl, by simpa using hus⟩
  | @step _ _ _ _ _ _ o _ ho hf _ ih =>
      have hn := hts.of_suffix (List.suffix_cons _ _)
      obtain ⟨vs, rfl, hvs⟩ := hP _ _ _ hn hf
      have hrest := hn.of_suffix (List.suffix_append _ _)
      obtain ⟨ws, rfl, hws⟩ := ih hrest (hQ _ _ _ _ _ _ hus ho hvs)
      exact ⟨.operator o :: vs ++ ws, by simp, by simpa using hws⟩

theorem exists_of_reads_leftChain
    (hP : ∀ ts e rest, Numerals ts → Reads operand ts e rest → ∃ us, ts = us ++ rest ∧ P us e)
    (hPQ : ∀ us e, P us e → Q us e)
    (hQ : ∀ us e o op vs f, Q us e → join? o = some op → P vs f →
      Q (us ++ .operator o :: vs) (.binary op e f))
    (ts : List Token) (e : Expr) (rest : List Token) (hts : Numerals ts)
    (h : Reads (leftChain join? operand) ts e rest) : ∃ us, ts = us ++ rest ∧ Q us e := by
  rcases reads_leftChain_iff.1 h with ⟨e₀, rest₀, h₀, ht⟩
  obtain ⟨us, rfl, hus⟩ := hP _ _ _ hts h₀
  have hrest := hts.of_suffix (List.suffix_append _ _)
  obtain ⟨vs, rfl, hvs⟩ := exists_of_tail hP hQ ht hrest (hPQ _ _ hus)
  exact ⟨us ++ vs, by simp, hvs⟩

end Soundness

section

variable {deepest : Nat}

theorem Derives.join_product {d : Nat} (us : List Token) (e : Expr) (o : Operator)
    (op : Operation) (vs : List Token) (f : Expr) (h : Derives deepest .product d us e)
    (ho : multiplicative? o = some op) (h' : Derives deepest .factor d vs f) :
    Derives deepest .product d (us ++ .operator o :: vs) (.binary op e f) := by
  cases o <;> cases ho
  · exact h.multiply h'
  · exact h.divide h'

theorem Derives.join_sum {d : Nat} (us : List Token) (e : Expr) (o : Operator)
    (op : Operation) (vs : List Token) (f : Expr) (h : Derives deepest .sum d us e)
    (ho : additive? o = some op) (h' : Derives deepest .product d vs f) :
    Derives deepest .sum d (us ++ .operator o :: vs) (.binary op e f) := by
  cases o <;> cases ho
  · exact h.plus h'
  · exact h.minus h'

theorem derives_of_reads_sum {n d : Nat}
    (hf : ∀ ts e rest, Numerals ts → Reads (factor n) ts e rest →
      ∃ us, ts = us ++ rest ∧ Derives deepest .factor d us e)
    {ts rest : List Token} {e : Expr} (hts : Numerals ts) (h : Reads (sum (factor n)) ts e rest) :
    ∃ us, ts = us ++ rest ∧ Derives deepest .sum d us e := by
  have hproduct := exists_of_reads_leftChain hf (fun _ _ => Derives.ofFactor)
    Derives.join_product
  exact exists_of_reads_leftChain hproduct (fun _ _ => Derives.ofProduct)
    Derives.join_sum ts e rest hts h

/-- What is read as a factor is derived as one. The levels that are left and the level that
is reached add up to one more than the deepest level. -/
theorem derives_of_reads_factor {n d : Nat} (hnd : n + d = deepest + 1) {ts rest : List Token}
    {e : Expr} (hts : Numerals ts) (h : Reads (factor n) ts e rest) :
    ∃ us, ts = us ++ rest ∧ Derives deepest .factor d us e := by
  induction n generalizing d ts e rest with
  | zero =>
      obtain ⟨_, h⟩ := h
      rw [factor_zero] at h
      cases h
  | succ n ih =>
      have hd : d ≤ deepest := by omega
      have hnd' : n + (d + 1) = deepest + 1 := by omega
      cases reads_factor_succ_iff.1 h with
      | var => exact ⟨[_], rfl, .var hd⟩
      | number hv =>
          obtain ⟨k, hk, hv⟩ :=
            (read?_eq_some_iff_of_isDigit (hts _ List.mem_cons_self)).1 hv
          exact ⟨[_], rfl, .number hd hk hv⟩
      | negative hv =>
          rcases read?_minus_eq_some_iff.1 hv with ⟨k, hk, hv⟩
          exact ⟨[_, _], rfl, .negative hd hk hv⟩
      | negation hl h =>
          obtain ⟨us, rfl, hus⟩ := ih hnd' (hts.of_suffix (List.suffix_cons _ _)) h
          refine ⟨_ :: us, rfl, .negation hd ?_ hus⟩
          rintro ⟨s, vs, rfl⟩
          exact hl ⟨s, vs ++ rest, rfl⟩
      | paren h =>
          obtain ⟨us, rfl, hus⟩ := derives_of_reads_sum (fun ts e rest => ih hnd')
            (hts.of_suffix (List.suffix_cons _ _)) h
          exact ⟨.leftParen :: us ++ [.rightParen], by simp, .paren hd hus⟩

end

section Completeness

variable {join? : Operator → Option Operation} {operand : Reader}

/-- Reading a chain from `ts` comes to the left operand `e`, with `rest` to come. -/
def Leads (join? : Operator → Option Operation) (operand : Reader) (ts : List Token) (e : Expr)
    (rest : List Token) : Prop :=
  ∃ e₀ rest₀, Reads operand ts e₀ rest₀ ∧
    ∀ e' rest', Tail join? operand e rest e' rest' → Tail join? operand e₀ rest₀ e' rest'

theorem leads_of_reads {ts rest : List Token} {e : Expr} (h : Reads operand ts e rest) :
    Leads join? operand ts e rest :=
  ⟨e, rest, h, fun _ _ ht => ht⟩

theorem Leads.join {ts us rest : List Token} {e f : Expr} {o : Operator} {op : Operation}
    (h : Leads join? operand ts e (.operator o :: us)) (ho : join? o = some op)
    (hf : Reads operand us f rest) : Leads join? operand ts (.binary op e f) rest := by
  obtain ⟨e₀, rest₀, h₀, ht⟩ := h
  exact ⟨e₀, rest₀, h₀, fun e' rest' h' => ht e' rest' (.step ho hf h')⟩

theorem Leads.reads {ts rest : List Token} {e : Expr} (h : Leads join? operand ts e rest)
    (hends : Ends join? rest) : Reads (leftChain join? operand) ts e rest := by
  obtain ⟨e₀, rest₀, h₀, ht⟩ := h
  exact reads_leftChain_iff.2 ⟨e₀, rest₀, h₀, ht _ _ (.stop hends)⟩

/-- What reading does on tokens of a rank, whatever follows them, as far as it does not go
on with them. -/
def ReadsRank (n : Nat) (us : List Token) (e : Expr) : Rank → Prop
  | .factor => ∀ rest, Reads (factor n) (us ++ rest) e rest
  | .product => ∀ rest, Leads multiplicative? (factor n) (us ++ rest) e rest
  | .sum => ∀ rest, Ends multiplicative? rest →
      Leads additive? (leftChain multiplicative? (factor n)) (us ++ rest) e rest

theorem not_startsWithLiteral_append {us : List Token} (h : ¬ StartsWithLiteral us)
    (hne : us ≠ []) (rest : List Token) : ¬ StartsWithLiteral (us ++ rest) := by
  rintro ⟨d, vs, hd⟩
  cases us with
  | nil => exact hne rfl
  | cons t ts => exact h ⟨d, ts, by rw [(List.cons.inj hd).1]⟩

theorem ends_operator_of_eq_none {o : Operator} (h : join? o = none) (ts : List Token) :
    Ends join? (.operator o :: ts) := by
  rintro o' us ⟨⟩
  exact h

theorem Derives.ne_nil {deepest d : Nat} {r : Rank} {us : List Token} {e : Expr}
    (h : Derives deepest r d us e) : us ≠ [] := by
  induction h with
  | ofFactor _ ih => exact ih
  | ofProduct _ ih => exact ih
  | _ => simp

theorem ReadsRank.join_product {n : Nat} {us vs : List Token} {e f : Expr} {o : Operator}
    {op : Operation} (h : ReadsRank n us e .product) (ho : multiplicative? o = some op)
    (h' : ReadsRank n vs f .factor) :
    ReadsRank n (us ++ .operator o :: vs) (.binary op e f) .product := by
  intro rest
  rw [List.append_assoc]
  exact (h _).join ho (h' rest)

theorem ReadsRank.join_sum {n : Nat} {us vs : List Token} {e f : Expr} {o : Operator}
    {op : Operation} (h : ReadsRank n us e .sum) (ho : additive? o = some op)
    (h' : ReadsRank n vs f .product) :
    ReadsRank n (us ++ .operator o :: vs) (.binary op e f) .sum := by
  intro rest hends
  have hm : multiplicative? o = none := by
    cases o <;> cases ho <;> rfl
  rw [List.append_assoc]
  exact (h _ (ends_operator_of_eq_none hm _)).join ho ((h' rest).reads hends)

/-- The reader reads what the grammar derives. -/
theorem readsRank_of_derives {deepest d n : Nat} {r : Rank} {us : List Token} {e : Expr}
    (h : Derives deepest r d us e) (hnd : n + d = deepest + 1) : ReadsRank n us e r := by
  induction h generalizing n with
  | var hd =>
      obtain ⟨n, rfl⟩ := Nat.exists_eq_succ_of_ne_zero (show n ≠ 0 by omega)
      exact fun rest => reads_factor_succ_iff.2 .var
  | number hd hs hv =>
      obtain ⟨n, rfl⟩ := Nat.exists_eq_succ_of_ne_zero (show n ≠ 0 by omega)
      have hdigits := (Text.digits?_eq_some_iff.1 hs).2.1
      have hr := (read?_eq_some_iff_of_isDigit hdigits).2 ⟨_, hs, hv⟩
      exact fun rest => reads_factor_succ_iff.2 (.number hr)
  | negative hd hs hv =>
      obtain ⟨n, rfl⟩ := Nat.exists_eq_succ_of_ne_zero (show n ≠ 0 by omega)
      have hr := read?_minus_eq_some_iff.2 ⟨_, hs, hv⟩
      exact fun rest => reads_factor_succ_iff.2 (.negative hr)
  | negation hd hl h ih =>
      obtain ⟨n, rfl⟩ := Nat.exists_eq_succ_of_ne_zero (show n ≠ 0 by omega)
      have hread := ih (n := n) (by omega)
      intro rest
      have hl' := not_startsWithLiteral_append hl h.ne_nil rest
      exact reads_factor_succ_iff.2 (.negation hl' (hread rest))
  | paren hd h ih =>
      obtain ⟨n, rfl⟩ := Nat.exists_eq_succ_of_ne_zero (show n ≠ 0 by omega)
      have hread := ih (n := n) (by omega)
      intro rest
      have hends : ∀ j, Ends j (Token.rightParen :: rest) := fun j o us h => by cases h
      have hsum := (hread (.rightParen :: rest) (hends _)).reads (hends _)
      have := reads_factor_succ_iff.2 (.paren hsum)
      simpa using this
  | ofFactor h ih => exact fun rest => leads_of_reads (ih hnd rest)
  | multiply h h' ih ih' => exact (ih hnd).join_product rfl (ih' hnd)
  | divide h h' ih ih' => exact (ih hnd).join_product rfl (ih' hnd)
  | ofProduct h ih => exact fun rest hends => leads_of_reads ((ih hnd rest).reads hends)
  | plus h h' ih ih' => exact (ih hnd).join_sum rfl (ih' hnd)
  | minus h h' ih ih' => exact (ih hnd).join_sum rfl (ih' hnd)

end Completeness

/-- An expression starts at the first level, and the deepest level is the sixty-fourth. -/
theorem derives_of_reads {ts rest : List Token} {e : Expr} (hts : Numerals ts)
    (h : Reads read ts e rest) : ∃ us, ts = us ++ rest ∧ Derives 64 .sum 1 us e :=
  derives_of_reads_sum (fun _ _ _ => derives_of_reads_factor rfl) hts h

theorem Numerals.of_reads {ts rest : List Token} {e : Expr} (hts : Numerals ts)
    (h : Reads read ts e rest) : Numerals rest := by
  obtain ⟨us, rfl, _⟩ := derives_of_reads hts h
  exact hts.of_suffix (List.suffix_append _ _)

theorem derives_of_reads_nil {ts : List Token} {e : Expr} (hts : Numerals ts)
    (h : Reads read ts e []) : Derives 64 .sum 1 ts e := by
  obtain ⟨us, rfl, hus⟩ := derives_of_reads hts h
  rwa [List.append_nil]

theorem reads_of_derives {us rest : List Token} {e : Expr} (h : Derives 64 .sum 1 us e)
    (hm : Ends multiplicative? rest) (ha : Ends additive? rest) :
    Reads read (us ++ rest) e rest := by
  have hread : ReadsRank maxNesting us e .sum := readsRank_of_derives h rfl
  exact (hread rest hm).reads ha

theorem reads_nil_of_derives {us : List Token} {e : Expr} (h : Derives 64 .sum 1 us e) :
    Reads read us e [] := by
  have hends (j : Operator → Option Operation) : Ends j [] := fun o us h => by cases h
  simpa using reads_of_derives h (hends _) (hends _)

end Expr

end IntegerBasic
