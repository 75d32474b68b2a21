import IntegerBasic.Expr.Parser

/-!
# What a reader reads

`Reads r ts e rest` says that the reader `r` takes the expression `e` from the front of
`ts` and leaves `rest`. A chain of operands is described by `Tail`, which carries the
left operand along: it goes on as long as a joining operator follows. The main statements
invert the two ways of reading, a chain and a factor, so that nothing later has to look
into them.
-/

namespace IntegerBasic

namespace Expr

variable {join? : Operator → Option Operation} {operand : Reader}

def Reads (r : Reader) (ts : List Token) (e : Expr) (rest : List Token) : Prop :=
  ∃ h, r ts = .ok ⟨e, rest, h⟩

/-- No operator that joins another operand is next. -/
def Ends (join? : Operator → Option Operation) (ts : List Token) : Prop :=
  ∀ o us, ts = .operator o :: us → join? o = none

/-- A chain of operands goes on from its left operand `e` and the tokens after it, up to
the whole chain and the tokens after that. -/
inductive Tail (join? : Operator → Option Operation) (operand : Reader) :
    Expr → List Token → Expr → List Token → Prop
  | stop {e : Expr} {ts : List Token} (h : Ends join? ts) : Tail join? operand e ts e ts
  | step {e f e' : Expr} {us rest rest' : List Token} {o : Operator} {op : Operation}
      (ho : join? o = some op) (hf : Reads operand us f rest)
      (ht : Tail join? operand (.binary op e f) rest e' rest') :
      Tail join? operand e (.operator o :: us) e' rest'

theorem reads_of_eq_ok {r : Reader} {ts : List Token} {x : Reading ts} (h : r ts = .ok x) :
    Reads r ts x.expr x.rest :=
  ⟨x.shorter, h⟩

theorem exists_eq_ok_iff {r : Reader} {ts : List Token} {P : Expr → List Token → Prop} :
    (∃ x, r ts = .ok x ∧ P x.expr x.rest) ↔ ∃ e rest, Reads r ts e rest ∧ P e rest := by
  constructor
  · rintro ⟨x, hx, hP⟩
    exact ⟨x.expr, x.rest, reads_of_eq_ok hx, hP⟩
  · rintro ⟨e, rest, ⟨hl, h⟩, hP⟩
    exact ⟨_, h, hP⟩

theorem tail_of_extend {ts : List Token} {sofar x : Reading ts}
    (h : extend join? operand sofar = .ok x) :
    Tail join? operand sofar.expr sofar.rest x.expr x.rest := by
  fun_induction extend join? operand sofar with
  | case1 sofar o us hr hj =>
      cases h
      refine .stop fun o' us' hr' => ?_
      rw [hr] at hr'
      cases hr'
      exact hj
  | case2 => cases h
  | case3 sofar o us hr op hj next hn ih =>
      rw [hr]
      exact .step hj (reads_of_eq_ok hn) (ih h)
  | case4 sofar hr =>
      cases h
      exact .stop fun o us hr' => absurd hr' (hr o us)

theorem extend_of_tail {e e' : Expr} {rest rest' : List Token}
    (h : Tail join? operand e rest e' rest') {ts : List Token}
    (hl : rest.length < ts.length) :
    ∃ hl', extend join? operand (⟨e, rest, hl⟩ : Reading ts) = .ok ⟨e', rest', hl'⟩ := by
  induction h with
  | stop hends =>
      refine ⟨hl, ?_⟩
      rw [extend]
      split
      · next o us hr =>
          split
          · rfl
          · next hj => rw [hends o us hr] at hj; cases hj
      · rfl
  | step hj hf _ ih =>
      obtain ⟨hs, hf⟩ := hf
      have hl₂ := Nat.lt_trans hs (Nat.lt_of_succ_lt hl)
      obtain ⟨hl', hx⟩ := ih hl₂
      refine ⟨hl', ?_⟩
      rw [extend]
      simp only [hj, hf, hx]

/-- A chain is its first operand and what goes on after it. -/
theorem reads_leftChain_iff {ts rest : List Token} {e : Expr} :
    Reads (leftChain join? operand) ts e rest ↔
      ∃ e₀ rest₀, Reads operand ts e₀ rest₀ ∧ Tail join? operand e₀ rest₀ e rest := by
  constructor
  · rintro ⟨hl, h⟩
    unfold leftChain at h
    split at h
    · cases h
    · next first hf => exact ⟨_, _, reads_of_eq_ok hf, tail_of_extend h⟩
  · rintro ⟨e₀, rest₀, ⟨hs, hf⟩, ht⟩
    obtain ⟨hl, hx⟩ := extend_of_tail ht hs
    refine ⟨hl, ?_⟩
    rw [leftChain, hf]
    exact hx

theorem reads_leftChain_of_ends {ts rest : List Token} {e : Expr} (h : Reads operand ts e rest)
    (hends : Ends join? rest) : Reads (leftChain join? operand) ts e rest :=
  reads_leftChain_iff.2 ⟨e, rest, h, .stop hends⟩

theorem leftChain_of_error {ts : List Token} {f : SyntaxFault} (h : operand ts = .error f) :
    leftChain join? operand ts = .error f := by
  rw [leftChain, h]

/-- Reading a chain from `ts` is going on with the left operand `e` and the tokens `rest`, whether
this succeeds or not. -/
def ComesTo (join? : Operator → Option Operation) (operand : Reader) (ts : List Token) (e : Expr)
    (rest : List Token) : Prop :=
  ∃ hl : rest.length < ts.length, leftChain join? operand ts = extend join? operand ⟨e, rest, hl⟩

section

variable {ts us rest : List Token} {e f : Expr} {o : Operator} {op : Operation}
  {fault : SyntaxFault}

theorem comesTo_of_reads (h : Reads operand ts e rest) : ComesTo join? operand ts e rest := by
  obtain ⟨hl, h⟩ := h
  exact ⟨hl, by rw [leftChain, h]⟩

theorem ComesTo.join (h : ComesTo join? operand ts e (.operator o :: us)) (ho : join? o = some op)
    (hf : Reads operand us f rest) : ComesTo join? operand ts (.binary op e f) rest := by
  obtain ⟨hl, h⟩ := h
  obtain ⟨hs, hf⟩ := hf
  refine ⟨Nat.lt_trans hs (Nat.lt_of_succ_lt hl), ?_⟩
  rw [h, extend]
  simp only [ho, hf]

theorem ComesTo.leftChain_eq_error (h : ComesTo join? operand ts e (.operator o :: us))
    (ho : join? o = some op) (hf : operand us = .error fault) :
    leftChain join? operand ts = .error fault := by
  obtain ⟨hl, h⟩ := h
  rw [h, extend]
  simp only [ho, hf]

end

theorem leftChain_of_reads_of_error {ts us : List Token} {e : Expr} {o : Operator}
    {op : Operation} {f : SyntaxFault} (h : Reads operand ts e (.operator o :: us))
    (hj : join? o = some op) (hf : operand us = .error f) :
    leftChain join? operand ts = .error f :=
  (comesTo_of_reads h).leftChain_eq_error hj hf

theorem factor_succ_leftParen_of_error {level : Nat} {us : List Token} {f : SyntaxFault}
    (h : sum (factor level) us = .error f) :
    factor (level + 1) (.leftParen :: us) = .error f := by
  simp only [factor, h]

def StartsWithLiteral (ts : List Token) : Prop :=
  ∃ d us, ts = .literal d :: us

theorem factor_succ_minus_of_error {level : Nat} {us : List Token} {f : SyntaxFault}
    (hl : ¬ StartsWithLiteral us) (h : factor level us = .error f) :
    factor (level + 1) (.operator .minus :: us) = .error f := by
  rw [factor]
  · simp only [h]
  · exact fun d rest hus => hl ⟨d, rest, hus⟩

inductive FactorReads (level : Nat) : List Token → Expr → List Token → Prop
  | var {x : String} {rest : List Token} :
      FactorReads level (.ident x :: rest) (.var x) rest
  | number {d : String} {v : Value} {rest : List Token} (hv : Value.read? d.toList = some v) :
      FactorReads level (.literal d :: rest) (.int v) rest
  | negative {d : String} {v : Value} {rest : List Token}
      (hv : Value.read? ('-' :: d.toList) = some v) :
      FactorReads level (.operator .minus :: .literal d :: rest) (.int v) rest
  | negation {us rest : List Token} {e : Expr} (hl : ¬ StartsWithLiteral us)
      (h : Reads (factor level) us e rest) :
      FactorReads level (.operator .minus :: us) (.binary .subtract (.int 0) e) rest
  | paren {us rest : List Token} {e : Expr}
      (h : Reads (sum (factor level)) us e (.rightParen :: rest)) :
      FactorReads level (.leftParen :: us) e rest

theorem number?_eq_ok_iff {cs : List Char} {e : Expr} :
    number? cs = .ok e ↔ ∃ v, Value.read? cs = some v ∧ e = .int v := by
  unfold number?
  cases Value.read? cs <;> simp [eq_comm]

theorem factorReads_of_eq_ok {n level : Nat} {ts : List Token} {x : Reading ts}
    (h : factor n ts = .ok x) (hn : n = level + 1) : FactorReads level ts x.expr x.rest := by
  fun_cases factor n ts with
  | case1 => cases hn
  | case2 n y rest =>
      rw [factor] at h
      cases h
      exact .var
  | case3 n d rest f hd => simp [factor, hd] at h
  | case4 n d rest e hd =>
      simp only [factor, hd] at h
      cases h
      rcases number?_eq_ok_iff.1 hd with ⟨v, hv, rfl⟩
      exact .number hv
  | case5 n d rest f hd => simp [factor, hd] at h
  | case6 n d rest e hd =>
      simp only [factor, hd] at h
      cases h
      rcases number?_eq_ok_iff.1 hd with ⟨v, hv, rfl⟩
      exact .negative hv
  | case7 n us hus f hf => simp [factor, hf] at h
  | case8 n us hus inner hi =>
      simp only [factor, hi] at h
      cases h
      cases hn
      refine .negation (fun hl => ?_) (reads_of_eq_ok hi)
      obtain ⟨d, rest, hd⟩ := hl
      exact hus d rest hd
  | case9 n us f hf => simp [factor, hf] at h
  | case10 n us inner hi rest hr =>
      cases hn
      simp only [factor, hi] at h
      split at h
      · next rest' hr' =>
          cases h
          have hs := reads_of_eq_ok hi
          rw [hr'] at hs
          exact .paren hs
      · cases h
  | case11 n us inner hi hr =>
      simp only [factor, hi] at h
      cases h
  | case12 => simp_all [factor]

theorem reads_factor_succ_iff {level : Nat} {ts rest : List Token} {e : Expr} :
    Reads (factor (level + 1)) ts e rest ↔ FactorReads level ts e rest := by
  constructor
  · rintro ⟨_, h⟩
    exact factorReads_of_eq_ok h rfl
  · intro h
    cases h with
    | var => exact ⟨Nat.lt_succ_self _, by rw [factor]⟩
    | number hv =>
        have hn := number?_eq_ok_iff.2 ⟨_, hv, rfl⟩
        exact ⟨Nat.lt_succ_self _, by simp only [factor, hn]⟩
    | negative hv =>
        have hn := number?_eq_ok_iff.2 ⟨_, hv, rfl⟩
        exact ⟨Nat.lt_succ_of_lt (Nat.lt_succ_self _), by simp only [factor, hn]⟩
    | negation hl h =>
        obtain ⟨hs, h⟩ := h
        refine ⟨Nat.lt_succ_of_lt hs, ?_⟩
        rw [factor]
        · simp only [h]
        · exact fun d us hus => hl ⟨d, us, hus⟩
    | paren h =>
        obtain ⟨hs, h⟩ := h
        refine ⟨Nat.lt_succ_of_lt (Nat.lt_of_succ_lt hs), ?_⟩
        simp only [factor, h]

end Expr

end IntegerBasic
