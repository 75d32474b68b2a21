import IntegerBasic.Proofs.Expr.Grammar

/-!
# How deep an expression nests

`Nests r ts e ks` is the grammar of expressions without a deepest level: it says that the tokens
`ts` are an expression `e` of rank `r`, and `ks` lists for each of its operands, from left to right,
how many parentheses and minus signs enclose it. A minus sign directly before a literal belongs to
the literal.

The main statements are that the grammar with a deepest level derives the expression if no operand
is enclosed too often, and that reading runs out of levels if one is.
-/

namespace IntegerBasic

namespace Expr

inductive Nests : Rank → List Token → Expr → List Nat → Prop
  | var {x : String} : Nests .factor [.ident x] (.var x) [0]
  | number {k : Nat} {s : String} {v : Value} (hs : Text.digits? s.toList = some k)
      (hv : v.toInt = k) : Nests .factor [.literal s] (.int v) [0]
  | negative {k : Nat} {s : String} {v : Value} (hs : Text.digits? s.toList = some k)
      (hv : v.toInt = -k) : Nests .factor [.operator .minus, .literal s] (.int v) [0]
  | negation {us : List Token} {e : Expr} {ks : List Nat} (hl : ¬ StartsWithLiteral us)
      (h : Nests .factor us e ks) :
      Nests .factor (.operator .minus :: us) (.binary .subtract (.int 0) e) (ks.map (· + 1))
  | paren {us : List Token} {e : Expr} {ks : List Nat} (h : Nests .sum us e ks) :
      Nests .factor (.leftParen :: us ++ [.rightParen]) e (ks.map (· + 1))
  | ofFactor {us : List Token} {e : Expr} {ks : List Nat} (h : Nests .factor us e ks) :
      Nests .product us e ks
  | multiply {us vs : List Token} {e f : Expr} {ks ls : List Nat} (h : Nests .product us e ks)
      (h' : Nests .factor vs f ls) :
      Nests .product (us ++ .operator .multiply :: vs) (.binary .multiply e f) (ks ++ ls)
  | divide {us vs : List Token} {e f : Expr} {ks ls : List Nat} (h : Nests .product us e ks)
      (h' : Nests .factor vs f ls) :
      Nests .product (us ++ .operator .divide :: vs) (.binary .divide e f) (ks ++ ls)
  | ofProduct {us : List Token} {e : Expr} {ks : List Nat} (h : Nests .product us e ks) :
      Nests .sum us e ks
  | plus {us vs : List Token} {e f : Expr} {ks ls : List Nat} (h : Nests .sum us e ks)
      (h' : Nests .product vs f ls) :
      Nests .sum (us ++ .operator .plus :: vs) (.binary .add e f) (ks ++ ls)
  | minus {us vs : List Token} {e f : Expr} {ks ls : List Nat} (h : Nests .sum us e ks)
      (h' : Nests .product vs f ls) :
      Nests .sum (us ++ .operator .minus :: vs) (.binary .subtract e f) (ks ++ ls)

section

variable {r : Rank} {us vs : List Token} {e f : Expr} {ks ls : List Nat} {deepest d n : Nat}

theorem Nests.exists_mem (h : Nests r us e ks) : ∃ k, k ∈ ks := by
  induction h with
  | var | number | negative => exact ⟨0, List.mem_singleton_self 0⟩
  | negation _ _ ih | paren _ ih => exact ih.imp' (· + 1) fun _ hk => List.mem_map_of_mem hk
  | ofFactor _ ih | ofProduct _ ih => exact ih
  | multiply _ _ ih | divide _ _ ih | plus _ _ ih | minus _ _ ih =>
      exact ih.imp fun _ hk => List.mem_append_left _ hk

theorem Nests.derives (h : Nests r us e ks) (hd : ∀ k ∈ ks, k + d ≤ deepest) :
    Derives deepest r d us e := by
  -- An operand is enclosed once more outside of the parentheses or the minus sign, a level higher.
  have hinner {ks : List Nat} {d : Nat} (hd : ∀ k ∈ ks.map (· + 1), k + d ≤ deepest) :
      ∀ k ∈ ks, k + (d + 1) ≤ deepest := fun k hk => by
    have := hd (k + 1) (List.mem_map_of_mem hk)
    omega
  have houter {ks : List Nat} {d : Nat} (hks : ∃ k, k ∈ ks) (hd : ∀ k ∈ ks, k + d ≤ deepest) :
      d ≤ deepest := by
    obtain ⟨k, hk⟩ := hks
    have := hd k hk
    omega
  induction h generalizing d with
  | var => exact .var (houter ⟨0, List.mem_singleton_self 0⟩ hd)
  | number hs hv => exact .number (houter ⟨0, List.mem_singleton_self 0⟩ hd) hs hv
  | negative hs hv => exact .negative (houter ⟨0, List.mem_singleton_self 0⟩ hd) hs hv
  | negation hl h ih => exact .negation (houter (h.negation hl).exists_mem hd) hl (ih (hinner hd))
  | paren h ih => exact .paren (houter h.paren.exists_mem hd) (ih (hinner hd))
  | ofFactor _ ih => exact .ofFactor (ih hd)
  | ofProduct _ ih => exact .ofProduct (ih hd)
  | multiply _ _ ih ih' =>
      obtain ⟨hks, hls⟩ := List.forall_mem_append.1 hd
      exact .multiply (ih hks) (ih' hls)
  | divide _ _ ih ih' =>
      obtain ⟨hks, hls⟩ := List.forall_mem_append.1 hd
      exact .divide (ih hks) (ih' hls)
  | plus _ _ ih ih' =>
      obtain ⟨hks, hls⟩ := List.forall_mem_append.1 hd
      exact .plus (ih hks) (ih' hls)
  | minus _ _ ih ih' =>
      obtain ⟨hks, hls⟩ := List.forall_mem_append.1 hd
      exact .minus (ih hks) (ih' hls)

theorem Nests.ne_nil (h : Nests r us e ks) : us ≠ [] := by
  induction h with
  | ofFactor _ ih => exact ih
  | ofProduct _ ih => exact ih
  | _ => simp

end

section

variable {r : Rank} {us vs : List Token} {e f : Expr} {ks ls : List Nat} {o : Operator}
  {op : Operation} {deepest d n : Nat}

def ComesToRank (n : Nat) (us : List Token) (e : Expr) : Rank → Prop
  | .factor => ∀ rest, Reads (factor n) (us ++ rest) e rest
  | .product => ∀ rest, ComesTo multiplicative? (factor n) (us ++ rest) e rest
  | .sum => ∀ rest, Ends multiplicative? rest →
      ComesTo additive? (leftChain multiplicative? (factor n)) (us ++ rest) e rest

/-- The reader runs out of levels on tokens of a rank, whatever follows them. -/
def RunsOut (n : Nat) (us : List Token) : Rank → Prop
  | .factor => ∀ rest, factor n (us ++ rest) = .error .expressionTooComplex
  | .product => ∀ rest,
      leftChain multiplicative? (factor n) (us ++ rest) = .error .expressionTooComplex
  | .sum => ∀ rest, sum (factor n) (us ++ rest) = .error .expressionTooComplex

theorem ends_multiplicative?_of_additive? (h : additive? o = some op) (rest : List Token) :
    Ends multiplicative? (.operator o :: rest) := by
  refine ends_operator_of_eq_none ?_ rest
  cases o <;> cases h <;> rfl

/-- A chain that was read so far can go on. -/
theorem comesToRank_of_derives (h : Derives deepest r d us e) (hnd : n + d = deepest + 1) :
    ComesToRank n us e r := by
  have hread := readsRank_of_derives h hnd
  induction h with
  | var | number | negative | negation | paren => exact hread
  | ofFactor h => exact fun rest => comesTo_of_reads (readsRank_of_derives h hnd rest)
  | ofProduct h =>
      exact fun rest hends => comesTo_of_reads ((readsRank_of_derives h hnd rest).reads hends)
  | multiply h h' ih | divide h h' ih =>
      intro rest
      rw [List.append_assoc]
      exact (ih hnd (readsRank_of_derives h hnd) _).join rfl (readsRank_of_derives h' hnd rest)
  | plus h h' ih =>
      intro rest hends
      rw [List.append_assoc]
      have hsign := ends_multiplicative?_of_additive? (o := .plus) rfl
      exact (ih hnd (readsRank_of_derives h hnd) _ (hsign _)).join rfl
        ((readsRank_of_derives h' hnd rest).reads hends)
  | minus h h' ih =>
      intro rest hends
      rw [List.append_assoc]
      have hsign := ends_multiplicative?_of_additive? (o := .minus) rfl
      exact (ih hnd (readsRank_of_derives h hnd) _ (hsign _)).join rfl
        ((readsRank_of_derives h' hnd rest).reads hends)

theorem RunsOut.product (h : Nests .product us e ks) (ho : multiplicative? o = some op)
    (hleft : (∃ k ∈ ks, n ≤ k) → RunsOut n us .product)
    (hright : (∃ l ∈ ls, n ≤ l) → RunsOut n vs .factor) (hn : ∃ k ∈ ks ++ ls, n ≤ k) :
    RunsOut n (us ++ .operator o :: vs) .product := by
  intro rest
  rw [List.append_assoc]
  by_cases hks : ∃ k ∈ ks, n ≤ k
  · exact hleft hks _
  · have hlevels : ∀ k ∈ ks, k + 1 ≤ n := fun k hk => Nat.lt_of_not_le fun hle => hks ⟨k, hk, hle⟩
    obtain ⟨k, hk, hle⟩ := hn
    have hls : ∃ l ∈ ls, n ≤ l :=
      ⟨k, (List.mem_append.1 hk).resolve_left fun hk => hks ⟨k, hk, hle⟩, hle⟩
    have hcomes := comesToRank_of_derives (h.derives hlevels) rfl (.operator o :: vs ++ rest)
    exact hcomes.leftChain_eq_error ho (hright hls rest)

theorem RunsOut.sum (h : Nests .sum us e ks) (ho : additive? o = some op)
    (hleft : (∃ k ∈ ks, n ≤ k) → RunsOut n us .sum)
    (hright : (∃ l ∈ ls, n ≤ l) → RunsOut n vs .product) (hn : ∃ k ∈ ks ++ ls, n ≤ k) :
    RunsOut n (us ++ .operator o :: vs) .sum := by
  intro rest
  rw [List.append_assoc]
  by_cases hks : ∃ k ∈ ks, n ≤ k
  · exact hleft hks _
  · have hlevels : ∀ k ∈ ks, k + 1 ≤ n := fun k hk => Nat.lt_of_not_le fun hle => hks ⟨k, hk, hle⟩
    obtain ⟨k, hk, hle⟩ := hn
    have hls : ∃ l ∈ ls, n ≤ l :=
      ⟨k, (List.mem_append.1 hk).resolve_left fun hk => hks ⟨k, hk, hle⟩, hle⟩
    have hcomes := comesToRank_of_derives (h.derives hlevels) rfl (.operator o :: vs ++ rest)
      (ends_multiplicative?_of_additive? ho _)
    exact hcomes.leftChain_eq_error ho (hright hls rest)

theorem exists_of_exists_map {ks : List Nat} (h : ∃ k ∈ ks.map (· + 1), n + 1 ≤ k) :
    ∃ k ∈ ks, n ≤ k := by
  obtain ⟨_, hmem, hle⟩ := h
  obtain ⟨k, hk, rfl⟩ := List.mem_map.1 hmem
  exact ⟨k, hk, Nat.le_of_succ_le_succ hle⟩

/-- The reader runs out of levels if an operand is enclosed as often as there are levels. -/
theorem Nests.runsOut (h : Nests r us e ks) (hn : ∃ k ∈ ks, n ≤ k) : RunsOut n us r := by
  -- In a chain the operands before the first one that is enclosed too often are read.
  induction h generalizing n with
  | var | number | negative =>
      obtain ⟨k, hk, hle⟩ := hn
      obtain rfl := List.mem_singleton.1 hk
      obtain rfl := Nat.le_zero.1 hle
      exact fun rest => factor_zero _
  | negation hl h ih =>
      intro rest
      cases n with
      | zero => exact factor_zero _
      | succ n =>
          have hl' := not_startsWithLiteral_append hl h.ne_nil rest
          exact factor_succ_minus_of_error hl' (ih (exists_of_exists_map hn) rest)
  | @paren us _ _ _ ih =>
      intro rest
      cases n with
      | zero => exact factor_zero _
      | succ n =>
          have hinner := ih (exists_of_exists_map hn) (.rightParen :: rest)
          have happend : .leftParen :: us ++ [.rightParen] ++ rest =
              .leftParen :: (us ++ .rightParen :: rest) := by simp
          rw [happend]
          exact factor_succ_leftParen_of_error hinner
  | ofFactor _ ih => exact fun rest => leftChain_of_error (ih hn rest)
  | ofProduct _ ih => exact fun rest => leftChain_of_error (ih hn rest)
  | multiply h _ ih ih' => exact .product (o := .multiply) h rfl ih ih' hn
  | divide h _ ih ih' => exact .product (o := .divide) h rfl ih ih' hn
  | plus h _ ih ih' => exact .sum (o := .plus) h rfl ih ih' hn
  | minus h _ ih ih' => exact .sum (o := .minus) h rfl ih ih' hn

theorem Nests.derives_of_le (h : Nests .sum us e ks) (hks : ∀ k ∈ ks, k ≤ 63) :
    Derives 64 .sum 1 us e :=
  h.derives fun k hk => Nat.succ_le_succ (hks k hk)

theorem Nests.read_eq_error (h : Nests .sum us e ks) (hks : ∃ k ∈ ks, 63 < k) :
    read us = .error .expressionTooComplex := by
  have hread := h.runsOut (n := maxNesting) hks []
  rwa [List.append_nil] at hread

end

end Expr

end IntegerBasic
