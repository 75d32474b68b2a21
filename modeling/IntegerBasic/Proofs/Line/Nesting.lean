import IntegerBasic.Proofs.Expr.Nesting
import IntegerBasic.Proofs.Line.Spacing
import IntegerBasic.Proofs.Statement.Spelling
import Mathlib.Algebra.Order.BigOperators.Group.List
import Mathlib.Algebra.Order.Group.Nat

/-!
# How deep a line nests

A line prints an expression if the word `PRINT` stands in front of it. Whether it can be read
depends on the operand that the most parentheses and minus signs enclose.

The main statement is that sixty-three of them are accepted around each operand, whatever the others
are enclosed in, and sixty-four around any operand are too many. The reader counts an operand as a
level of its own, so that there is one less left than `Expr.maxNesting` says.
-/

namespace IntegerBasic

namespace Expr

variable {us : List Token} {e : Expr} {ks : List Nat}

theorem Nests.isRegular {r : Rank} (h : Nests r us e ks) : ∀ t ∈ us, t.IsRegular := by
  have hsum : ∀ k ∈ ks, k + 0 ≤ ks.sum := List.single_le_sum fun _ _ => Nat.zero_le _
  exact isRegular_of_derives (h.derives hsum)

theorem Nests.parens (h : Nests .factor us e ks) (n : Nat) :
    Nests .factor (List.replicate n .leftParen ++ us ++ List.replicate n .rightParen) e
      (ks.map (· + n)) := by
  induction n with
  | zero => simpa using h
  | succ n ih =>
      have hparen := Nests.paren (.ofProduct (.ofFactor ih))
      have happend : List.replicate (n + 1) .leftParen ++ us ++ List.replicate (n + 1) .rightParen =
          .leftParen :: (List.replicate n .leftParen ++ us ++ List.replicate n .rightParen) ++
            [.rightParen] := by
        rw [List.replicate_succ' (a := Token.rightParen), List.replicate_succ]
        simp
      rw [happend]
      simpa [Function.comp_def, Nat.add_assoc] using hparen

end Expr

namespace Token

theorem scan_replicate {c : Char} (hb : Text.isBlank c = false) (hc : c.isAlphanum = false)
    (n : Nat) (cs : List Char) :
    scan (List.replicate n c ++ cs) = List.replicate n (ofSymbol c) ++ scan cs := by
  induction n with
  | zero => rfl
  | succ n ih =>
      rw [List.replicate_succ, List.cons_append, scan_of_symbol hb hc, ih, List.replicate_succ,
        List.cons_append]

/-- The text of a one in `n` parentheses. -/
def parens (n : Nat) : List Char :=
  List.replicate n '(' ++ ((1).repr.toList ++ List.replicate n ')')

theorem scan_parens (n : Nat) :
    scan (parens n) =
      List.replicate n .leftParen ++ .literal (1).repr :: List.replicate n .rightParen := by
  have hhead : ∀ c ∈ (List.replicate n ')').head?, c.isDigit = false := by
    intro c hc
    rw [List.eq_of_mem_replicate (List.mem_of_mem_head? hc)]
    rfl
  have hclose : scan (List.replicate n ')') = List.replicate n .rightParen := by
    have hscan := scan_replicate (c := ')') (by decide) (by decide) n []
    rwa [List.append_nil, scan_nil, List.append_nil] at hscan
  rw [parens, scan_replicate (by decide) (by decide), scan_literal 1 hhead, hclose]
  rfl

theorem nests_scan_parens (n : Nat) :
    Expr.Nests .sum (significant (scan (parens n))) (.int 1) [n] := by
  have hone : Expr.Nests .factor [.literal (1).repr] (.int 1) [0] :=
    .number (k := 1) (by decide) (by decide)
  have hparens := hone.parens n
  have hsig : significant (scan (parens n)) =
      List.replicate n .leftParen ++ [.literal (1).repr] ++ List.replicate n .rightParen := by
    rw [scan_parens, List.append_assoc, List.singleton_append] at *
    exact List.filter_eq_self.2 fun t ht => by rw [(hparens.isRegular t ht).1]; rfl
  rw [hsig]
  simpa using Expr.Nests.ofProduct (.ofFactor hparens)

theorem isWordChar_head?_parens (n : Nat) :
    ∀ c ∈ (String.ofList (parens (n + 1))).toList.head?, isWordChar c = false := by
  rw [String.toList_ofList]
  intro c hc
  cases hc
  rfl

end Token

namespace Line

theorem significant_tokens_ofText_print {t : String}
    (ht : ∀ c ∈ t.toList.head?, Token.isWordChar c = false)
    (h : ∀ u ∈ Token.significant (Token.scan t.toList), u.IsRegular) :
    (ofText ("PRINT" ++ t)).number = none ∧
      Token.significant (ofText ("PRINT" ++ t)).tokens =
        .word .PRINT :: Token.significant (Token.scan t.toList) := by
  have hword : Text.LongestRun Token.isWordChar ReservedWord.PRINT.text.toList t.toList :=
    ⟨by decide, List.all_eq_true.1 (by decide), ht⟩
  have hscan : Token.significant (Token.scan ("PRINT" ++ t).toList) =
      .word .PRINT :: Token.significant (Token.scan t.toList) := by
    have hprint : "PRINT" = ReservedWord.PRINT.text := rfl
    rw [String.toList_append, hprint]
    exact Token.significant_scan_reserved (by decide) hword
  have hregular : ∀ u ∈ Token.significant (Token.scan ("PRINT" ++ t).toList), u.IsRegular := by
    rw [hscan]
    exact List.forall_mem_cons.2 ⟨Token.isRegular_word _, h⟩
  have htext : ("PRINT" ++ t).toList = 'P' :: (['R', 'I', 'N', 'T'] ++ t.toList) := by
    rw [String.toList_append]
    rfl
  rw [← hscan]
  exact significant_tokens_ofText htext (by decide) hregular

/-- Printing an expression is too complex if an operand is enclosed in more than sixty-three
parentheses and minus signs. -/
theorem statement_ofText_print_eq_error {t : String} {e : Expr} {ks : List Nat}
    (ht : ∀ c ∈ t.toList.head?, Token.isWordChar c = false)
    (h : Expr.Nests .sum (Token.significant (Token.scan t.toList)) e ks)
    (hks : ∃ k ∈ ks, 63 < k) :
    (ofText ("PRINT" ++ t)).statement = .error .expressionTooComplex := by
  have htokens := (significant_tokens_ofText_print ht h.isRegular).2
  have hread := Statement.readAfter_print_of_error (h.read_eq_error hks)
  exact Statement.ofTokens_of_significant_of_error (by decide) htokens hread

/-- Printing an expression is read if no operand is enclosed in more than sixty-three parentheses
and minus signs, and the expression is too complex if one is. -/
theorem statement_ofText_print {t : String} {e : Expr} {ks : List Nat}
    (ht : ∀ c ∈ t.toList.head?, Token.isWordChar c = false)
    (h : Expr.Nests .sum (Token.significant (Token.scan t.toList)) e ks) :
    (ofText ("PRINT" ++ t)).number = none ∧
      (ofText ("PRINT" ++ t)).statement =
        if ∀ k ∈ ks, k ≤ 63 then .ok (.print e) else .error .expressionTooComplex := by
  obtain ⟨hn, htokens⟩ := significant_tokens_ofText_print ht h.isRegular
  refine ⟨hn, ?_⟩
  split
  · next hks =>
      have hprint := Statement.Derives.print (h.derives_of_le hks)
      exact Statement.ofTokens_of_means (.ofDerives (htokens ▸ hprint))
  · next hks =>
      have hdeep : ∃ k ∈ ks, 63 < k := by simpa using hks
      exact statement_ofText_print_eq_error ht h hdeep

/-- Operands of a line that are enclosed up to four times, and one that is enclosed sixty-three
times. -/
theorem statement_ofText_print_of_mixed :
    (ofText ("PRINT" ++ " 2*-(-(-7)+A)")).statement =
        .ok (.print (.binary .multiply (.int 2) (.binary .subtract (.int 0)
          (.binary .add (.binary .subtract (.int 0) (.int (-7))) (.var "A"))))) ∧
      (ofText ("PRINT" ++ String.ofList (Token.parens 63))).statement = .ok (.print (.int 1)) := by
  have hmixed : Expr.Nests .sum (Token.significant (Token.scan " 2*-(-(-7)+A)".toList))
      (.binary .multiply (.int 2) (.binary .subtract (.int 0)
        (.binary .add (.binary .subtract (.int 0) (.int (-7))) (.var "A")))) [0, 4, 2] := by
    have htokens : Token.significant (Token.scan " 2*-(-(-7)+A)".toList) =
        [.literal "2", .operator .multiply, .operator .minus, .leftParen, .operator .minus,
          .leftParen, .operator .minus, .literal "7", .rightParen, .operator .plus, .ident "A",
          .rightParen] := by decide +kernel
    have hseven : Expr.Nests .factor [.operator .minus, .literal "7"] (.int (-7)) [0] :=
      .negative (k := 7) (by decide) (by decide)
    have hparen (us : List Token) : ¬ Expr.StartsWithLiteral (.leftParen :: us) := by
      rintro ⟨d, rest, h⟩
      cases h
    have hinner := Expr.Nests.negation (hparen _) (.paren (.ofProduct (.ofFactor hseven)))
    have hsum := Expr.Nests.plus (.ofProduct (.ofFactor hinner)) (.ofFactor (.var (x := "A")))
    have htwo : Expr.Nests .factor [.literal "2"] (.int 2) [0] :=
      .number (k := 2) (by decide) (by decide)
    have hproduct := Expr.Nests.multiply (.ofFactor htwo) (.negation (hparen _) (.paren hsum))
    rw [htokens]
    exact .ofProduct hproduct
  have hdeepest : Expr.Nests .sum
      (Token.significant (Token.scan (String.ofList (Token.parens 63)).toList)) (.int 1) [63] := by
    rw [String.toList_ofList]
    exact Token.nests_scan_parens 63
  have hhead : ∀ c ∈ " 2*-(-(-7)+A)".toList.head?, Token.isWordChar c = false := by
    intro c hc
    cases hc
    rfl
  obtain ⟨_, hread⟩ := statement_ofText_print hhead hmixed
  obtain ⟨_, hread'⟩ := statement_ofText_print (Token.isWordChar_head?_parens 62) hdeepest
  rw [if_pos (by decide)] at hread hread'
  exact ⟨hread, hread'⟩

/-- Sixty-four parentheses around a number are refused, although sixty-four levels may nest. -/
theorem statement_ofText_of_sixty_four_parens :
    Expr.maxNesting = 64 ∧
      Expr.Nests .sum (Token.significant (Token.scan (Token.parens 64))) (.int 1) [64] ∧
      .operator .minus ∉ Token.scan (Token.parens 64) ∧
      (ofText ("PRINT" ++ String.ofList (Token.parens 64))).statement =
        .error .expressionTooComplex := by
  have hnests := Token.nests_scan_parens 64
  have hminus : .operator .minus ∉ Token.scan (Token.parens 64) := by
    rw [Token.scan_parens]
    simp
  refine ⟨rfl, hnests, hminus, ?_⟩
  rw [← String.toList_ofList (l := Token.parens 64)] at hnests
  exact statement_ofText_print_eq_error (Token.isWordChar_head?_parens 63) hnests (by decide)

end Line

end IntegerBasic
