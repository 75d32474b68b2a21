import IntegerBasic.Proofs.Expr.Grammar
import IntegerBasic.Statement.Parser

/-!
# The grammar of statements

`Derives ts s` says that tokens without blanks are the statement `s`, a remark excepted:
`Means ts s` says it of any tokens. A remark is all that follows its word, blanks included;
for every other statement blanks do not count.

The main statement says that the statement that tokens are read as is the one that the
grammar assigns to them, and that reading fails with a syntax error if there is none.
-/

namespace IntegerBasic

theorem bind_eq_ok_iff {ε α β : Type} {x : Except ε α} {f : α → Except ε β} {b : β} :
    (x >>= f) = .ok b ↔ ∃ a, x = .ok a ∧ f a = .ok b := by
  cases x <;> simp [bind, Except.bind]

def Relation.operator : Relation → Operator
  | .less => .less
  | .equal => .equal
  | .greater => .greater

namespace Token

theorem significant_append (ts us : List Token) :
    significant (ts ++ us) = significant ts ++ significant us :=
  List.filter_append ..

theorem significant_dropWhile (ts : List Token) :
    significant (ts.dropWhile isBlanks) = significant ts := by
  induction ts with
  | nil => rfl
  | cons t ts ih =>
      cases hb : t.isBlanks with
      | true => simpa [significant, List.dropWhile_cons, hb] using ih
      | false => simp [hb]

theorem dropWhile_eq_cons_of_significant {t : Token} {ts us : List Token}
    (h : significant ts = t :: us) :
    ∃ rest, ts.dropWhile isBlanks = t :: rest ∧ significant rest = us := by
  induction ts with
  | nil => cases h
  | cons t' ts ih =>
      cases hb : t'.isBlanks with
      | true =>
          have hs : significant (t' :: ts) = significant ts := by simp [significant, hb]
          rw [hs] at h
          rw [List.dropWhile_cons_of_pos hb]
          exact ih h
      | false =>
          have hs : significant (t' :: ts) = t' :: significant ts := by simp [significant, hb]
          rw [hs] at h
          cases h
          exact ⟨ts, by rw [List.dropWhile_cons_of_neg (by simp [hb])], rfl⟩

end Token

namespace Statement

inductive Derives : List Token → Statement → Prop
  | assign {x : String} {us : List Token} {e : Expr} (h : Expr.Derives 64 .sum 1 us e) :
      Derives (.word .LET :: .ident x :: .operator .equal :: us) (.assign x e)
  | print {us : List Token} {e : Expr} (h : Expr.Derives 64 .sum 1 us e) :
      Derives (.word .PRINT :: us) (.print e)
  | input {x : String} : Derives [.word .INPUT, .ident x] (.input x)
  | goto {d : String} {n : LineNumber} (hd : Text.digits? d.toList = some n.toNat) :
      Derives [.word .GOTO, .literal d] (.goto n)
  | branch {us vs : List Token} {l r : Expr} {rel : Relation} {d : String} {n : LineNumber}
      (hl : Expr.Derives 64 .sum 1 us l) (hr : Expr.Derives 64 .sum 1 vs r)
      (hd : Text.digits? d.toList = some n.toNat) :
      Derives
        (.word .IF :: us ++ .operator rel.operator :: vs ++ [.word .THEN, .literal d])
        (.branch l rel r n)
  | halt : Derives [.word .END] .halt

inductive Means : List Token → Statement → Prop
  | remark {bs rest : List Token} (hb : ∀ t ∈ bs, t.isBlanks = true) :
      Means (bs ++ .word .REM :: rest) (.remark (Token.textOf rest))
  | ofDerives {ts : List Token} {s : Statement} (h : Derives (Token.significant ts) s) :
      Means ts s

theorem readName_eq_ok_iff {ts us : List Token} {x : String} :
    readName ts = .ok (x, us) ↔ ts = .ident x :: us := by
  unfold readName
  split <;> simp_all

theorem readEqual_eq_ok_iff {ts us : List Token} :
    readEqual ts = .ok us ↔ ts = .operator .equal :: us := by
  unfold readEqual
  split <;> simp_all

theorem readThen_eq_ok_iff {ts us : List Token} :
    readThen ts = .ok us ↔ ts = .word .THEN :: us := by
  unfold readThen
  split <;> simp_all

theorem readRelation_eq_ok_iff {ts us : List Token} {rel : Relation} :
    readRelation ts = .ok (rel, us) ↔ ts = .operator rel.operator :: us := by
  unfold readRelation
  split
  all_goals cases rel <;> simp_all [Relation.operator]

theorem read?_eq_some_iff_of_isDigit {cs : List Char} {n : LineNumber}
    (h : ∀ c ∈ cs, c.isDigit = true) :
    LineNumber.read? cs = some n ↔ Text.digits? cs = some n.toNat := by
  rw [LineNumber.read?, Text.unsigned?_eq_digits? h, Option.bind_eq_some_iff]
  simp [LineNumber.ofNat?_eq_some_iff]

theorem readTarget_literal {d : String} {n : LineNumber} {us : List Token}
    (hd : Text.digits? d.toList = some n.toNat) : readTarget (.literal d :: us) = .ok (n, us) := by
  have hdigits := (Text.digits?_eq_some_iff.1 hd).2.1
  rw [readTarget, (read?_eq_some_iff_of_isDigit hdigits).2 hd]

theorem exists_literal_of_readTarget {ts us : List Token} {n : LineNumber}
    (hts : Expr.Numerals ts) (h : readTarget ts = .ok (n, us)) :
    ∃ d, ts = .literal d :: us ∧ Text.digits? d.toList = some n.toNat := by
  unfold readTarget at h
  split at h
  · next d rest =>
      have hdigits := hts d List.mem_cons_self
      split at h
      · next m hm =>
          cases h
          exact ⟨d, rfl, (read?_eq_some_iff_of_isDigit hdigits).1 hm⟩
      · cases h
  · cases h

section

variable {ts rest : List Token} {s : Statement}

theorem exists_read_and_pure_iff {g : Expr → Statement} :
    (∃ x, Expr.read ts = .ok x ∧
      (pure (g x.expr, x.rest) : Except SyntaxFault (Statement × List Token)) =
        .ok (s, rest)) ↔
      ∃ e, Expr.Reads Expr.read ts e rest ∧ s = g e := by
  rw [Expr.exists_eq_ok_iff (P := fun e us =>
    (pure (g e, us) : Except SyntaxFault (Statement × List Token)) = .ok (s, rest))]
  constructor
  · intro h
    obtain ⟨e, us, he, h⟩ := h
    cases h
    exact ⟨e, he, rfl⟩
  · intro h
    obtain ⟨e, he, rfl⟩ := h
    exact ⟨e, rest, he, rfl⟩

theorem readAfter_let_eq_ok_iff :
    readAfter ts .LET = .ok (s, rest) ↔
      ∃ x us, ts = .ident x :: .operator .equal :: us ∧
        ∃ e, Expr.Reads Expr.read us e rest ∧ s = .assign x e := by
  simp only [readAfter, bind_eq_ok_iff, Prod.exists, readName_eq_ok_iff, readEqual_eq_ok_iff,
    exists_read_and_pure_iff]
  constructor
  · intro h
    obtain ⟨x, _, rfl, us, rfl, h⟩ := h
    exact ⟨x, us, rfl, h⟩
  · intro h
    obtain ⟨x, us, rfl, h⟩ := h
    exact ⟨x, _, rfl, us, rfl, h⟩

theorem readAfter_print_eq_ok_iff :
    readAfter ts .PRINT = .ok (s, rest) ↔
      ∃ e, Expr.Reads Expr.read ts e rest ∧ s = .print e := by
  simp only [readAfter, bind_eq_ok_iff, exists_read_and_pure_iff]

theorem readAfter_input_eq_ok_iff :
    readAfter ts .INPUT = .ok (s, rest) ↔ ∃ x, ts = .ident x :: rest ∧ s = .input x := by
  simp only [readAfter, bind_eq_ok_iff, Prod.exists, readName_eq_ok_iff]
  constructor
  · intro h
    obtain ⟨x, us, rfl, h⟩ := h
    cases h
    exact ⟨x, rfl, rfl⟩
  · intro h
    obtain ⟨x, rfl, rfl⟩ := h
    exact ⟨x, rest, rfl, rfl⟩

theorem readAfter_goto_eq_ok_iff :
    readAfter ts .GOTO = .ok (s, rest) ↔ ∃ n, readTarget ts = .ok (n, rest) ∧ s = .goto n := by
  simp only [readAfter, bind_eq_ok_iff, Prod.exists]
  constructor
  · intro h
    obtain ⟨n, us, hn, h⟩ := h
    cases h
    exact ⟨n, hn, rfl⟩
  · intro h
    obtain ⟨n, hn, rfl⟩ := h
    exact ⟨n, rest, hn, rfl⟩

theorem readAfter_if_eq_ok_iff :
    readAfter ts .IF = .ok (s, rest) ↔
      ∃ l rel us r vs n, Expr.Reads Expr.read ts l (.operator (Relation.operator rel) :: us) ∧
        Expr.Reads Expr.read us r (.word .THEN :: vs) ∧ readTarget vs = .ok (n, rest) ∧
        s = .branch l rel r n := by
  constructor
  · intro h
    rcases bind_eq_ok_iff.1 h with ⟨⟨l, us, hl⟩, hleft, h₁⟩
    rcases bind_eq_ok_iff.1 h₁ with ⟨⟨rel, vs⟩, hrel, h₂⟩
    rcases bind_eq_ok_iff.1 h₂ with ⟨⟨r, ws, hr⟩, hright, h₃⟩
    rcases bind_eq_ok_iff.1 h₃ with ⟨xs, hthen, h₄⟩
    rcases bind_eq_ok_iff.1 h₄ with ⟨⟨n, ys⟩, htarget, h₅⟩
    obtain rfl := readRelation_eq_ok_iff.1 hrel
    obtain rfl := readThen_eq_ok_iff.1 hthen
    cases h₅
    exact ⟨l, rel, vs, r, xs, n, ⟨hl, hleft⟩, ⟨hr, hright⟩, htarget, rfl⟩
  · intro h
    obtain ⟨l, rel, us, r, vs, n, ⟨hl, hleft⟩, ⟨hr, hright⟩, htarget, rfl⟩ := h
    exact bind_eq_ok_iff.2 ⟨_, hleft, bind_eq_ok_iff.2 ⟨_, readRelation_eq_ok_iff.2 rfl,
      bind_eq_ok_iff.2 ⟨_, hright, bind_eq_ok_iff.2 ⟨_, readThen_eq_ok_iff.2 rfl,
        bind_eq_ok_iff.2 ⟨_, htarget, rfl⟩⟩⟩⟩⟩

end

/-- What is read after the word of a statement is derived. -/
theorem derives_of_readAfter {w : ReservedWord} {ts : List Token} {s : Statement}
    (hts : Expr.Numerals ts) (h : readAfter ts w = .ok (s, [])) : Derives (.word w :: ts) s := by
  cases w with
  | LET =>
      rcases readAfter_let_eq_ok_iff.1 h with ⟨x, us, rfl, e, he, rfl⟩
      have hus := hts.of_suffix (List.suffix_append [Token.ident x, .operator .equal] us)
      exact .assign (Expr.derives_of_reads_nil hus he)
  | PRINT =>
      rcases readAfter_print_eq_ok_iff.1 h with ⟨e, he, rfl⟩
      exact .print (Expr.derives_of_reads_nil hts he)
  | INPUT =>
      rcases readAfter_input_eq_ok_iff.1 h with ⟨x, rfl, rfl⟩
      exact .input
  | GOTO =>
      rcases readAfter_goto_eq_ok_iff.1 h with ⟨n, hn, rfl⟩
      obtain ⟨d, rfl, hd⟩ := exists_literal_of_readTarget hts hn
      exact .goto hd
  | IF =>
      rcases readAfter_if_eq_ok_iff.1 h with ⟨l, rel, us, r, vs, n, hl, hr, hn, rfl⟩
      have hus := (hts.of_reads hl).of_suffix (List.suffix_cons _ _)
      have hvs := (hus.of_reads hr).of_suffix (List.suffix_cons _ _)
      obtain ⟨d, rfl, hd⟩ := exists_literal_of_readTarget hvs hn
      obtain ⟨as, rfl, has⟩ := Expr.derives_of_reads hts hl
      obtain ⟨bs, rfl, hbs⟩ := Expr.derives_of_reads hus hr
      simpa using Derives.branch has hbs hd
  | END =>
      cases h
      exact .halt
  | REM | THEN | RUN | LIST | CLEAR | QUIT => cases h

theorem multiplicative?_operator (rel : Relation) :
    Expr.multiplicative? rel.operator = none := by
  cases rel <;> rfl

theorem additive?_operator (rel : Relation) : Expr.additive? rel.operator = none := by
  cases rel <;> rfl

/-- What is derived starts with the word of a statement other than a remark, and is read to
its end. -/
theorem readAfter_of_derives {ts : List Token} {s : Statement} (h : Derives ts s) :
    ∃ w us, ts = .word w :: us ∧ w ≠ .REM ∧ readAfter us w = .ok (s, []) := by
  cases h with
  | assign h =>
      have he := Expr.reads_nil_of_derives h
      exact ⟨_, _, rfl, by decide, readAfter_let_eq_ok_iff.2 ⟨_, _, rfl, _, he, rfl⟩⟩
  | print h =>
      have he := Expr.reads_nil_of_derives h
      exact ⟨_, _, rfl, by decide, readAfter_print_eq_ok_iff.2 ⟨_, he, rfl⟩⟩
  | input => exact ⟨_, _, rfl, by decide, readAfter_input_eq_ok_iff.2 ⟨_, rfl, rfl⟩⟩
  | goto hd =>
      have hn : readTarget [.literal _] = .ok (_, []) := readTarget_literal hd
      exact ⟨_, _, rfl, by decide, readAfter_goto_eq_ok_iff.2 ⟨_, hn, rfl⟩⟩
  | @branch us vs l r rel d n hl hr hd =>
      have hm := Expr.ends_operator_of_eq_none (multiplicative?_operator rel)
      have ha := Expr.ends_operator_of_eq_none (additive?_operator rel)
      have hthen (j : Operator → Option Operation) (ts : List Token) :
          Expr.Ends j (.word .THEN :: ts) := fun o us h => by cases h
      have hr' := Expr.reads_of_derives hr (hthen _ [.literal d]) (hthen _ _)
      have hl' := Expr.reads_of_derives hl (hm (vs ++ [.word .THEN, .literal d])) (ha _)
      have hn : readTarget [.literal _] = .ok (_, []) := readTarget_literal hd
      refine ⟨_, _, rfl, by decide, readAfter_if_eq_ok_iff.2 ⟨l, rel, _, r, _, n, ?_, hr', hn, rfl⟩⟩
      simpa using hl'
  | halt => exact ⟨_, _, rfl, by decide, rfl⟩

theorem complete_eq_ok_iff {s s' : Statement} {ts : List Token} :
    complete (s', ts) = .ok s ↔ ts = [] ∧ s' = s := by
  cases ts <;> simp [complete]

theorem ofTokens_of_dropWhile {ts rest : List Token} {w : ReservedWord}
    (h : ts.dropWhile Token.isBlanks = .word w :: rest) (hw : w ≠ .REM) :
    ofTokens ts = readAfter (Token.significant rest) w >>= complete := by
  rw [ofTokens, h]
  cases w <;> first | rfl | exact absurd rfl hw

theorem means_of_ofTokens {ts : List Token} {s : Statement} (hts : Expr.Numerals ts)
    (h : ofTokens ts = .ok s) : Means ts s := by
  unfold ofTokens at h
  split at h
  · cases h
  · next rest hr =>
      cases h
      rw [← List.takeWhile_append_dropWhile (p := Token.isBlanks) (l := ts), hr]
      exact .remark fun t ht => List.all_eq_true.1 List.all_takeWhile t ht
  · next w rest _ hr =>
      rcases bind_eq_ok_iff.1 h with ⟨⟨s', us⟩, hread, hend⟩
      rcases complete_eq_ok_iff.1 hend with ⟨rfl, rfl⟩
      have hn : Expr.Numerals (Token.significant rest) := by
        have hs : Token.word w :: rest <:+ ts := hr ▸ List.dropWhile_suffix _
        exact fun d hd => hts d (hs.subset (List.mem_cons_of_mem _ (List.mem_filter.1 hd).1))
      have hsig : Token.significant ts = .word w :: Token.significant rest := by
        rw [← Token.significant_dropWhile, hr]
        rfl
      exact .ofDerives (hsig ▸ derives_of_readAfter hn hread)
  · cases h

theorem ofTokens_of_means {ts : List Token} {s : Statement} (h : Means ts s) :
    ofTokens ts = .ok s := by
  cases h with
  | @remark bs rest hb =>
      have hd : (bs ++ .word .REM :: rest).dropWhile Token.isBlanks = .word .REM :: rest := by
        rw [List.dropWhile_append_of_pos hb]
        rfl
      rw [ofTokens, hd]
  | ofDerives h =>
      obtain ⟨w, us, hw, hne, hread⟩ := readAfter_of_derives h
      obtain ⟨rest, hrest, rfl⟩ := Token.dropWhile_eq_cons_of_significant hw
      rw [ofTokens_of_dropWhile hrest hne]
      exact bind_eq_ok_iff.2 ⟨_, hread, rfl⟩

end Statement

end IntegerBasic
