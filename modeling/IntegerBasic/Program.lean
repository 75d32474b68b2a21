import IntegerBasic.Program.StoredLine

/-!
# Programs

A program is a finite map from line numbers to lines, kept in ascending order.
Each line is stored together with the statement it says and with the number of
times it was attempted since the counts were last reset; a line that is stored
anew starts from zero. When a count reaches the limit of the program, the attempt
fails.

The view of a program is `find?`. The main statements say what each operation
does to it, and that `next?` gives the least stored number above a number.
-/

namespace IntegerBasic

/-- A program: its lines in ascending order, and the count at which a line stops
it. -/
structure Program where
  limit : UInt32
  lines : List StoredLine
  ascending : lines.Pairwise fun a b => a.number < b.number
  deriving DecidableEq, Repr

namespace Program

def defaultLimit : UInt32 := 4294967295

def empty (limit : UInt32) : Program where
  limit := limit
  lines := []
  ascending := List.Pairwise.nil

def find? (p : Program) (n : LineNumber) : Option StoredLine :=
  p.lines.find? fun e => e.number = n

def contains (p : Program) (n : LineNumber) : Bool :=
  (p.find? n).isSome

def size (p : Program) : Nat :=
  p.lines.length

def first? (p : Program) : Option LineNumber :=
  p.lines.head?.map StoredLine.number

/-- The least stored number above a number. -/
def next? (p : Program) (n : LineNumber) : Option LineNumber :=
  (p.lines.find? fun e => n < e.number).map StoredLine.number

def put (p : Program) (e : StoredLine) : Program where
  limit := p.limit
  lines := e.putInto p.lines
  ascending := e.pairwise_putInto p.ascending

def erase (p : Program) (n : LineNumber) : Program where
  limit := p.limit
  lines := p.lines.filter fun e => e.number ≠ n
  ascending := p.ascending.filter _

def clear (p : Program) : Program :=
  empty p.limit

def mapCounts (p : Program) (f : StoredLine → UInt32) : Program where
  limit := p.limit
  lines := p.lines.map fun e => { e with count := f e }
  ascending := List.pairwise_map.2 p.ascending

def resetCounts (p : Program) : Program :=
  p.mapCounts fun _ => 0

/-- One more, up to the largest count. -/
def countUp (c : UInt32) : UInt32 :=
  if c = 4294967295 then c else c + 1

/-- Counts an attempt on a line. The attempt fails if there is no such line, or
if its count reaches the limit; the count is kept in either case. -/
def increment (p : Program) (n : LineNumber) : Except Error Unit × Program :=
  match p.find? n with
  | none => (.error .missingLine, p)
  | some e =>
    let c := countUp e.count
    (if p.limit ≤ c then .error .limitReached else .ok (),
      p.mapCounts fun x => if x.number = n then c else x.count)

/-- Stores a numbered line and gives the line it replaces. The line must say a
statement, and its number must not be zero. -/
def insert (p : Program) (l : Line) : Except Error (Option Line × Program) :=
  match l.number with
  | none => .error SyntaxFault.expectedLineNumber.toError
  | some n =>
    if n = 0 then
      .error .numberZero
    else
      match l.statement with
      | .error f => .error f.toError
      | .ok s => .ok ((p.find? n).map StoredLine.line, p.put ⟨n, l, s, 0⟩)

/-- Takes over a line of a program file: a line that holds nothing but a number
removes the line of that number, an empty one does nothing, and any other must
be numbered and is stored. -/
def load (p : Program) (s : String) : Except Error Program :=
  if Line.fits s then
    let l := Line.ofText s
    if l.isEmpty then
      match l.number with
      | some n => .ok (p.erase n)
      | none => .ok p
    else if l.isDirect then
      .error .directInFile
    else
      (p.insert l).map Prod.snd
  else
    .error .lineTooLong

theorem toNat_countUp (c : UInt32) : (countUp c).toNat = min (c.toNat + 1) 4294967295 := by
  unfold countUp
  have hc := c.toNat_lt
  split
  · next h => subst h; decide
  · next h =>
      have : c.toNat ≠ 4294967295 := fun h' => h (UInt32.toNat_inj.1 h')
      rw [UInt32.toNat_add]
      simp only [UInt32.reduceToNat]
      omega

@[simp] theorem find?_empty (limit : UInt32) (n : LineNumber) :
    (empty limit).find? n = none := rfl

theorem number_of_find? {p : Program} {n : LineNumber} {e : StoredLine}
    (h : p.find? n = some e) : e.number = n := by
  simpa using List.find?_some h

theorem find?_put (p : Program) (e : StoredLine) (n : LineNumber) :
    (p.put e).find? n = if n = e.number then some e else p.find? n :=
  e.find?_putInto p.lines n

theorem find?_erase (p : Program) (m n : LineNumber) :
    (p.erase m).find? n = if n = m then none else p.find? n := by
  unfold find? erase
  dsimp only
  rw [List.find?_filter]
  split
  · next h => subst h; simp
  · next h =>
      congr 1
      funext e
      by_cases he : e.number = n
      · simp [he, h]
      · simp [he]

theorem find?_mapCounts (p : Program) (f : StoredLine → UInt32) (n : LineNumber) :
    (p.mapCounts f).find? n = (p.find? n).map fun e => { e with count := f e } := by
  unfold find? mapCounts
  dsimp only
  rw [List.find?_map]
  rfl

theorem contains_iff {p : Program} {n : LineNumber} :
    p.contains n = true ↔ ∃ e ∈ p.lines, e.number = n := by
  simp [contains, find?]

/-- `next?` gives the least stored number above a number. -/
theorem next?_eq_some_iff {p : Program} {n m : LineNumber} :
    p.next? n = some m ↔
      p.contains m = true ∧ n < m ∧ ∀ k, p.contains k = true → n < k → m ≤ k := by
  simp only [contains_iff, forall_exists_index, and_imp, forall_apply_eq_imp_iff₂]
  exact StoredLine.find?_lt_eq_some_iff p.ascending

end Program

end IntegerBasic
