/-!
# Lines of bytes

Text arrives as bytes. A line feed ends a line, and a last line need not be
ended. A line of a file loses its line feed and one carriage return before it; a
line that is typed loses all carriage returns and line feeds at its end. The main
statement says that cutting bytes into lines loses none of them.
-/

namespace IntegerBasic

namespace Text

def lineFeed : UInt8 := 10

def carriageReturn : UInt8 := 13

/-- Cuts bytes after every line feed. Every piece but the last ends with a line
feed, and no piece is empty. -/
def cut (bs : List UInt8) : List (List UInt8) :=
  match _ : bs.dropWhile fun b => b ≠ lineFeed with
  | [] => if bs = [] then [] else [bs]
  | b :: rest => (bs.takeWhile (fun b => b ≠ lineFeed) ++ [b]) :: cut rest
termination_by bs.length
decreasing_by
  have := (List.dropWhile_suffix (l := bs) fun b => b ≠ lineFeed).length_le
  rw [‹bs.dropWhile _ = _›, List.length_cons] at this
  omega

/-- The text that bytes stand for in UTF-8, if they stand for one. -/
def decode? (bs : List UInt8) : Option String :=
  String.fromUTF8? ⟨bs.toArray⟩

/-- A piece of a file without its line feed and one carriage return before it. -/
def stripEnd (bs : List UInt8) : List UInt8 :=
  match bs.reverse with
  | b :: c :: rest =>
    if b = lineFeed then
      if c = carriageReturn then rest.reverse else (c :: rest).reverse
    else
      bs
  | [b] => if b = lineFeed then [] else bs
  | [] => []

/-- The lines of a file; a line that is no text is `none`. -/
def fileLines (bs : List UInt8) : List (Option String) :=
  (cut bs).map fun l => decode? (stripEnd l)

/-- A text without the carriage returns and line feeds at its end. -/
def stripLineEnds (s : String) : String :=
  String.ofList (s.toList.reverse.dropWhile fun c => c = '\r' || c = '\n').reverse

/-- The lines that are typed; a line that is no text is `none`. -/
def typedLines (bs : List UInt8) : List (Option String) :=
  (cut bs).map fun l => (decode? l).map stripLineEnds

/-- Cutting loses no byte. -/
@[simp] theorem flatten_cut (bs : List UInt8) : (cut bs).flatten = bs := by
  fun_induction cut bs with
  | case1 => rfl
  | case2 => simp
  | case3 bs b rest h ih =>
      rw [List.flatten_cons, ih, List.append_assoc, List.singleton_append, ← h]
      exact List.takeWhile_append_dropWhile

theorem ne_nil_of_mem_cut {bs l : List UInt8} (h : l ∈ cut bs) : l ≠ [] := by
  fun_induction cut bs with
  | case1 => cases h
  | case2 bs _ hne =>
      obtain rfl : l = bs := by simpa using h
      exact hne
  | case3 bs b rest _ ih =>
      rcases List.mem_cons.1 h with rfl | h
      · simp
      · exact ih h

end Text

end IntegerBasic
