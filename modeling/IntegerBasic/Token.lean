/-!
# Tokens

A line is a list of tokens: reserved words, identifiers, literals, operators,
parentheses, runs of blanks, and whatever else was typed. Each token has a text,
and a line is written by writing its tokens one after the other. The main
statements say that reserved words and operators are recognised by their texts
and by nothing else.
-/

namespace IntegerBasic

/-- The words that no identifier may be. They are upper case in a line, and each
is named here by the word itself. -/
inductive ReservedWord
  | CLEAR
  | END
  | GOTO
  | IF
  | INPUT
  | LET
  | LIST
  | PRINT
  | QUIT
  | REM
  | RUN
  | THEN
  deriving DecidableEq, Repr

namespace ReservedWord

def text : ReservedWord → String
  | .CLEAR => "CLEAR"
  | .END => "END"
  | .GOTO => "GOTO"
  | .IF => "IF"
  | .INPUT => "INPUT"
  | .LET => "LET"
  | .LIST => "LIST"
  | .PRINT => "PRINT"
  | .QUIT => "QUIT"
  | .REM => "REM"
  | .RUN => "RUN"
  | .THEN => "THEN"

def all : List ReservedWord :=
  [.CLEAR, .END, .GOTO, .IF, .INPUT, .LET, .LIST, .PRINT, .QUIT, .REM, .RUN, .THEN]

def ofText? (s : String) : Option ReservedWord :=
  all.find? fun w => w.text = s

/-- A reserved word is recognised by its text and by nothing else. -/
theorem ofText?_eq_some_iff {s : String} {w : ReservedWord} :
    ofText? s = some w ↔ w.text = s := by
  constructor
  · intro h
    simpa using List.find?_some h
  · rintro rfl
    cases w <;> decide

theorem ofText?_eq_none_iff {s : String} :
    ofText? s = none ↔ ∀ w : ReservedWord, w.text ≠ s := by
  constructor
  · intro h w hw
    rw [ofText?_eq_some_iff.2 hw] at h
    cases h
  · intro h
    simpa [ofText?] using fun w _ => h w

end ReservedWord

inductive Operator
  | multiply
  | divide
  | plus
  | minus
  | equal
  | less
  | greater
  deriving DecidableEq, Repr

namespace Operator

def text : Operator → String
  | .multiply => "*"
  | .divide => "/"
  | .plus => "+"
  | .minus => "-"
  | .equal => "="
  | .less => "<"
  | .greater => ">"

end Operator

/-- The pieces of a line. -/
inductive Token
  /-- Text that is no other token: an unexpected character, or a remark. -/
  | unknown (text : String)
  /-- A run of blanks, kept as its length. -/
  | blanks (length : Nat)
  | literal (digits : String)
  | word (word : ReservedWord)
  | operator (operator : Operator)
  | ident (name : String)
  | leftParen
  | rightParen
  deriving DecidableEq, Repr

namespace Token

/-- The text of the token; a run of blanks is written as so many spaces. -/
def text : Token → String
  | .unknown s => s
  | .blanks n => String.ofList (List.replicate n ' ')
  | .literal s => s
  | .word w => w.text
  | .operator o => o.text
  | .ident s => s
  | .leftParen => "("
  | .rightParen => ")"

def isBlanks : Token → Bool
  | .blanks _ => true
  | _ => false

/-- The token that a single character stands for: an operator, a parenthesis,
or just the character. -/
def ofSymbol : Char → Token
  | '*' => .operator .multiply
  | '/' => .operator .divide
  | '+' => .operator .plus
  | '-' => .operator .minus
  | '=' => .operator .equal
  | '<' => .operator .less
  | '>' => .operator .greater
  | '(' => .leftParen
  | ')' => .rightParen
  | c => .unknown (String.singleton c)

def ofWord (s : String) : Token :=
  match ReservedWord.ofText? s with
  | some w => .word w
  | none => .ident s

def ofText? (s : String) : Option Token :=
  match ReservedWord.ofText? s with
  | some w => some (.word w)
  | none =>
    match s.toList with
    | [c] =>
      match ofSymbol c with
      | .unknown _ => none
      | t => some t
    | _ => none

def textOf (ts : List Token) : String :=
  String.join (ts.map text)

@[simp] theorem text_ofSymbol (c : Char) : (ofSymbol c).text = String.singleton c := by
  unfold ofSymbol
  split <;> rfl

@[simp] theorem text_ofWord (s : String) : (ofWord s).text = s := by
  unfold ofWord
  split
  · next h => exact ReservedWord.ofText?_eq_some_iff.1 h
  · rfl

@[simp] theorem textOf_nil : textOf [] = "" := rfl

@[simp] theorem textOf_cons (t : Token) (ts : List Token) :
    textOf (t :: ts) = t.text ++ textOf ts := by
  apply String.toList_injective
  simp [textOf]

@[simp] theorem textOf_append (ts us : List Token) :
    textOf (ts ++ us) = textOf ts ++ textOf us := by
  induction ts with
  | nil => simp
  | cons t ts ih => simp [ih, String.append_assoc]

end Token

end IntegerBasic
