import IntegerBasic.FileTree
import IntegerBasic.Program
import IntegerBasic.Text.Lines

/-!
# Program files

A program file holds numbered lines, one after the other, as they would be typed.
The lines are taken over in order, and the first one that cannot be is reported
with its position.
-/

namespace IntegerBasic

inductive FileFault
  | path (fault : PathFault)
  | notText
  | badLine (position : Nat) (error : Error)
  deriving DecidableEq, Repr

namespace FileFault

def message : FileFault → String
  | .path f => f.message
  | .notText => "stream did not contain valid UTF-8"
  | .badLine i e =>
    e.message ++ " in line " ++ i.repr ++ " of the file. (Not BASIC line number)"

end FileFault

namespace Program

/-- Takes over lines, the first of which has the position `i`. -/
def loadLines (p : Program) (i : Nat) : List (Option String) → Except FileFault Program
  | [] => .ok p
  | none :: _ => .error .notText
  | some s :: rest =>
    match p.load s with
    | .error e => .error (.badLine i e)
    | .ok p => p.loadLines (i + 1) rest

def ofBytes (limit : UInt32) (bytes : List UInt8) : Except FileFault Program :=
  (empty limit).loadLines 1 (Text.fileLines bytes)

def ofFile (limit : UInt32) : Except PathFault (List UInt8) → Except FileFault Program
  | .error f => .error (.path f)
  | .ok bytes => ofBytes limit bytes

end Program

end IntegerBasic
