import IntegerBasic.Main
import IntegerBasic.Proofs.Line.Retyping
import IntegerBasic.Proofs.Machine.Listing
import IntegerBasic.Proofs.Statement.Grammar
import IntegerBasic.Proofs.Expr.Spelling
import IntegerBasic.Proofs.Statement.Spelling
import IntegerBasic.Proofs.Machine.Step
import IntegerBasic.Proofs.Machine.Entering
import IntegerBasic.Proofs.Machine.Attempts
import IntegerBasic.Proofs.Machine.Limits
import IntegerBasic.Proofs.Program.History
import IntegerBasic.Proofs.Program.InPlace
import IntegerBasic.Proofs.Statement.InPlace
import IntegerBasic.Proofs.Machine.Failing
import IntegerBasic.Proofs.Machine.Slices
import IntegerBasic.Proofs.Machine.Reachable
import IntegerBasic.Proofs.Machine.Loop
import IntegerBasic.Proofs.Machine.Watching
import IntegerBasic.Proofs.Machine.Refinement
import IntegerBasic.Proofs.Session.Ending
import IntegerBasic.Proofs.CommandLine.Loading
import IntegerBasic.Proofs.Machine.Delivery
import IntegerBasic.Proofs.Session.Breaking
import IntegerBasic.Proofs.Machine.LastEntries
import IntegerBasic.Proofs.Expr.Exactness
import IntegerBasic.Proofs.Line.Splitting
import IntegerBasic.Proofs.Machine.Frame
import IntegerBasic.Proofs.Machine.TypedFiles
import IntegerBasic.Proofs.Machine.Agreement
import IntegerBasic.Proofs.Machine.Jumps
import IntegerBasic.Proofs.Session.MissingLines
import IntegerBasic.Proofs.Line.Spacing
import IntegerBasic.Proofs.Machine.Arithmetic
import IntegerBasic.Proofs.Machine.Answering
import IntegerBasic.Proofs.Expr.Nesting
import IntegerBasic.Proofs.Line.Nesting
import IntegerBasic.Proofs.Session.Idle
import IntegerBasic.Proofs.Expr.Height
import IntegerBasic.Proofs.Line.Height
import IntegerBasic.Proofs.Machine.Height
