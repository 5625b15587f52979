import LineBasic.Main
import LineBasic.Host.Script
import LineBasic.Proofs.Expr.Evaluation
import LineBasic.Proofs.Expr.Blanks
import LineBasic.Proofs.Session.Continuation
import LineBasic.Proofs.Session.Safety
import LineBasic.Proofs.Store
import LineBasic.Proofs.Memory.ControlStack
import LineBasic.Proofs.Memory.Lookalikes
import LineBasic.Proofs.Session.Stack
import LineBasic.Proofs.Session.Failure
import LineBasic.Proofs.Session.Numbered
import LineBasic.Proofs.LineNumber
import LineBasic.Proofs.Session.NumberLimit
import LineBasic.Proofs.Session.Deletion
import LineBasic.Proofs.Session.Relisting
import LineBasic.Proofs.Memory.Twin
import LineBasic.Proofs.Memory.Bounds
import LineBasic.Proofs.Memory.Kin
import LineBasic.Proofs.Session.Drift
import LineBasic.Proofs.Session.Tracking
import LineBasic.Proofs.Session.Coupling
import LineBasic.Proofs.Session.InStep
import LineBasic.Proofs.Session.Abreast
import LineBasic.Proofs.Session.Alongside
import LineBasic.Proofs.Session.Lockstep
import LineBasic.Proofs.Session.ColdStart
import LineBasic.Proofs.Session.Writing
import LineBasic.Proofs.Session.TypedLine
import LineBasic.Proofs.Session.DirectLine
import LineBasic.Proofs.Session.Resumption
import LineBasic.Proofs.Memory.Variables
import LineBasic.Proofs.Session.Repetition
import LineBasic.Proofs.Session.Passes
import LineBasic.Proofs.Keystream
import LineBasic.Proofs.Session.Storing
import LineBasic.Proofs.Session.Portability
import LineBasic.Proofs.Session.Editing
import LineBasic.Proofs.Expr.Draws
import LineBasic.Proofs.Session.Replies
import LineBasic.Proofs.Session.Answerable
import LineBasic.Proofs.Expr.Unquoted
import LineBasic.Proofs.Session.Literals
import LineBasic.Proofs.Session.Marking
import LineBasic.Proofs.Session.PrintList
import LineBasic.Proofs.Session.ScanLength
import LineBasic.Proofs.Session.Breaking
import LineBasic.Proofs.Memory.Capacity
import LineBasic.Proofs.Memory.HoleOpening
import LineBasic.Proofs.Session.Merging
import LineBasic.Proofs.Expr.Walking
