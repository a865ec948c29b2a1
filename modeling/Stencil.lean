import Stencil.Instruction.Script
import Stencil.Main
import Stencil.Proofs.Run.Mirror
import Stencil.Proofs.Edit.Deletion
import Stencil.Proofs.Run.Plan
import Stencil.Proofs.Run.Trace
import Stencil.Proofs.Component.Walk
import Stencil.Proofs.Component.Rename
import Stencil.Proofs.Run.Course
import Stencil.Proofs.Run.Bound
import Stencil.Proofs.Rule.Failure
import Stencil.Proofs.Rule.Reply
import Stencil.Proofs.Rule.Unused
import Stencil.Proofs.Manifest.Names
import Stencil.Proofs.Manifest.Globals
import Stencil.Proofs.Manifest.RoundTrip
import Stencil.Proofs.Manifest.Copies
import Stencil.Proofs.Run.Canonical
import Stencil.Proofs.Rule.Rename
import Stencil.Proofs.Manifest.NormalForm
import Stencil.Proofs.Markup.Concat
import Stencil.Proofs.Edit.Concat
import Stencil.Proofs.Edit.Splice
import Stencil.Proofs.Manifest.Text
import Stencil.Proofs.CommandLine.Modes
import Stencil.Proofs.Edit.Tiling
import Stencil.Proofs.Markup.FirstFault
import Stencil.Proofs.Component.Turns
import Stencil.Proofs.Run.Visits
import Stencil.Proofs.Run.Nesting
import Stencil.Proofs.Manifest.Missing
import Stencil.Proofs.Manifest.Faults
import Stencil.Proofs.Report.Place
import Stencil.Proofs.Text.Words
import Stencil.Proofs.Rule.Ensure
import Stencil.Proofs.Rule.ClassWords
import Stencil.Proofs.Rule.Settled
import Stencil.Proofs.Rule.Sequence
import Stencil.Proofs.Rule.Reorder
import Stencil.Proofs.Rule.Effect
import Stencil.Proofs.Markup.Lexing
import Stencil.Proofs.Markup.Lookahead
import Stencil.Proofs.Markup.AttributeMap
import Stencil.Proofs.Component.Operations
