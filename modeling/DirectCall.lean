import DirectCall.Main
import DirectCall.Proofs.Transformation.WellMade
import DirectCall.Proofs.CallSite.Executable
import DirectCall.Proofs.CallSite.Reference
import DirectCall.Proofs.CallSite.Substitution
import DirectCall.Proofs.Constants.Cover
import DirectCall.Proofs.Constants.Escape
import DirectCall.Proofs.Hierarchy.Lookup
import DirectCall.Proofs.Transformation.Scope
import DirectCall.Proofs.Bytes.ReadBack
import DirectCall.Proofs.ConstantPool.Layout
import DirectCall.Proofs.Transformation.Isolation
import DirectCall.Proofs.ClassFile.ReadBack
import DirectCall.Proofs.ConstantPool.Growth
import DirectCall.Proofs.ConstantPool.Requests
import DirectCall.Proofs.EditPlan.Forest
import DirectCall.Proofs.Code.Encode
import DirectCall.Proofs.Transformation.Fidelity
import DirectCall.Proofs.Hierarchy.Closure
import DirectCall.Proofs.Hierarchy.Subtype
import DirectCall.Proofs.Hierarchy.Candidates
import DirectCall.Proofs.Hierarchy.Meaning
import DirectCall.Proofs.Hierarchy.Regular
import DirectCall.Proofs.Files.Tree
import DirectCall.Proofs.Files.System
import DirectCall.Proofs.Resource.Load
import DirectCall.Proofs.Resource.Output
import DirectCall.Proofs.Hierarchy.Extension
import DirectCall.Proofs.Hierarchy.Found
import DirectCall.Proofs.Hierarchy.DeclaredOrder
import DirectCall.Proofs.ClassFile.Lossless
import DirectCall.Proofs.Insn.Shape
import DirectCall.Proofs.Code.Written
import DirectCall.Proofs.Code.Settle
import DirectCall.Proofs.Code.Placed
import DirectCall.Proofs.Code.Laid
import DirectCall.Proofs.Code.Emitted
import DirectCall.Proofs.Code.Resolved
import DirectCall.Proofs.Code.Range
import DirectCall.Proofs.Code.RoundTrip
import DirectCall.Proofs.Code.Shortest
import DirectCall.Proofs.Code.Reproduced
import DirectCall.Proofs.Code.WellMade
import DirectCall.Proofs.Verification.Typing
import DirectCall.Proofs.Frame.Solver
import DirectCall.Proofs.CallSite.LiveHandlers
import DirectCall.Proofs.CallSite.LastHandlers
import DirectCall.Proofs.Verification.StackMapTable
import DirectCall.Proofs.Sources.Cover
import DirectCall.Proofs.Sources.Record
import DirectCall.Proofs.Sources.Realised
import DirectCall.Proofs.CallSite.Reuse
import DirectCall.Proofs.CallSite.Ahead
import DirectCall.Proofs.CallSite.Fresh
import DirectCall.Proofs.CallSite.DeadLookups
import DirectCall.Proofs.CallSite.Unread
import DirectCall.Proofs.CallSite.WellTyped
import DirectCall.Proofs.Flow.Thinned
import DirectCall.Proofs.Flow.Exact
import DirectCall.Proofs.Frame.Walk
import DirectCall.Proofs.Frame.ThreeForTwo
import DirectCall.Proofs.CallSite.ClassLookup
import DirectCall.Proofs.CallSite.ClassLookups
import DirectCall.Proofs.CallSite.ClassSites
import DirectCall.Proofs.CallSite.LocalLookups
import DirectCall.Proofs.Descriptor.Grammar
import DirectCall.Proofs.Descriptor.Splits
import DirectCall.Proofs.Hierarchy.Supertypes
import DirectCall.Proofs.Hierarchy.CommonSuperclass
import DirectCall.Proofs.Text.Groups
import DirectCall.Proofs.Sources.Evidence
import DirectCall.Proofs.Frame.Slots
