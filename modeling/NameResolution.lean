import NameResolution.Document.Encode
import NameResolution.Main
import NameResolution.Proofs.StepRuns
import NameResolution.Proofs.Tree.Lineage
import NameResolution.Proofs.Tree.Frame
import NameResolution.Proofs.Tree.Operations
import NameResolution.Proofs.Tree.Flatten
import NameResolution.Proofs.Tree.Unbound
import NameResolution.Proofs.Tree.Mapped
import NameResolution.Proofs.Document.Lowered
import NameResolution.Proofs.Scope.Enclosing
import NameResolution.Proofs.Registration.Effects
import NameResolution.Proofs.Registration.ImplicitMembers
import NameResolution.Proofs.Registration.Steps
import NameResolution.Proofs.Registration.Grounded
import NameResolution.Proofs.Registration.Registered
import NameResolution.Proofs.Registration.Invariant
import NameResolution.Proofs.Registration.Chain
import NameResolution.Proofs.Registration.ImplicitNames
import NameResolution.Proofs.Binding.Lexical
import NameResolution.Proofs.Binding.Steps
import NameResolution.Proofs.Binding.Agreement
import NameResolution.Proofs.Binding.Changes
import NameResolution.Proofs.Binding.Invariant
import NameResolution.Proofs.Binding.Counts
import NameResolution.Proofs.Resolve
import NameResolution.Proofs.LexicalBinding
import NameResolution.Proofs.Binding.Receiver
import NameResolution.Proofs.Binding.Policies
import NameResolution.Proofs.BindingSoundness
import NameResolution.Proofs.ImplicitReceiver
import NameResolution.Proofs.ExplicitReceiver
import NameResolution.Proofs.Registration.Again
import NameResolution.Proofs.Binding.Again
import NameResolution.Proofs.Idempotence
import NameResolution.Proofs.Fixpoint
import NameResolution.Proofs.Depth
import NameResolution.Proofs.Limits
import NameResolution.Proofs.Size
import NameResolution.Proofs.SingleTree
import NameResolution.Proofs.Accounting
import NameResolution.Proofs.Overloads
import NameResolution.Proofs.AmbiguityPolicies
import NameResolution.Proofs.Confinement
import NameResolution.Proofs.Tree.Renamed
import NameResolution.Proofs.Registration.Growth
import NameResolution.Proofs.Registration.Renamed
import NameResolution.Proofs.Binding.Renamed
import NameResolution.Proofs.Renaming
import NameResolution.Proofs.Tree.Matching
import NameResolution.Proofs.Document.Order
import NameResolution.Proofs.Registration.Distinct
import NameResolution.Proofs.Registration.Matching
import NameResolution.Proofs.Registration.Correspondence
import NameResolution.Proofs.Registration.Respects
import NameResolution.Proofs.Registration.Duplicates
import NameResolution.Proofs.FatalDuplicates
import NameResolution.Proofs.AbortedPass
import NameResolution.Proofs.DanglingIds
import NameResolution.Proofs.Malformed
import NameResolution.Proofs.Binding.Matching
import NameResolution.Proofs.Correspondence
import NameResolution.Proofs.Reordering
import NameResolution.Proofs.Revision
import NameResolution.Proofs.Evolution
import NameResolution.Proofs.Registration.Nesting
import NameResolution.Proofs.Mirroring
import NameResolution.Proofs.Registration.Entries
import NameResolution.Proofs.Declarations
import NameResolution.Proofs.RecordMembers
import NameResolution.Proofs.FiniteFloat
import NameResolution.Proofs.Document.Children
import NameResolution.Proofs.Document.RoundTrip
import NameResolution.Proofs.Document.ReadBack
import NameResolution.Proofs.Document.Faithful
import NameResolution.Proofs.Discovery
import NameResolution.Proofs.RunReports
import NameResolution.Proofs.Registration.RecordNames
import NameResolution.Proofs.MemberAccess
import NameResolution.Proofs.Tree.Positions
import NameResolution.Proofs.Tree.Preorder
import NameResolution.Proofs.ParentChains
import NameResolution.Proofs.Document.ForeignMembers
import NameResolution.Proofs.FoundDocuments
import NameResolution.Proofs.TypeNames
