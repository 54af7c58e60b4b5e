import Conductor.Numeric.Shortest
import Conductor.Text.Utf8
import Conductor.Text.Quoted
import Conductor.Hash.SipHash
import Conductor.Tag
import Conductor.OrderedMap
import Conductor.Value
import Conductor.Operator
import Conductor.ValueError
import Conductor.Container
import Conductor.Store.Basic
import Conductor.Store.Path
import Conductor.Store.Display
import Conductor.Store.Digest
import Conductor.Store.Compatible
import Conductor.Store.Access
import Conductor.Arithmetic
import Conductor.Archive.Freeze
import Conductor.Task
import Conductor.Instruction.Decoder
import Conductor.LiteralPool
import Conductor.Artifact.Program
import Conductor.Registry
import Conductor.Packing
import Conductor.Host
import Conductor.Command
import Conductor.Main
import Conductor.Proofs.OrderedMap
import Conductor.Proofs.Text.Utf8
import Conductor.Proofs.Archive.Fields
import Conductor.Proofs.Store.Compatibility
import Conductor.Proofs.Archive.Tree
import Conductor.Proofs.Store.Alike
import Conductor.Proofs.Store.Reachability
import Conductor.Proofs.Archive.Unfolding
import Conductor.Proofs.Archive.RoundTrip
import Conductor.Proofs.Artifact.Steps
import Conductor.Proofs.Artifact.Session
import Conductor.Proofs.Instruction.Stream
import Conductor.Proofs.Artifact.SymbolTable
import Conductor.Proofs.Task
import Conductor.Proofs.Artifact.RoundTrip
import Conductor.Proofs.Store.Marking
import Conductor.Proofs.Store.Release
import Conductor.Proofs.Registry.Collection
import Conductor.Proofs.Store.Writing
import Conductor.Proofs.Registry.Run
import Conductor.Proofs.Registry.Handles
import Conductor.Proofs.Registry.Completeness
import Conductor.Proofs.Instruction.Relocation
import Conductor.Proofs.Instruction.Defect
import Conductor.Proofs.Archive.Accepted
import Conductor.Proofs.Archive.Thawing
import Conductor.Proofs.Artifact.Sections
import Conductor.Proofs.Artifact.Accepted
import Conductor.Proofs.LiteralPool
import Conductor.Proofs.Interning
import Conductor.Proofs.Artifact.Reproduction
import Conductor.Proofs.Numeric.Rounding
import Conductor.Proofs.Comparison
import Conductor.Proofs.Numeric.Exact
import Conductor.Proofs.Numeric.Interval
import Conductor.Proofs.Numeric.Shortest
import Conductor.Proofs.Numeric.Positional
import Conductor.Proofs.Equality
import Conductor.Proofs.Keys
import Conductor.Proofs.Store.Symmetry
import Conductor.Proofs.Store.Samples
import Conductor.Proofs.Archive.Freezing
import Conductor.Proofs.Artifact.Refusal
import Conductor.Proofs.Artifact.Writability
import Conductor.Proofs.Archive.Delimiting
import Conductor.Proofs.Instruction.Cut
import Conductor.Proofs.Artifact.Measured
import Conductor.Proofs.Artifact.Truncation
import Conductor.Proofs.Archive.Nodes
import Conductor.Proofs.Archive.Normalization
import Conductor.Proofs.Archive.Types
import Conductor.Proofs.Text.Order
import Conductor.Proofs.Artifact.Numbering
import Conductor.Proofs.Artifact.TableOrder
import Conductor.Proofs.Artifact.LiteralMap
import Conductor.Proofs.Artifact.OutOfTurn
import Conductor.Proofs.Artifact.PoolMap
import Conductor.Proofs.Artifact.MapSection
import Conductor.Proofs.Artifact.MetadataEnd
import Conductor.Proofs.Artifact.Rekeying
import Conductor.Proofs.MapHistory
import Conductor.Proofs.Recording
import Conductor.Proofs.Registry.Slots
import Conductor.Proofs.Store.Recursion
import Conductor.Proofs.Store.Sketch
import Conductor.Proofs.Store.Guards
import Conductor.Proofs.Store.StructuralEquality
import Conductor.Proofs.Packing
import Conductor.Proofs.Marshalling
import Conductor.Proofs.Interchange
import Conductor.Proofs.Store.Mirroring
import Conductor.Proofs.Registry.Mirroring
import Conductor.Proofs.Registry.Refusal
import Conductor.Store.Request
import Conductor.Proofs.Integers
import Conductor.Proofs.Operators
import Conductor.Proofs.Shape
import Conductor.Proofs.Store.Requests
import Conductor.Proofs.Artifact.Gap
import Conductor.Proofs.Text.Visible
import Conductor.Proofs.Store.Display
import Conductor.Proofs.Listing
