import Conductor.Archive.Fault
import Conductor.Instruction.Decoder

namespace Conductor

inductive Phase where
  | metadata
  | header
  | literals
  | code
deriving DecidableEq

def Phase.name : Phase → String
  | metadata => "metadata"
  | header => "header"
  | literals => "literal pool"
  | code => "instruction"

-- What an artifact has too many of.
inductive Counted where
  | literals
  | tasks
  | metadataBytes
deriving DecidableEq

namespace Counted

def name : Counted → String
  | literals => "literals"
  | tasks => "task descriptors"
  | metadataBytes => "metadata bytes"

-- The largest count that can be written.
def limit : Counted → Nat
  | literals | tasks => UInt16.size - 1
  | metadataBytes => UInt32.size - 1

end Counted

-- What stops the archive of a record: no room left, or a value without an archived form.
inductive ArchiveFault where
  | full
  | freeze (error : FreezeError)
deriving DecidableEq

-- The text of a stream that takes no more bytes.
def fullMessage : String := "failed to write whole buffer"

def ArchiveFault.message : ArchiveFault → String
  | full => s!"io error: {fullMessage}"
  | freeze error => error.message

inductive EncodeError where
  | full
  | archive (fault : ArchiveFault)
  | unrepresentable (index : Nat) (tag : Tag)
  | tooMany (what : Counted) (count : Nat)
  | duplicateFunctionId (id : UInt16) (first second : String)
  | literalIndexGap (expected found : UInt16)
  | outOfOrder (attempted current : Phase)
  | poisoned
deriving DecidableEq

def EncodeError.message : EncodeError → String
  | full => s!"I/O error: {fullMessage}"
  | archive fault => s!"archive error: {fault.message}"
  | unrepresentable index tag =>
    s!"literal #{index} of type {tag.name} has no on-disk representation"
  | tooMany what count => s!"too many {what.name}: {count} exceeds {what.limit}"
  | duplicateFunctionId id first second =>
    s!"function id {id} is used by both `{first}` and `{second}`"
  | literalIndexGap expected found =>
    s!"literal indices must be dense: expected #{expected}, found #{found}"
  | outOfOrder attempted current =>
    s!"cannot write the {attempted.name} section while in the {current.name} section"
  | poisoned => "serializer already failed; discard the artifact and start over"

inductive DecodeError where
  | endOfInput
  | archive (fault : Archive.Fault)
  | metadataOffset (expected actual : Nat)
  | code (fault : CodeFault)
deriving DecidableEq

def DecodeError.message : DecodeError → String
  | endOfInput => "I/O error: failed to fill whole buffer"
  | archive fault => s!"archive error: {fault.message .stream}"
  | metadataOffset expected actual =>
    s!"metadata ends at {actual}, but the header says {expected}"
  | code fault => fault.message

end Conductor
