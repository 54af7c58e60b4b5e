import Conductor.Tag
import Conductor.Text.Utf8

namespace Conductor

-- Why a value has no archived form.
inductive FreezeError where
  | unrepresentable (tag : Tag)
  | cycle
deriving DecidableEq

def FreezeError.message : FreezeError → String
  | unrepresentable tag => s!"values of type {tag.name} have no archived representation"
  | cycle => "container references itself and cannot be archived"

namespace Archive

-- Whether all bytes lie in memory or are drawn from a stream.
inductive Source where
  | memory
  | stream
deriving DecidableEq

inductive Fault where
  | endOfField
  | endOfText
  | badBool (byte : Nat)
  | badText (fault : Utf8.Fault)
  | badVariant (index count : Nat)
  | badTag (code : Nat)
deriving DecidableEq

namespace Fault

def message (source : Source) : Fault → String
  | endOfField =>
    match source with
    | .memory => "io error: unexpected end of file"
    | .stream => "io error: failed to fill whole buffer"
  | endOfText =>
    match source with
    | .memory => "io error: "
    | .stream => "io error: failed to fill whole buffer"
  | badBool byte => s!"invalid u8 while decoding bool, expected 0 or 1, found {byte}"
  | badText fault => s!"string is not valid utf8: {fault.message}"
  | badVariant index count =>
    s!"invalid value: integer `{index}`, expected variant index 0 <= i < {count}"
  | badTag code => s!"unknown type code {code}"

end Fault

end Archive

end Conductor
