import TensorFS.Data.Machine

namespace TensorFS.Data

/-- A JSON document as its deserializer visits it: object members stay in
document order with repeated keys kept, and a number is seen as the unsigned
64-bit integer it spells, when it spells one. -/
inductive Json where
  | null
  | bool (value : Bool)
  | number (unsigned : Option UInt64)
  | string (text : Text)
  | array (items : List Json)
  | object (members : List (Text × Json))

namespace Json

def asU64 : Json → Option UInt64
  | number unsigned => unsigned
  | _ => none

def asString : Json → Option Text
  | string text => some text
  | _ => none

def asU64s : Json → Option (List UInt64)
  | array items => items.mapM asU64
  | _ => none

/-- The one value of a required field; a repeated field is refused. -/
def field (members : List (Text × Json)) (name : String) : Option Json :=
  match members.filter fun member => member.1 = name.toList with
  | [member] => some member.2
  | _ => none

end Json

end TensorFS.Data
