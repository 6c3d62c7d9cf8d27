import Disassembly.Json.Read
import Disassembly.Json.Write

namespace Disassembly.Json

/-- The value of a key that may be missing but not stand twice. -/
def atMostOne? (fields : List (String × Json)) (key : String) : Option (Option Json) :=
  match fields.filter fun field => field.1 == key with
  | [] => some none
  | [field] => some (some field.2)
  | _ => none

/-- The values of a record's keys, in the order of `keys`. A record is an object, where other
keys are passed over, or an array of the values from the first key on. -/
def values? (keys : List String) : Json → Option (List (Option Json))
  | object fields => do
    let fields ← fields.mapM fun field => field.1.map fun key => (key, field.2)
    keys.mapM (atMostOne? fields)
  | array elements =>
    if elements.length ≤ keys.length then
      some (elements.map some ++ List.replicate (keys.length - elements.length) none)
    else none
  | _ => none

def toString? : Json → Option String
  | string text => text
  | _ => none

def toBool? : Json → Option Bool
  | bool b => some b
  | _ => none

/-- An address is a whole number, spelled with digits only. -/
def toAddress? : Json → Option UInt32
  | number spelling => (readNumber 10 UInt32.size spelling.toList).toOption.map UInt32.ofNat
  | _ => none

/-- What `read?` makes of a value, or the default where there is none. -/
def valueOr? {α : Type} (default : α) (read? : Json → Option α) : Option Json → Option α
  | none => some default
  | some v => read? v

end Disassembly.Json
