import Aquila.Lib.Documents
import Aquila.Lib.Float64
import Aquila.Net

/-! `json.Unmarshal` into interface values, as the documentation of `encoding/json` has it. The model takes a
    decoder as a parameter, and this one stands for it where one is needed. -/

namespace Aquila.Unmarshal
open Documents (Document Text)

/-- A string as `encoding/json` stores it. -/
def stored (s : Text) : String := .ofList (s.map Json.scalar)

mutual

/-- A document as an interface value. A number without a nearest `float64` is an error. -/
def decode : Document → Option JSON
  | .null => some .null
  | .bool b => some (.bool b)
  | .num x => (Float64.nearest x).map .num
  | .str s => some (.str (stored s))
  | .arr xs => (decodeList xs).map .arr
  | .obj members => (decodeMembers members).map .obj

def decodeList : List Document → Option (List JSON)
  | [] => some []
  | d :: ds => (decode d).bind fun v => (decodeList ds).map (v :: ·)

/-- A later member replaces one with the same key. -/
def decodeMembers : List (Text × Document) → Option (List (String × JSON))
  | [] => some []
  | (k, d) :: members => (decode d).bind fun v => (decodeMembers members).map fun rest =>
      if stored k ∈ rest.map (·.1) then rest else (stored k, v) :: rest

end

/-- `encoding/json` gives up on a document that is nested deeper. -/
def maxNestingDepth : Nat := 10000

def unmarshal (raw : List UInt8) : Option JSON :=
  (Documents.parse raw).bind fun d => if d.depth ≤ maxNestingDepth then decode d else none

end Aquila.Unmarshal

namespace Aquila

/-- The plain library with the decoder of `encoding/json`. -/
def Lib.json : Lib := { Lib.plain with unmarshal := Unmarshal.unmarshal }

end Aquila
