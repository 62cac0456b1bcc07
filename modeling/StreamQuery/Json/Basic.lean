import StreamQuery.Json.Numeral

/-! # JSON values

The form in which closures are stored and exchanged.
-/

namespace StreamQuery

inductive Json where
  | null
  | bool (b : Bool)
  | number (n : Numeral)
  | text (s : String)
  | array (items : List Json)
  | object (fields : List (String × Json))
deriving Inhabited

namespace Json

def ofInt (i : Int) : Json := number (.ofInt i)

def ofNat (n : Nat) : Json := ofInt n

def ofOption {α : Type} (encode : α → Json) : Option α → Json
  | some a => encode a
  | none => null

/-! ## Parts -/

def field? (name : String) : Json → Option Json
  | object fields => fields.lookup name
  | _ => none

def bool? : Json → Option Bool
  | bool b => some b
  | _ => none

def text? : Json → Option String
  | text s => some s
  | _ => none

def items? : Json → Option (List Json)
  | array items => some items
  | _ => none

def int? : Json → Option Int
  | number n => n.toInt?
  | _ => none

def natBelow? (bound : Nat) (j : Json) : Option Nat := do
  let i ← j.int?
  if 0 ≤ i ∧ i < bound then some i.toNat else none

def word? : Json → Option Nat := natBelow? UInt64.size

def signedWord? (j : Json) : Option Int := do
  let i ← j.int?
  if Int64.minValue.toInt ≤ i ∧ i ≤ Int64.maxValue.toInt then some i else none

def double? : Json → Option Double
  | number n => n.toDouble?
  | _ => none

def list? {α : Type} (decode : Json → Option α) (j : Json) : Option (List α) :=
  j.items?.bind fun items => items.mapM decode

/-- Fields of a record: an object with these names and possibly others, or an
array of exactly these values in order. -/
def record? (fieldNames : List String) : Json → Option (List Json)
  | object fields => fieldNames.mapM fun name => fields.lookup name
  | array items => if items.length = fieldNames.length then some items else none
  | _ => none

/-- An alternative without content: its name, or its name with a null. -/
def name? : Json → Option String
  | text name => some name
  | object [(name, null)] => some name
  | _ => none

mutual

def depth : Json → Nat
  | array items => depthOfItems items + 1
  | object fields => depthOfFields fields + 1
  | _ => 0

def depthOfItems : List Json → Nat
  | [] => 0
  | j :: rest => max j.depth (depthOfItems rest)

def depthOfFields : List (String × Json) → Nat
  | [] => 0
  | (_, j) :: rest => max j.depth (depthOfFields rest)

end

/-! ## Text -/

def hexDigit (n : Nat) : Char := (Nat.toDigits 16 n).headD '0'

/-- Marks, backslashes and controls are escaped. -/
def escape (c : Char) : List Char :=
  if c == '"' then ['\\', '"']
  else if c == '\\' then ['\\', '\\']
  else if c.toNat < 32 then
    ['\\', 'u', '0', '0', hexDigit (c.toNat / 16), hexDigit (c.toNat % 16)]
  else [c]

def quote (s : String) : String :=
  "\"" ++ String.ofList (s.toList.flatMap escape) ++ "\""

mutual

def print : Json → String
  | null => "null"
  | bool true => "true"
  | bool false => "false"
  | number n => n.text
  | text s => quote s
  | array items => "[" ++ ",".intercalate (printItems items) ++ "]"
  | object fields => "\x7b" ++ ",".intercalate (printFields fields) ++ "\x7d"

def printItems : List Json → List String
  | [] => []
  | j :: rest => j.print :: printItems rest

def printFields : List (String × Json) → List String
  | [] => []
  | (name, j) :: rest => (quote name ++ ":" ++ j.print) :: printFields rest

end

end Json

end StreamQuery
