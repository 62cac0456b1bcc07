import StreamQuery.Closure.Basic
import StreamQuery.Double.Shortest
import StreamQuery.Json.Basic

/-! # Closures as JSON

Compiled bodies are kept and exchanged as JSON. An alternative with content is
an object with its name as the only field, one without content is its name. A
double is written as its text, because a numeral cannot say infinity; bodies
are read with doubles as numerals.
-/

namespace StreamQuery

def Json.tagged (name : String) (content : Json) : Json := .object [(name, content)]

/-! ## Values and types -/

namespace Value

def toJson : Value → Json
  | null => .text "Null"
  | bool b => .tagged "Bool" (.bool b)
  | int i => .tagged "Int" (.ofInt i.toInt)
  | double x => .tagged "Double" (.text (Double.text x))
  | text s => .tagged "Text" (.text s)

/-- Reads a value; `textual` allows a double to be written as text. -/
def ofJson? (textual : Bool) : Json → Option Value
  | .object [("Bool", j)] => j.bool?.map .bool
  | .object [("Int", j)] => j.signedWord?.map fun i => .int (Int64.ofInt i)
  | .object [("Double", .text s)] => if textual then (Double.read? s).map .double else none
  | .object [("Double", j)] => j.double?.map .double
  | .object [("Text", j)] => j.text?.map .text
  | j => if j.name? == some "Null" then some .null else none

end Value

namespace ValueType

mutual

def toJson : ValueType → Json
  | null => .text "Null"
  | bool => .text "Bool"
  | int => .text "Int"
  | long => .text "Long"
  | double => .text "Double"
  | text => .text "Text"
  | entity name => .tagged "Entity" (.text name)
  | collection element => .tagged "Collection" element.toJson
  | tuple items => .tagged "Tuple" (.array (listToJson items))
  | stream element => .tagged "Stream" element.toJson
  | streamSource => .text "StreamSource"
  | any => .text "Any"

def listToJson : List ValueType → List Json
  | [] => []
  | type :: rest => type.toJson :: listToJson rest

end

def named? : String → Option ValueType
  | "Null" => some null
  | "Bool" => some bool
  | "Int" => some int
  | "Long" => some long
  | "Double" => some double
  | "Text" => some text
  | "StreamSource" => some streamSource
  | "Any" => some any
  | _ => none

mutual

def ofJson? : Json → Option ValueType
  | .text name => named? name
  | .object [(name, .null)] => named? name
  | .object [("Entity", .text name)] => some (entity name)
  | .object [("Collection", j)] => (ofJson? j).map collection
  | .object [("Tuple", .array items)] => (listOfJson? items).map tuple
  | .object [("Stream", j)] => (ofJson? j).map stream
  | _ => none

def listOfJson? : List Json → Option (List ValueType)
  | [] => some []
  | j :: rest => do
    let type ← ofJson? j
    let types ← listOfJson? rest
    some (type :: types)

end

end ValueType

/-! ## Instructions -/

namespace CompareOp

def toJson : CompareOp → Json
  | eq => .text "Eq"
  | ne => .text "Ne"
  | lt => .text "Lt"
  | le => .text "Le"
  | gt => .text "Gt"
  | ge => .text "Ge"

def ofJson? (j : Json) : Option CompareOp :=
  match j.name? with
  | some "Eq" => some eq
  | some "Ne" => some ne
  | some "Lt" => some lt
  | some "Le" => some le
  | some "Gt" => some gt
  | some "Ge" => some ge
  | _ => none

end CompareOp

namespace ArithOp

def toJson : ArithOp → Json
  | add => .text "Add"
  | sub => .text "Sub"
  | mul => .text "Mul"
  | div => .text "Div"
  | rem => .text "Rem"

def ofJson? (j : Json) : Option ArithOp :=
  match j.name? with
  | some "Add" => some add
  | some "Sub" => some sub
  | some "Mul" => some mul
  | some "Div" => some div
  | some "Rem" => some rem
  | _ => none

end ArithOp

namespace Argument

def toJson : Argument → Json
  | param index => .tagged "Param" (.ofNat index)
  | capture slot => .tagged "Capture" (.ofNat slot)

def ofJson? : Json → Option Argument
  | .object [("Param", j)] => j.word?.map param
  | .object [("Capture", j)] => j.word?.map capture
  | _ => none

end Argument

namespace Method

def toJson (method : Method) : Json :=
  .object [("owner", .text method.owner), ("name", .text method.name),
    ("argc", .ofNat method.argc), ("is_static", .bool method.isStatic)]

def ofJson? (j : Json) : Option Method := do
  match ← j.record? ["owner", "name", "argc", "is_static"] with
  | [owner, name, argc, isStatic] =>
    some ⟨← owner.text?, ← name.text?, ← argc.word?, ← isStatic.bool?⟩
  | _ => none

end Method

def Json.branch (op : CompareOp) (target : Nat) : Json :=
  .object [("op", op.toJson), ("target", .ofNat target)]

def Json.branch? (j : Json) : Option (CompareOp × Nat) := do
  match ← j.record? ["op", "target"] with
  | [op, target] => some (← CompareOp.ofJson? op, ← target.word?)
  | _ => none

mutual

def Instruction.toJson : Instruction → Json
  | .const value => .tagged "Const" value.toJson
  | .loadParam index => .tagged "LoadParam" (.ofNat index)
  | .loadCapture slot => .tagged "LoadCapture" (.ofNat slot)
  | .load slot => .tagged "Load" (.ofNat slot)
  | .store slot => .tagged "Store" (.ofNat slot)
  | .dup => .text "Dup"
  | .pop => .text "Pop"
  | .invoke method => .tagged "Invoke" method.toJson
  | .newTuple arity => .tagged "NewTuple" (.ofNat arity)
  | .makeClosure body captures =>
    .tagged "MakeClosure"
      (.object [("body", body.toJson), ("captures", .array (captures.map Argument.toJson))])
  | .arith op => .tagged "Arith" op.toJson
  | .neg => .text "Neg"
  | .compare op => .tagged "Compare" op.toJson
  | .convert type => .tagged "Convert" type.toJson
  | .ifZero op target => .tagged "If" (.branch op target)
  | .ifCompare op target => .tagged "IfCmp" (.branch op target)
  | .goto target => .tagged "Goto" (.ofNat target)
  | .ret => .text "Return"

def Body.toJson : Body → Json
  | ⟨id, params, captures, returns, code⟩ =>
    .object [("id", .ofNat id), ("params", .array (params.map ValueType.toJson)),
      ("captures", .array (captures.map ValueType.toJson)), ("returns", returns.toJson),
      ("code", .array (Instruction.listToJson code))]

def Instruction.listToJson : List Instruction → List Json
  | [] => []
  | instruction :: rest => instruction.toJson :: Instruction.listToJson rest

end

def Instruction.named? : String → Option Instruction
  | "Dup" => some .dup
  | "Pop" => some .pop
  | "Neg" => some .neg
  | "Return" => some .ret
  | _ => none

mutual

/-- Reads an instruction in which bodies are nested at most `levels` deep. -/
def Instruction.ofJsonWithin? : (levels : Nat) → Json → Option Instruction
  | 0, j => j.name?.bind Instruction.named?
  | levels + 1, j =>
    match j with
    | .object [("Const", j)] => (Value.ofJson? false j).map .const
    | .object [("LoadParam", j)] => j.word?.map .loadParam
    | .object [("LoadCapture", j)] => j.word?.map .loadCapture
    | .object [("Load", j)] => j.word?.map .load
    | .object [("Store", j)] => j.word?.map .store
    | .object [("Invoke", j)] => (Method.ofJson? j).map .invoke
    | .object [("NewTuple", j)] => j.word?.map .newTuple
    | .object [("MakeClosure", j)] => do
      match ← j.record? ["body", "captures"] with
      | [body, captures] =>
        some (.makeClosure (← Body.ofJsonWithin? levels body) (← captures.list? Argument.ofJson?))
      | _ => none
    | .object [("Arith", j)] => (ArithOp.ofJson? j).map .arith
    | .object [("Compare", j)] => (CompareOp.ofJson? j).map .compare
    | .object [("Convert", j)] => (ValueType.ofJson? j).map .convert
    | .object [("If", j)] => j.branch?.map fun (op, target) => .ifZero op target
    | .object [("IfCmp", j)] => j.branch?.map fun (op, target) => .ifCompare op target
    | .object [("Goto", j)] => j.word?.map .goto
    | j => j.name?.bind Instruction.named?

def Body.ofJsonWithin? : (levels : Nat) → Json → Option Body
  | 0, _ => none
  | levels + 1, j => do
    match ← j.record? ["id", "params", "captures", "returns", "code"] with
    | [id, params, captures, returns, code] =>
      some ⟨← id.word?, ← params.list? ValueType.ofJson?, ← captures.list? ValueType.ofJson?,
        ← ValueType.ofJson? returns, ← code.list? (Instruction.ofJsonWithin? levels)⟩
    | _ => none

end

/-- Every instruction and body is at least one level of the value. -/
def Instruction.ofJson? (j : Json) : Option Instruction := ofJsonWithin? j.depth j

def Body.ofJson? (j : Json) : Option Body := ofJsonWithin? j.depth j

end StreamQuery
