import StreamQuery.Compile.Operator

/-! # Calls as expressions

Which calls have a counterpart in a query: components of tuples, boxing and
unboxing, fields of entities, equality, and some methods of texts and numbers.
-/

namespace StreamQuery.Compile

/-- A call that fails, without the place where it stands. -/
inductive CallFault where
  | obstacle (obstacle : Obstacle)
  | field (entity accessor : String)

/-- What a call on values stands for: an expression, or all rows of an entity,
which need a source of their own. -/
inductive Called where
  | value (e : Expr)
  | rows (entity : String)

def tupleOwners : List String := ["Pair", "Tuple3", "Tuple4", "Tuple5"]

def tupleGetters : List String := ["getOne", "getTwo", "getThree", "getFour", "getFive"]

def tupleGetter? (method : Method) : Option Nat :=
  if method.isStatic || method.argc != 0 || !tupleOwners.contains method.owner then none
  else tupleGetters.findIdx? (· == method.name)

def boxedType? : String → Option ValueType
  | "Integer" => some .int
  | "Long" => some .long
  | "Double" => some .double
  | "Boolean" => some .bool
  | _ => none

/-- The type that a boxing or unboxing call converts to. -/
def boxing? (method : Method) : Option ValueType := do
  let boxed ← boxedType? method.owner
  match method.name, method.isStatic, method.argc with
  | "valueOf", true, 1 => some boxed
  | "intValue", false, 0 => some .int
  | "longValue", false, 0 => some .long
  | "doubleValue", false, 0 => some .double
  | "booleanValue", false, 0 => some .bool
  | _, _, _ => none

def tupleComponent (tuple : Expr) (index : Nat) : Except Obstacle Expr :=
  match tuple.type with
  | .tuple items =>
    if items.length ≤ index then .error (.tupleComponent index items.length)
    else .ok (.pick tuple index)
  | _ => .ok (.pick tuple index)

def entityCall (schema : Schema) (method : Method) (values : List Expr) : Except CallFault Expr :=
  match method.name, values with
  | "equals", [left, right] => (comparison .eq left right).mapError .obstacle
  | accessor, [receiver] =>
    match schema.field? method.owner accessor with
    | some field => .ok (.access receiver field)
    | none => .error (.field method.owner accessor)
  | _, _ => .error (.obstacle (.unknownCall method))

/-- The characters with a meaning of their own in a pattern. -/
def isWildcard (c : Char) : Bool := c == '%' || c == '_'

def pattern (method literal : String) : String :=
  match method with
  | "startsWith" => literal ++ "%"
  | "endsWith" => "%" ++ literal
  | _ => "%" ++ literal ++ "%"

/-- A search for a literal in a text. Patterns have no escapes, so the literal
must have no wildcards. -/
def like (method : String) (text searched : Expr) : Except Obstacle Expr :=
  match searched.asText with
  | none => .error (.patternNotLiteral method)
  | some literal =>
    if literal.any isWildcard then .error (.patternWildcard method)
    else .ok (.apply .like text (.literal (.text (pattern method literal))))

def concatenation (left right : Expr) : Except Obstacle Expr :=
  if right.type.flowsTo .text then .ok (.apply .concat left right)
  else .error (.textOperation right.type)

def entityRows (schema : Schema) (source entity : Expr) : Except Obstacle String :=
  if source.type ≠ .streamSource then .error .notStreamSource
  else match entity.asText with
    | none => .error .entityNotLiteral
    | some name => if schema.isEntity name then .ok name else .error (.entityUnknown name)

/-- The owners of an equality of two values. -/
def equalityOwners : List String := ["String", "Object", "Integer", "Long", "Double", "Boolean"]

/-- Calls that are known by the name of their owner. -/
def libraryCall (schema : Schema) (method : Method) (values : List Expr) :
    Except Obstacle Called :=
  match method.owner, method.name, method.isStatic, values with
  | "InQueryStreamSource", "stream", false, [source, entity] =>
    (entityRows schema source entity).map .rows
  | "String", "concat", false, [left, right] => (concatenation left right).map .value
  | "String", "toLowerCase", false, [text] => .ok (.value (.invoke .lower [text]))
  | "String", "toUpperCase", false, [text] => .ok (.value (.invoke .upper [text]))
  | "String", "trim", false, [text] => .ok (.value (.invoke .trim [text]))
  | "String", "length", false, [text] => .ok (.value (.invoke .length [text]))
  | "String", "startsWith", false, [text, searched] => (like "startsWith" text searched).map .value
  | "String", "endsWith", false, [text, searched] => (like "endsWith" text searched).map .value
  | "String", "contains", false, [text, searched] => (like "contains" text searched).map .value
  | "Math", "abs", true, [value] =>
    if value.type.isNumeric then .ok (.value (.invoke .abs [value]))
    else .error (.unknownCall method)
  | "Math", "sqrt", true, [value] =>
    if value.type.isNumeric then .ok (.value (.invoke .sqrt [value]))
    else .error (.unknownCall method)
  | owner, "equals", false, [left, right] =>
    if equalityOwners.contains owner then (comparison .eq left right).map .value
    else .error (.unknownCall method)
  | _, _, _, _ => .error (.unknownCall method)

/-- A call on values. Getters of tuples and boxing come first, then methods of
entities, then the calls known by name. -/
def valueCall (schema : Schema) (method : Method) (values : List Expr) : Except CallFault Called :=
  match tupleGetter? method, boxing? method, values with
  | some index, _, [tuple] => (tupleComponent tuple index).map .value |>.mapError .obstacle
  | some _, _, _ => .error (.obstacle .stackUnderflow)
  | none, some type, [value] => (convert value type).map .value |>.mapError .obstacle
  | none, _, _ =>
    if !method.isStatic && schema.isEntity method.owner then
      (entityCall schema method values).map .value
    else (libraryCall schema method values).mapError .obstacle

end StreamQuery.Compile
