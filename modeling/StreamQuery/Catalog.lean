import StreamQuery.ValueType

/-! # Catalog of entities

The catalog lists the entities that can be queried, with their fields. A
closure reads a field through its accessor or, failing that, by its bare name.
The compiler sees the catalog only through the two look-ups of a `Schema`.
-/

namespace StreamQuery

/-- A field as it stands in a path expression. -/
structure FieldRef where
  owner : String
  name : String
  type : ValueType
deriving DecidableEq, Repr, Inhabited

def FieldRef.text (field : FieldRef) : String := field.owner ++ "." ++ field.name

inductive FieldKind where
  | bool
  | int
  | long
  | double
  | text
  | entity (name : String)
  | collection (name : String)
deriving DecidableEq, Repr, Inhabited

def FieldKind.type : FieldKind → ValueType
  | bool => .bool
  | int => .int
  | long => .long
  | double => .double
  | text => .text
  | entity name => .entity name
  | collection name => .collection (.entity name)

/-- A field with the accessor that closures call to read it. -/
structure Field where
  name : String
  accessor : String
  kind : FieldKind
deriving DecidableEq, Repr, Inhabited

structure Entity where
  name : String
  fields : List Field
deriving DecidableEq, Repr, Inhabited

/-- The first field with the accessor, or else the first with that name. -/
def Entity.field? (entity : Entity) (accessor : String) : Option Field :=
  (entity.fields.find? (·.accessor == accessor)).or (entity.fields.find? (·.name == accessor))

/-- The questions that compiling a closure asks about entities. -/
structure Schema where
  /-- The field of an entity behind an accessor. -/
  field? : (entity accessor : String) → Option FieldRef
  /-- Whether rows of the entity can be queried. -/
  isEntity : String → Bool

/-- Entities, listed by name without repetition. -/
structure Catalog where
  entities : List Entity
deriving DecidableEq, Repr

namespace Catalog

def empty : Catalog := ⟨[]⟩

def place (entity : Entity) : List Entity → List Entity
  | [] => [entity]
  | first :: rest =>
    if entity.name = first.name then entity :: rest
    else if entity.name < first.name then entity :: first :: rest
    else first :: place entity rest

/-- Registers an entity; a later one of the same name wins. -/
def register (catalog : Catalog) (entity : Entity) : Catalog :=
  ⟨place entity catalog.entities⟩

def ofList (entities : List Entity) : Catalog := entities.foldl register empty

def entity? (catalog : Catalog) (name : String) : Option Entity :=
  catalog.entities.find? (·.name == name)

def field? (catalog : Catalog) (entity accessor : String) : Option FieldRef := do
  let found ← catalog.entity? entity
  let field ← found.field? accessor
  pure ⟨found.name, field.name, field.kind.type⟩

def schema (catalog : Catalog) : Schema where
  field? := catalog.field?
  isEntity name := (catalog.entity? name).isSome

end Catalog

end StreamQuery
