/-! # Types of values

Every expression carries one of these types. Numbers widen to the wider of
two numeric types, and a value may flow to a place of another type when the
two types agree up to erasure, numeric width and null.
-/

namespace StreamQuery

/-- The type of a value. `any` is an erased type that agrees with every other. -/
inductive ValueType where
  | null
  | bool
  | int
  | long
  | double
  | text
  | entity (name : String)
  | collection (element : ValueType)
  | tuple (items : List ValueType)
  | stream (element : ValueType)
  | streamSource
  | any
deriving Repr, Inhabited

namespace ValueType

/-! ## Equality -/

mutual

def same : ValueType → ValueType → Bool
  | null, null => true
  | bool, bool => true
  | int, int => true
  | long, long => true
  | double, double => true
  | text, text => true
  | entity a, entity b => a == b
  | collection a, collection b => same a b
  | tuple a, tuple b => sameAll a b
  | stream a, stream b => same a b
  | streamSource, streamSource => true
  | any, any => true
  | _, _ => false

def sameAll : List ValueType → List ValueType → Bool
  | [], [] => true
  | a :: as, b :: bs => same a b && sameAll as bs
  | _, _ => false

end

mutual

theorem same_self : ∀ a : ValueType, same a a = true
  | null | bool | int | long | double | text | streamSource | any => by simp [same]
  | entity _ => by simp [same]
  | collection a => by simp [same, same_self a]
  | tuple items => by simp [same, sameAll_self items]
  | stream a => by simp [same, same_self a]

theorem sameAll_self : ∀ as : List ValueType, sameAll as as = true
  | [] => by simp [sameAll]
  | a :: as => by simp [sameAll, same_self a, sameAll_self as]

end

mutual

theorem eq_of_same : ∀ {a b : ValueType}, same a b = true → a = b
  | null, b, h => by cases b <;> simp_all [same]
  | bool, b, h => by cases b <;> simp_all [same]
  | int, b, h => by cases b <;> simp_all [same]
  | long, b, h => by cases b <;> simp_all [same]
  | double, b, h => by cases b <;> simp_all [same]
  | text, b, h => by cases b <;> simp_all [same]
  | entity _, b, h => by cases b <;> simp_all [same]
  | streamSource, b, h => by cases b <;> simp_all [same]
  | any, b, h => by cases b <;> simp_all [same]
  | collection a, b, h => by
      cases b with
      | collection b =>
          have inner : a = b := eq_of_same (by simpa [same] using h)
          rw [inner]
      | _ => simp [same] at h
  | stream a, b, h => by
      cases b with
      | stream b =>
          have inner : a = b := eq_of_same (by simpa [same] using h)
          rw [inner]
      | _ => simp [same] at h
  | tuple as, b, h => by
      cases b with
      | tuple bs =>
          have inner : as = bs := eq_of_sameAll (by simpa [same] using h)
          rw [inner]
      | _ => simp [same] at h

theorem eq_of_sameAll : ∀ {as bs : List ValueType}, sameAll as bs = true → as = bs
  | [], bs, h => by cases bs <;> simp_all [sameAll]
  | a :: as, bs, h => by
      cases bs with
      | nil => simp [sameAll] at h
      | cons b bs =>
          simp only [sameAll, Bool.and_eq_true] at h
          rw [eq_of_same h.1, eq_of_sameAll h.2]

end

theorem same_iff {a b : ValueType} : same a b = true ↔ a = b :=
  ⟨eq_of_same, fun h => h ▸ same_self a⟩

instance : DecidableEq ValueType := fun _ _ => decidable_of_iff _ same_iff

/-! ## Classes of types -/

/-- Whole and floating numbers. -/
def isNumeric : ValueType → Bool
  | int | long | double => true
  | _ => false

def isBool : ValueType → Bool
  | bool => true
  | _ => false

/-- Scalars: the types of sort keys, of ordered comparisons and of bound
parameters. -/
def isScalar : ValueType → Bool
  | bool | int | long | double | text => true
  | _ => false

def isStream : ValueType → Bool
  | stream _ => true
  | _ => false

def widen (a b : ValueType) : Option ValueType :=
  if !(a.isNumeric && b.isNumeric) then none
  else if a = double ∨ b = double then some double
  else if a = long ∨ b = long then some long
  else some int

theorem isNumeric_widen {a b : ValueType} (h : a.isNumeric = true) :
    ((a.widen b).getD a).isNumeric = true := by
  unfold widen
  split
  · exact h
  · split
    · rfl
    · split <;> rfl

mutual

/-- Whether a value of the first type may stand where the second is expected. -/
def flowsTo : ValueType → ValueType → Bool
  | null, _ => true
  | any, _ => true
  | tuple as, expected =>
    match expected with
    | any => true
    | tuple bs => flowAll as bs
    | _ => false
  | stream a, expected =>
    match expected with
    | any => true
    | stream b => flowsTo a b
    | _ => false
  | collection a, expected =>
    match expected with
    | any => true
    | collection b => flowsTo a b
    | _ => false
  | found, expected =>
    decide (expected = any) || decide (found = expected) || (found.isNumeric && expected.isNumeric)

def flowAll : List ValueType → List ValueType → Bool
  | [], [] => true
  | a :: as, b :: bs => flowsTo a b && flowAll as bs
  | _, _ => false

end

/-! ## Text -/

mutual

def name : ValueType → String
  | null => "null"
  | bool => "bool"
  | int => "int"
  | long => "long"
  | double => "double"
  | text => "text"
  | entity n => n
  | collection element => "collection<" ++ element.name ++ ">"
  | tuple [] => "()"
  | tuple (first :: rest) => "(" ++ first.name ++ furtherNames rest ++ ")"
  | stream element => "stream<" ++ element.name ++ ">"
  | streamSource => "stream-source"
  | any => "any"

def furtherNames : List ValueType → String
  | [] => ""
  | item :: rest => ", " ++ item.name ++ furtherNames rest

end

end ValueType

end StreamQuery
