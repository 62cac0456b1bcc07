import StreamQuery.Proofs.Joins

/-! # Folding refines operations on lists

The clauses of a selection are carried out in a fixed order, whatever the order of
the operations that added them. The list of a reached query is nevertheless the
list of the query before with the operation carried out on it last: an operation
that could not be moved to its clause is refused.
-/

namespace StreamQuery

variable {Obj : Type} {db : Database Obj} {ν : Valuation Obj}

namespace Query

variable {q q' : Query}

theorem sound_ofEntity (db : Database Obj) (ν : Valuation Obj) (name : String) :
    (ofEntity name).Sound db ν := by
  refine ⟨rfl, ?_, fun _ _ => trivial⟩
  simp [currentRow, Select.currentRow, ofEntity, ofSource, Select.ofSource, Select.root?,
    Source.row, Expr.Elementary, Expr.query?]

/-- What one fold does to the list of a query. -/
theorem Sound.folded [DecidableEq Obj] {compiler : Compiler} {operation : Operation}
    (sound : q.Sound db ν) (closed : q.Closed) (regular : operation.Regular db ν compiler q)
    (folds : compiler.fold q operation = .ok q') :
    q'.Sound db ν ∧ ((db.product q.current.sources ν).length < 2 ^ 64 →
      operation.onList db ν compiler q (q.current.list db ν) = some (q'.current.list db ν)) := by
  have rowwise : operation.isRowwise = true := by
    cases operation <;> first | rfl | exact regular.elim
  cases rowFold_of_fold rowwise (Compiler.fold_eq_ok.mp folds) with
  | filter row derived =>
      obtain ⟨inner, mark, translated, rfl, bound⟩ := translated?_of_overRow row
      obtain ⟨sound', list⟩ := sound.filtered bound (regular inner translated) derived
      exact ⟨sound', fun _ => by rw [Operation.onList, translated, list]; rfl⟩
  | select row derived =>
      obtain ⟨inner, mark, translated, rfl, bound⟩ := translated?_of_overRow row
      obtain ⟨sound', list⟩ := sound.projected bound (regular inner translated) derived
      exact ⟨sound', fun _ => by rw [Operation.onList, translated, list]; rfl⟩
  | join row derived =>
      obtain ⟨inner, mark, translated, inlined, bound⟩ := translated?_of_overRow row
      obtain ⟨other, t, rfl, regular⟩ := regular inner translated
      obtain ⟨sound', list⟩ := sound.joined closed bound regular inlined derived
      exact ⟨sound', fun _ => by rw [Operation.onList, translated, list]⟩
  | sortedBy row derived =>
      obtain ⟨inner, mark, translated, rfl, bound⟩ := translated?_of_overRow row
      obtain ⟨sound', list⟩ := sound.sorted bound (regular inner translated) derived
      exact ⟨sound', fun _ => by rw [Operation.onList, translated, list]; rfl⟩
  | skip derived =>
      exact ⟨sound.skipped derived, fun few => congrArg some (list_skipped few derived).symm⟩
  | limit derived =>
      exact ⟨sound.limited derived, fun _ => congrArg some (list_limited derived).symm⟩
  | distinct derived =>
      exact ⟨sound.distinctRows derived, fun _ => congrArg some (list_distinctRows derived).symm⟩

end Query

namespace Reached

variable [DecidableEq Obj] {q q' : Query}

theorem sound (h : Reached (fun compiler q operation _ => operation.Regular db ν compiler q) q) :
    q.Sound db ν := by
  induction h with
  | opened opens => exact Compiler.streamAll_eq_ok opens ▸ Query.sound_ofEntity db ν _
  | folded reached folds regular ih => exact (ih.folded reached.closed regular folds).1

/-- The list of a folded query is the list of the query before, with the operation
carried out on it. -/
theorem list_fold {compiler : Compiler} {operation : Operation}
    (h : Reached (fun compiler q operation _ => operation.Regular db ν compiler q) q)
    (folds : compiler.fold q operation = .ok q') (regular : operation.Regular db ν compiler q)
    (few : (db.product q.current.sources ν).length < 2 ^ 64) :
    operation.onList db ν compiler q (q.current.list db ν) = some (q'.current.list db ν) :=
  (h.sound.folded h.closed regular folds).2 few

def owners : Compiler where
  schema := {
    isEntity := fun name => name == "Person" || name == "Pet"
    field? := fun entity accessor =>
      match entity, accessor with
      | "Person", "getAge" => some ⟨"Person", "age", .int⟩
      | "Person", "getPets" => some ⟨"Person", "pets", .collection (.entity "Pet")⟩
      | "Pet", "getAge" => some ⟨"Pet", "age", .int⟩
      | _, _ => none }

def personAge : Closure where
  body := ⟨1, [.entity "Person"], [], .int,
    [.loadParam 0, .invoke ⟨"Person", "getAge", 0, false⟩, .ret]⟩
  captured := []

def petsOf : Closure where
  body := ⟨2, [.entity "Person"], [], .any,
    [.loadParam 0, .invoke ⟨"Person", "getPets", 0, false⟩,
      .invoke ⟨"JinqStream", "from", 1, true⟩, .ret]⟩
  captured := []

def isOlder : Closure where
  body := ⟨3, [.any], [], .bool,
    [.loadParam 0, .invoke ⟨"Pair", "getOne", 0, false⟩, .invoke ⟨"Person", "getAge", 0, false⟩,
      .loadParam 0, .invoke ⟨"Pair", "getTwo", 0, false⟩, .invoke ⟨"Pet", "getAge", 0, false⟩,
      .compare .gt, .ret]⟩
  captured := []

/-- Persons and pets are known by their ages. Two persons are thirty, and each has two
pets that are three. -/
def ages : Database Int64 where
  ops := .standard fun field d =>
    match field.name, d with
    | "age", .object age => .int age
    | _, d => d
  rows
    | "Person" => [.object 30, .object 65, .object 30]
    | _ => []
  elements _ := [.object 3, .object 40, .object 3]
  order := Ranking.ofInt.through fun
    | .value (.int i) => i.toInt
    | _ => 0

def unset : Valuation Int64 := ⟨fun _ => .null, fun _ => .null, fun _ => .null⟩

theorem ran_isOlder :
    (owners.fold (.ofEntity "Person") (.sortedBy personAge .desc)).map (fun q =>
      (q.translated? owners petsOf, (owners.fold q (.join petsOf)).map fun q =>
        (owners.fold q .distinct).map fun q =>
          (q.translated? owners isOlder, (ages.product q.current.sources unset).length,
            (owners.fold q (.filter isOlder)).map (·.current.list ages unset)))) =
      let person := Expr.element 1 (.entity "Person")
      let pair := Expr.element 1 (.tuple [.entity "Person", .entity "Pet"])
      let pets := Source.along 1
        (.access person ⟨"Person", "pets", .collection (.entity "Pet")⟩)
      .ok (some (.embed (.ofSource pets)), .ok (.ok
        (some (.compare .gt (.access (.pick pair 0) ⟨"Person", "age", .int⟩)
          (.access (.pick pair 1) ⟨"Pet", "age", .int⟩)), 9,
        .ok [.tuple [.object 65, .object 3], .tuple [.object 65, .object 40],
          .tuple [.object 30, .object 3]]))) := by
  cbv

/-- A filter after a sort, a join and leaving out repeated rows. -/
theorem list_fold_isOlder :
    ∃ q₁ q₂ q q', owners.fold (.ofEntity "Person") (.sortedBy personAge .desc) = .ok q₁ ∧
      owners.fold q₁ (.join petsOf) = .ok q₂ ∧ owners.fold q₂ .distinct = .ok q ∧
      owners.fold q (.filter isOlder) = .ok q' ∧
      (Operation.filter isOlder).Regular ages unset owners q ∧
      (ages.product q.current.sources unset).length < 2 ^ 64 ∧
      (Operation.filter isOlder).onList ages unset owners q (q.current.list ages unset) =
        some (q'.current.list ages unset) ∧
      q'.current.list ages unset = [.tuple [.object 65, .object 3],
        .tuple [.object 65, .object 40], .tuple [.object 30, .object 3]] := by
  obtain ⟨q₁, sorts, found⟩ := Compile.map_eq_ok.mp ran_isOlder
  obtain ⟨pets, found⟩ := Prod.mk.inj found
  obtain ⟨q₂, joins, found⟩ := Compile.map_eq_ok.mp found
  obtain ⟨q, distinct, found⟩ := Compile.map_eq_ok.mp found
  obtain ⟨older, found⟩ := Prod.mk.inj found
  obtain ⟨few, found⟩ := Prod.mk.inj found
  obtain ⟨q', filters, list⟩ := Compile.map_eq_ok.mp found
  have age : (Query.ofEntity "Person").translated? owners personAge =
      some (.access (.element 1 (.entity "Person")) ⟨"Person", "age", .int⟩) := by
    decide +kernel
  have byAge : (Operation.sortedBy personAge .desc).Regular ages unset owners
      (.ofEntity "Person") := by
    intro e he
    obtain rfl := Option.mem_unique he age
    exact ⟨by simp [Expr.access, Expr.Elementary, Expr.query?], fun _ _ => trivial⟩
  have withPets : (Operation.join petsOf).Regular ages unset owners q₁ := by
    intro e he
    obtain rfl := Option.mem_unique he pets
    refine ⟨_, _, rfl, ?_, fun _ _ c hc => ?_, fun _ _ _ _ c hc => ?_⟩
    · simp [Query.ofSource, Select.ofSource, Select.clauses, Source.along, Source.path?,
        Expr.access, Expr.Elementary, Expr.query?]
    · obtain rfl := List.mem_singleton.mp hc
      trivial
    · cases hc
  have isRegular : (Operation.filter isOlder).Regular ages unset owners q := by
    intro e he
    obtain rfl := Option.mem_unique he older
    refine ⟨?_, fun _ _ => ⟨trivial, trivial, by simp [BinaryOp.isLogical]⟩⟩
    simp [Expr.compare, Expr.apply, Expr.access, Expr.pick, Expr.Elementary, Expr.query?]
  have opens : owners.streamAll "Person" = .ok (.ofEntity "Person") := rfl
  have reached : Reached (fun compiler q operation _ =>
      operation.Regular ages unset compiler q) q :=
    .folded (.folded (.folded (.opened opens) sorts byAge) joins withPets) distinct trivial
  have fits : (ages.product q.current.sources unset).length < 2 ^ 64 := by
    rw [few]
    decide
  exact ⟨q₁, q₂, q, q', sorts, joins, distinct, filters, isRegular, fits,
    list_fold reached filters isRegular fits, list⟩

end Reached

end StreamQuery
