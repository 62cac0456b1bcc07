import StreamQuery.Proofs.StableSort
import StreamQuery.Proofs.Substitution

/-! # Lists of rows

Over a database a query of rows is a list: its sources are looped over, the first
one outermost, rows that fail a filter are left out, the others are sorted, and
the projection makes data out of them. Repeated data are left out of a distinct
query. Then the first rows are left out and no more are taken than the limit
allows. A stream operation does to a list what it says.
-/

namespace StreamQuery

/-! ## Data -/

section

variable {Obj : Type} [DecidableEq Obj]

mutual

def Datum.decEq : (a b : Datum Obj) → Decidable (a = b)
  | .value v, .value w => decidable_of_iff (v = w) (by simp)
  | .object o, .object p => decidable_of_iff (o = p) (by simp)
  | .tuple as, .tuple bs =>
    match Datum.decEqAll as bs with
    | isTrue same => isTrue (congrArg Datum.tuple same)
    | isFalse other => isFalse (by simpa using other)
  | .value _, .tuple _ | .value _, .object _ | .tuple _, .value _ | .tuple _, .object _
  | .object _, .value _ | .object _, .tuple _ => isFalse (by simp)

def Datum.decEqAll : (as bs : List (Datum Obj)) → Decidable (as = bs)
  | [], [] => isTrue rfl
  | a :: as, b :: bs =>
    match Datum.decEq a b, Datum.decEqAll as bs with
    | isTrue first, isTrue rest => isTrue (by rw [first, rest])
    | isFalse other, _ => isFalse (by simp [other])
    | _, isFalse other => isFalse (by simp [other])
  | [], _ :: _ | _ :: _, [] => isFalse (by simp)

end

instance : DecidableEq (Datum Obj) := Datum.decEq

end

structure Database (Obj : Type) where
  /-- Fields of rows, and what operators and functions mean. -/
  ops : Operations Obj
  /-- All rows of an entity. -/
  rows : String → List (Datum Obj)
  /-- The elements of a collection. -/
  elements : Datum Obj → List (Datum Obj)
  /-- The order of sort keys. -/
  order : Ranking (Datum Obj)

def Direction.ranks {α : Type} (direction : Direction) (r : Ranking α) : Ranking α :=
  match direction with
  | asc => r
  | desc => r.flip

section

variable {Obj : Type} (db : Database Obj)

/-! ## Loops over sources -/

/-- The rows of a source. A path leads to them from the rows of the sources before. -/
def Source.rows (ν : Valuation Obj) : Source → List (Datum Obj)
  | entity _ name => db.rows name
  | navigation _ path _ => db.elements (path.eval db.ops ν)

def Database.product : List Source → Valuation Obj → List (Valuation Obj)
  | [], ν => [ν]
  | source :: rest, ν =>
    (source.rows db ν).flatMap fun d => Database.product rest (ν.withRow source.id d)

theorem Database.product_append (first second : List Source) (ν : Valuation Obj) :
    db.product (first ++ second) ν = (db.product first ν).flatMap (db.product second) := by
  induction first generalizing ν with
  | nil => simp [product]
  | cons source rest ih => simp [product, ih, List.flatMap_assoc]

theorem Database.product_singleton (source : Source) (ν : Valuation Obj) :
    db.product [source] ν = (source.rows db ν).map (ν.withRow source.id) := by
  rw [product, List.map_eq_flatMap]
  rfl

/-- Loops set the rows of their sources only. -/
theorem Database.agrees_of_mem_product {sources : List Source} {ids : List SourceId}
    {ν μ : Valuation Obj} (h : μ ∈ db.product sources ν)
    (apart : ∀ id ∈ ids, id ∉ sources.map Source.id) (scopes : List ElementScope) :
    μ.Agrees scopes ids ν := by
  induction sources generalizing ν with
  | nil =>
      rw [product, List.mem_singleton] at h
      rw [h]
      exact ⟨fun _ _ => rfl, fun _ _ => rfl, rfl⟩
  | cons source rest ih =>
      rw [product, List.mem_flatMap] at h
      obtain ⟨d, -, h⟩ := h
      have inner := ih h fun id hid mem => apart id hid (List.mem_cons_of_mem _ mem)
      have outer : source.id ∉ ids := fun hid => apart source.id hid List.mem_cons_self
      exact inner.trans (Valuation.agrees_withRow outer scopes ν d)

/-! ## Clauses -/

def passes (filters : List Expr) (μ : Valuation Obj) : Bool :=
  filters.all fun c => db.ops.truth (c.eval db.ops μ)

def ranking : List SortKey → Ranking (Valuation Obj)
  | [] => .level
  | key :: rest =>
    ((key.direction.ranks db.order).through (key.key.eval db.ops)).before (ranking rest)

end

/-! ## Repeated data and bounds -/

section

variable {Obj : Type} [DecidableEq Obj]

def reduced (distinct : Bool) (l : List (Datum Obj)) : List (Datum Obj) :=
  if distinct then l.eraseDups else l

variable {distinct : Bool} {l : List (Datum Obj)}

theorem mem_reduced {d : Datum Obj} : d ∈ reduced distinct l ↔ d ∈ l := by
  cases distinct with
  | true => exact List.mem_eraseDups
  | false => exact .rfl

theorem length_reduced_le : (reduced distinct l).length ≤ l.length := by
  cases distinct with
  | true => exact (eraseDups_sublist l).length_le
  | false => exact Nat.le_refl _

theorem filter_reduced (p : Datum Obj → Bool) :
    (reduced distinct l).filter p = reduced distinct (l.filter p) := by
  cases distinct with
  | true => exact filter_eraseDups p l
  | false => rfl

theorem reduced_sort (r : Ranking (Datum Obj)) :
    reduced distinct (r.sort l) = r.sort (reduced distinct l) := by
  cases distinct with
  | true => exact Ranking.eraseDups_sort l
  | false => rfl

theorem eraseDups_reduced : (reduced distinct l).eraseDups = reduced true l := by
  cases distinct with
  | true => exact eraseDups_eraseDups l
  | false => rfl

end

section

variable {α β : Type}

/-- Leaves out as many rows as are skipped, and then takes no more than the limit. -/
def bounded (skip limit : Option UInt64) (l : List α) : List α :=
  match limit with
  | none => l.drop (skip.getD 0).toNat
  | some limit => (l.drop (skip.getD 0).toNat).take limit.toNat

variable {skip limit : Option UInt64} {l : List α}

@[simp] theorem bounded_none : bounded none none l = l := rfl

theorem bounded_sublist : (bounded skip limit l).Sublist l := by
  cases limit with
  | none => exact List.drop_sublist ..
  | some limit => exact (List.take_sublist ..).trans (List.drop_sublist ..)

theorem map_bounded (f : α → β) :
    (bounded skip limit l).map f = bounded skip limit (l.map f) := by
  cases limit with
  | none => exact List.map_drop
  | some limit => simp only [bounded, List.map_take, List.map_drop]

/-- A sum of skips that is no word skips more rows than there are. -/
theorem drop_bounded (count : UInt64) (few : l.length < 2 ^ 64) :
    (bounded skip none l).drop count.toNat =
      bounded (some (Query.addSaturating (skip.getD 0) count)) none l := by
  simp only [bounded, List.drop_drop, Option.getD_some, Query.addSaturating]
  split
  · next fits => rw [UInt64.toNat_add, Nat.mod_eq_of_lt fits]
  · next past =>
      have most : (UInt64.ofNat (UInt64.size - 1)).toNat = 2 ^ 64 - 1 := rfl
      have beyond : l.length < (skip.getD 0).toNat + count.toNat :=
        Nat.lt_of_lt_of_le few (Nat.le_of_not_lt past)
      rw [most, List.drop_eq_nil_of_le beyond.le, List.drop_eq_nil_of_le (by omega)]

theorem take_bounded (count : UInt64) : (bounded skip limit l).take count.toNat =
    bounded skip (some (match limit with
      | some limit => min limit count
      | none => count)) l := by
  cases limit with
  | none => rfl
  | some limit =>
      rw [bounded, bounded, List.take_take, UInt64.toNat_min, Nat.min_comm]

end

section

variable {Obj : Type} (db : Database Obj)

namespace Select

def rows (ν : Valuation Obj) (s : Select) : List (Valuation Obj) :=
  (ranking db s.orderBy).sort ((db.product s.sources ν).filter (passes db s.filters))

def list [DecidableEq Obj] (ν : Valuation Obj) (s : Select) : List (Datum Obj) :=
  bounded s.skip s.limit
    (reduced s.distinct ((s.rows db ν).map (s.currentRow.eval db.ops)))

end Select

end

/-! ## Operations on lists -/

/-- What a closure of one row compiles to. The row is the element of scope 1. -/
def Query.translated? (q : Query) (compiler : Compiler) (closure : Closure) : Option Expr :=
  (compiler.compile closure (Compile.elementChain closure q.rowType) 1
    q.current.nextSource).outcome.toOption

section

variable {Obj : Type} (db : Database Obj) (ν : Valuation Obj)

def Expr.valueAt (e : Expr) (d : Datum Obj) : Datum Obj := e.eval db.ops (ν.withElement 1 d)

/-- What an operation does to the list of a query. Closures that do not compile, or
not to what the operation asks for, and operations that do not give rows leave no
list. -/
def Operation.onList [DecidableEq Obj] (compiler : Compiler) (q : Query) (l : List (Datum Obj)) :
    Operation → Option (List (Datum Obj))
  | filter closure => (q.translated? compiler closure).map fun e =>
      l.filter fun d => db.ops.truth (e.valueAt db ν d)
  | select closure => (q.translated? compiler closure).map fun e => l.map (e.valueAt db ν)
  | join closure =>
    match q.translated? compiler closure with
    | some (.subQuery other _) => some <| l.flatMap fun d =>
        (other.current.list db (ν.withElement 1 d)).map fun r => .tuple [d, r]
    | _ => none
  | sortedBy closure direction => (q.translated? compiler closure).map fun e =>
      ((direction.ranks db.order).through (e.valueAt db ν)).sort l
  | skip number => some (l.drop number.toNat)
  | limit number => some (l.take number.toNat)
  | distinct => some l.eraseDups
  | group .. | aggregate _ | count | sum _ | min _ | max _ | avg _ => none

/-- Without nested queries and floating constants, and well-typed where the element
is one of some data. -/
structure Expr.Regular (l : List (Datum Obj)) (e : Expr) : Prop where
  elementary : e.Elementary
  wellTyped : ∀ d ∈ l, e.WellTyped db.ops (ν.withElement 1 d)

/-- The same for the clauses of a stream, the filters where the row of the stream is
one of its rows. -/
structure Query.Regular (l : List (Datum Obj)) (q : Query) : Prop where
  elementary : ∀ c ∈ q.current.clauses, c.Elementary
  paths : ∀ d ∈ l, ∀ c ∈ q.current.sources.filterMap Source.path?,
    c.WellTyped db.ops (ν.withElement 1 d)
  filters : ∀ d ∈ l, ∀ μ ∈ db.product q.current.sources (ν.withElement 1 d),
    ∀ c ∈ q.current.filters, c.WellTyped db.ops μ

/-- The closures of an operation on rows compile to regular expressions over the list of
the query, and that of a join to a regular stream. -/
def Operation.Regular [DecidableEq Obj] (compiler : Compiler) (q : Query) : Operation → Prop
  | filter closure | select closure | sortedBy closure _ =>
    ∀ e ∈ q.translated? compiler closure, e.Regular db ν (q.current.list db ν)
  | join closure => ∀ e ∈ q.translated? compiler closure,
      ∃ other t, e = .subQuery other t ∧ other.Regular db ν (q.current.list db ν)
  | skip _ | limit _ | distinct => True
  | group .. | aggregate _ | count | sum _ | min _ | max _ | avg _ => False

end

end StreamQuery
