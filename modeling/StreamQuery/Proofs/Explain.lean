import StreamQuery.Proofs.Places
import StreamQuery.Stream

/-! # Explaining a query

A query that is reached by folding is closed, and so is its normal form. Its text
can therefore fail for two reasons only: some shape has no text, or the rows of an
aggregate differ from themselves. Nothing that it refers to is ever missing.
-/

namespace StreamQuery

open Rendering

/-- Where the text of a query begins. -/
def Query.place (q : Query) : Place := ⟨[], false, .embed q.normalize⟩

namespace Query

variable {q : Query}

theorem Closed.normalize (closed : q.Closed) : q.normalize.Closed := by
  obtain ⟨sources, clauses⟩ := closed_iff.mp closed
  exact closed_iff.mpr ⟨q.ids_normalize ▸ sources, clauses.normalize fun _ => trivial⟩

/-- The text of a closed query names nothing that is unknown. -/
theorem Closed.renders (closed : q.Closed) :
    RendersAt rowsAlike q.place (select rowsAlike q.normalize none) .empty := by
  obtain ⟨sources, clauses⟩ := closed_iff.mp closed.normalize
  exact renders_query (fun c _ => columnsRender c) (by simp)
    (Expr.within_subQuery.mpr ⟨sources, clauses⟩)

/-- A closed query is explained, with every need met, or fails for one that is not. -/
theorem Closed.explain (closed : q.Closed) (compiler : Compiler) :
    ((∃ rendered, compiler.explain q = .ok rendered) ∧ ∀ need, q.place.Provided rowsAlike need) ∨
      ∃ error need, compiler.explain q = .error (.render error) ∧ lack? error = some need ∧
        ¬ q.place.Provided rowsAlike need := by
  have renders := closed.renders
  unfold RendersAt Renders at renders
  unfold Compiler.explain
  rw [render_eq_write]
  cases ran : (select rowsAlike q.normalize none : DraftM Phrase).run .empty with
  | ok found =>
      rw [ran] at renders
      exact .inl ⟨⟨_, rfl⟩, renders.1⟩
  | error error =>
      rw [ran] at renders
      obtain ⟨need, about, unmet⟩ := renders
      exact .inr ⟨error, need, rfl, about, unmet⟩

end Query

namespace Reached

variable {allowed : Compiler → Query → Operation → Query → Prop} {q : Query}

/-- A reached query refers to nothing outside it, and explaining it never finds an
element left or a source without a name. -/
theorem in_scope (h : Reached allowed q) (compiler : Compiler) :
    q.Closed ∧ (∀ s, compiler.explain q ≠ .error (.render (.elementLeft s))) ∧
      ∀ id, compiler.explain q ≠ .error (.render (.noAlias id)) := by
  have failures : ∀ error, compiler.explain q = .error (.render error) →
      (lack? error).isSome = true := by
    intro error failed
    rcases h.closed.explain compiler with ⟨⟨_, succeeded⟩, -⟩ | ⟨error', need, failed', about, -⟩
    · simp [succeeded] at failed
    · obtain rfl : error' = error := by simpa [failed'] using failed
      simp [about]
  refine ⟨h.closed, fun s failed => ?_, fun id failed => ?_⟩
  · simpa [lack?] using failures _ failed
  · simpa [lack?] using failures _ failed

def customers : Compiler where
  schema := {
    isEntity := fun name => name == "Customer" || name == "Account"
    field? := fun entity accessor =>
      match entity, accessor with
      | "Customer", "getName" => some ⟨"Customer", "name", .text⟩
      | "Customer", "getCountry" => some ⟨"Customer", "country", .text⟩
      | "Customer", "getAccounts" => some ⟨"Customer", "accounts", .collection (.entity "Account")⟩
      | "Account", "getCountry" => some ⟨"Account", "country", .text⟩
      | _, _ => none }

def customerName : Closure where
  body := ⟨1, [.entity "Customer"], [], .text,
    [.loadParam 0, .invoke ⟨"Customer", "getName", 0, false⟩, .ret]⟩
  captured := []

def namedLikeCountry : Closure where
  body := ⟨3, [.entity "Customer"], [], .bool,
    [.loadParam 0, .invoke ⟨"Customer", "getName", 0, false⟩, .loadParam 0,
      .invoke ⟨"Customer", "getCountry", 0, false⟩, .invoke ⟨"String", "equals", 1, false⟩, .ret]⟩
  captured := []

def isDomestic : Body :=
  ⟨2, [.entity "Account"], [.entity "Customer"], .bool,
    [.loadParam 0, .invoke ⟨"Account", "getCountry", 0, false⟩, .loadCapture 0,
      .invoke ⟨"Customer", "getCountry", 0, false⟩, .invoke ⟨"String", "equals", 1, false⟩, .ret]⟩

/-- The number of accounts of a customer in their own country. -/
def domesticAccounts : Closure where
  body := ⟨1, [.entity "Customer"], [], .long,
    [.loadParam 0, .invoke ⟨"Customer", "getAccounts", 0, false⟩,
      .invoke ⟨"JinqStream", "from", 1, true⟩, .makeClosure isDomestic [.param 0],
      .invoke ⟨"JinqStream", "where", 1, false⟩, .invoke ⟨"JinqStream", "count", 0, false⟩, .ret]⟩
  captured := []

theorem text_domesticAccounts :
    (customers.chain "Customer" [.select domesticAccounts]).map customers.queryText =
      .ok (.ok ("SELECT (SELECT COUNT(B) FROM A.accounts B WHERE ((B.country) = (A.country))) " ++
        "FROM Customer A")) := by
  decide +kernel

theorem in_scope_domesticAccounts :
    ∃ q, customers.chain "Customer" [.select domesticAccounts] = .ok q ∧ q.Closed ∧
      (∀ s, customers.explain q ≠ .error (.render (.elementLeft s))) ∧
      ∀ id, customers.explain q ≠ .error (.render (.noAlias id)) := by
  obtain ⟨q, folds, -⟩ := Compile.map_eq_ok.mp text_domesticAccounts
  exact ⟨q, folds, in_scope (.chain folds) customers⟩

/-- A reached query has a text exactly if every place that is visited has what it
needs. Its error tells what some place lacks. So if the rows of all aggregates are
settled, it fails for a shape exactly if some place visited has no text. -/
theorem explain_ok_iff (h : Reached allowed q) (compiler : Compiler) :
    ((∃ rendered, compiler.explain q = .ok rendered) ↔
      ∀ need, q.place.Provided rowsAlike need) ∧
    (∀ error, compiler.explain q = .error error → ∃ e need, error = .render e ∧
      lack? e = some need ∧ ¬ q.place.Provided rowsAlike need) ∧
    (q.place.Provided rowsAlike .settled →
      ((∃ e, compiler.explain q = .error (.render e) ∧ lack? e = some .text) ↔
        ∃ p, Place.Visits rowsAlike q.place p ∧ p.hasText rowsAlike = false)) := by
  have textless : (∃ p, Place.Visits rowsAlike q.place p ∧ p.hasText rowsAlike = false) ↔
      ¬ q.place.Provided rowsAlike .text := by
    simp [Place.Provided, Place.has, Classical.not_forall]
  rw [textless]
  rcases h.closed.explain compiler with ⟨⟨_, succeeded⟩, all⟩ | ⟨error, need, failed, about, unmet⟩
  · exact ⟨iff_of_true ⟨_, succeeded⟩ all, by simp [succeeded], fun _ =>
      iff_of_false (by simp [succeeded]) (Classical.not_not.mpr (all .text))⟩
  · refine ⟨iff_of_false (by simp [failed]) fun all => unmet (all need), fun _ same => ?_,
      fun settled => ?_⟩
    · obtain rfl := Except.error.inj (failed.symm.trans same)
      exact ⟨error, need, rfl, about, unmet⟩
    · cases need with
      | text => exact iff_of_true ⟨error, failed, about⟩ unmet
      | settled => exact absurd settled unmet

theorem explain_ok_iff_domesticAccounts :
    ∃ q, customers.chain "Customer" [.select domesticAccounts] = .ok q ∧
      (∃ rendered, customers.explain q = .ok rendered) ∧
      ∀ need, q.place.Provided rowsAlike need := by
  obtain ⟨q, folds, text⟩ := Compile.map_eq_ok.mp text_domesticAccounts
  obtain ⟨rendered, explained, -⟩ := Compile.map_eq_ok.mp text
  have criterion := explain_ok_iff (.chain folds) customers
  exact ⟨q, folds, ⟨rendered, explained⟩, criterion.1.mp ⟨rendered, explained⟩⟩

/-- Whether name and country of a customer are the same as themselves: a comparison
of pairs. -/
def samePair : Closure where
  body := ⟨1, [.entity "Customer"], [], .bool,
    let pair := [.loadParam 0, .invoke ⟨"Customer", "getName", 0, false⟩, .loadParam 0,
      .invoke ⟨"Customer", "getCountry", 0, false⟩, .newTuple 2]
    pair ++ pair ++ [.invoke ⟨"Object", "equals", 1, false⟩, .ret]⟩
  captured := []

/-- A comparison of pairs is accepted by the fold, and has no text. The error is none
that evaluating the stream in memory would answer. -/
theorem explain_samePair :
    ∃ q, customers.chain "Customer" [.filter samePair] = .ok q ∧
      customers.explain q = .error (.render .tupleOutsideProjection) ∧
      (StreamError.ofQueryError (.render .tupleOutsideProjection)).isFallback = false := by
  have fails : (customers.chain "Customer" [.filter samePair]).map customers.explain =
      .ok (.error (.render .tupleOutsideProjection)) := by
    decide +kernel
  obtain ⟨q, folds, failed⟩ := Compile.map_eq_ok.mp fails
  exact ⟨q, folds, failed, rfl⟩

end Reached

end StreamQuery
