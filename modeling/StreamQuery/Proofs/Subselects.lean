import StreamQuery.Proofs.Explain
import StreamQuery.Proofs.Freshness

/-! # Names of sub-selects

A sub-select names its sources when it is entered. Different sources have different
names, so a sub-select hides no name around it if its sources are not among those of
the selections around it. Numbering sees to that, but for queries over sources of
the outermost one.
-/

namespace StreamQuery

namespace Rendering.Place

variable {l : Likeness} {p p' c : Place} {ids : List SourceId}
  {P : List SourceId → Referent → Prop}

theorem around_of_mem_leads (hc : c ∈ p.leads l) :
    c.around = ((p.entered? l).map Query.current).toList ++ p.around := by
  obtain ⟨around, single, e⟩ := p
  cases e with
  | unary | binary | conditional | call =>
      obtain ⟨e, -, rfl⟩ := List.mem_map.mp hc
      rfl
  | tuple items t =>
      simp only [leads] at hc
      split at hc
      · cases hc
      · obtain ⟨e, -, rfl⟩ := List.mem_map.mp hc
        rfl
  | aggregate fn arg q t =>
      simp only [leads] at hc
      split at hc
      · next same =>
          obtain ⟨e, -, rfl⟩ := List.mem_map.mp hc
          simp [entered?, same]
      · next other =>
          obtain ⟨e, -, rfl⟩ := List.mem_map.mp hc
          simp [entered?, other]
  | subQuery q t =>
      rcases List.mem_append.mp hc with hc | hc
      · obtain ⟨e, -, rfl⟩ := List.mem_map.mp hc
        rfl
      · obtain ⟨e, -, rfl⟩ := List.mem_map.mp hc
        rfl
  | _ => cases hc

/-- The selections around a place are around all places visited for it. -/
theorem Visits.around_subset (h : Visits l p p') : p.around ⊆ p'.around := by
  induction h with
  | here => exact List.Subset.refl _
  | onward hc _ ih =>
      rw [around_of_mem_leads hc] at ih
      exact (List.append_subset.mp ih).2

/-- The place at the end of a way that takes the lead of each given index. -/
def along? (l : Likeness) (p : Place) : List Nat → Option Place
  | [] => some p
  | i :: way => (p.leads l)[i]?.bind (along? l · way)

theorem visits_along {way : List Nat} (found : p.along? l way = some p') : Visits l p p' := by
  induction way generalizing p with
  | nil =>
      cases found
      exact .here _
  | cons i way ih =>
      obtain ⟨c, lead, found⟩ := Option.bind_eq_some_iff.mp found
      exact .onward (List.mem_of_getElem? lead) (ih found)

/-- A place and the sources around its expression: all sources of the selections
around the place are among them. -/
def Stands (P : List SourceId → Referent → Prop) (p : Place) : Prop :=
  ∃ ids, p.expr.Within P ids ∧ ∀ s ∈ p.around, s.ids ⊆ ids

theorem Stands.leads (h : p.Stands P) (hc : c ∈ p.leads l) : c.Stands P := by
  obtain ⟨around, single, e⟩ := p
  obtain ⟨ids, within, inside⟩ := h
  have here {c : Place} {es : List Expr} {single : Bool} (hes : ∀ e ∈ es, e.Within P ids)
      (hc : c ∈ es.map (⟨around, single, ·⟩)) : c.Stands P := by
    obtain ⟨e, he, rfl⟩ := List.mem_map.mp hc
    exact ⟨ids, hes e he, inside⟩
  have below {c : Place} {q : Query} {es : List Expr} {single : Bool}
      (hes : ∀ e ∈ es, e.Within P (q.current.ids ++ ids))
      (hc : c ∈ es.map (⟨q.current :: around, single, ·⟩)) : c.Stands P := by
    obtain ⟨e, he, rfl⟩ := List.mem_map.mp hc
    refine ⟨_, hes e he, List.forall_mem_cons.mpr ⟨List.subset_append_left .., fun s hs => ?_⟩⟩
    exact List.subset_append_of_subset_right _ (inside s hs)
  cases e with
  | unary | binary | conditional | call => exact here (within.children rfl) hc
  | tuple items t =>
      simp only [Place.leads] at hc
      split at hc
      · cases hc
      · exact here (within.children rfl) hc
  | aggregate fn arg q t =>
      obtain ⟨-, args, clauses⟩ := Expr.within_aggregate.mp within
      simp only [Place.leads] at hc
      split at hc
      · obtain ⟨e, he, rfl⟩ := List.mem_map.mp hc
        refine ⟨_, args e (Option.mem_toList.mp he), fun s hs => ?_⟩
        exact List.subset_append_of_subset_right _ (inside s hs)
      · refine below (fun e he => ?_) hc
        simp only [List.mem_append, Option.mem_toList] at he
        rcases he with ((he | he) | he) | he
        · exact args e he
        all_goals exact clauses e (by simp [Select.clauses, he])
  | subQuery q t =>
      obtain ⟨-, clauses⟩ := Expr.within_subQuery.mp within
      rcases List.mem_append.mp hc with hc | hc
      · refine below (fun e he => clauses e ?_) hc
        simp only [Select.clauses, List.mem_append]
        simp [he]
      · refine below (fun e he => clauses e ?_) hc
        simp only [Select.clauses, List.mem_append] at he ⊢
        rcases he with ((he | he) | he) | he <;> simp [he]
  | _ => cases hc

theorem Stands.visits (h : p.Stands P) (visits : Visits l p p') : p'.Stands P := by
  induction visits with
  | here => exact h
  | onward hc _ ih => exact ih (h.leads hc)

/-- What is asked of nested queries is true of a query that is entered. -/
theorem Stands.entered {q : Query} (h : p.Stands P) (entered : p.entered? l = some q) :
    ∃ ids, P ids (.query q.current.ids) ∧ ∀ s ∈ p.around, s.ids ⊆ ids := by
  obtain ⟨ids, within, inside⟩ := h
  refine ⟨ids, ?_, inside⟩
  have here := (Expr.within_iff.mp within).1
  obtain ⟨around, single, e⟩ := p
  cases e with
  | subQuery query t =>
      cases entered
      exact here
  | aggregate fn arg query t =>
      simp only [entered?] at entered
      split at entered
      · cases entered
      · cases entered
        exact here
  | _ => cases entered

end Rendering.Place

/-! ## Reached queries -/

namespace Query

open Rendering

variable {q : Query} {p : Place}

/-- Every place visited but the first stands in the query itself. -/
theorem place_visits (h : Place.Visits rowsAlike q.place p) :
    p = q.place ∨ q.normalize.current ∈ p.around := by
  cases h with
  | here => exact .inl rfl
  | onward hc visits =>
      refine .inr (visits.around_subset ?_)
      rw [Place.around_of_mem_leads hc]
      exact List.mem_cons_self

theorem Numbered.stands {shared : List SourceId} (numbered : q.Numbered shared) :
    q.place.Stands (Referent.Apart shared q.current.nextSource) := by
  refine ⟨[], ?_, by simp [place]⟩
  refine Expr.within_subQuery.mpr ⟨?_, numbered.apart.normalize fun _ => trivial⟩
  intro id hid
  rw [ids_normalize] at hid
  exact .inr ⟨by simp, numbered.below id hid⟩

end Query

namespace Reached

open Rendering

variable {allowed : Compiler → Query → Operation → Query → Prop} {q r : Query} {p : Place}

/-- Where rendering enters a nested query, the query's sources are other ones than those
of all selections around it exactly if none of them is one of the outermost query. -/
theorem entered_apart (h : Reached allowed q) (visits : Place.Visits rowsAlike q.place p)
    (nested : p.around ≠ []) (entered : p.entered? rowsAlike = some r) :
    (∀ s ∈ p.around, ∀ id ∈ r.current.ids, id ∉ s.ids) ↔
      ∀ id ∈ r.current.ids, id ∉ q.current.ids := by
  constructor
  · intro apart
    have root := (Query.place_visits visits).resolve_left fun same => nested (same ▸ rfl)
    rw [← q.ids_normalize]
    exact apart _ root
  · intro apart s hs id hid mem
    obtain ⟨ids, own, inside⟩ := (h.numbered.stands.visits visits).entered entered
    exact ((own id hid).resolve_left (apart id hid)).1 (inside s hs mem)

def countryOf : Closure where
  body := ⟨1, [.entity "Customer"], [], .text,
    [.loadParam 0, .invoke ⟨"Customer", "getCountry", 0, false⟩, .ret]⟩
  captured := []

def namesakes : Closure where
  body := ⟨2, [.text, .stream (.entity "Customer")], [], .long,
    [.loadParam 1,
      .makeClosure ⟨3, [.entity "Customer"], [.text], .bool,
        [.loadParam 0, .invoke ⟨"Customer", "getName", 0, false⟩, .loadCapture 0,
          .invoke ⟨"String", "equals", 1, false⟩, .ret]⟩ [.param 0],
      .invoke ⟨"JinqStream", "where", 1, false⟩, .invoke ⟨"JinqStream", "count", 0, false⟩, .ret]⟩
  captured := []

/-- The number of accounts in their own country of all customers of a group. -/
def groupAccounts : Closure where
  body := ⟨3, [.text, .stream (.entity "Customer")], [], .long,
    [.loadParam 1, .makeClosure domesticAccounts.body [],
      .invoke ⟨"JinqStream", "sumLong", 1, false⟩, .ret]⟩
  captured := []

/-- The accounts are counted apart from the customers of each group, and from all of them. -/
theorem entered_apart_accounts :
    (∃ q p r, customers.chain "Customer" [.group countryOf groupAccounts] = .ok q ∧
      q.current.shape = .grouped ∧ Place.Visits rowsAlike q.place p ∧ p.around ≠ [] ∧
      p.entered? rowsAlike = some r ∧ ∀ s ∈ p.around, ∀ id ∈ r.current.ids, id ∉ s.ids) ∧
    ∃ q p r, customers.chain "Customer" [.sum domesticAccounts] = .ok q ∧
      q.current.shape = .aggregated ∧ Place.Visits rowsAlike q.place p ∧ p.around ≠ [] ∧
      p.entered? rowsAlike = some r ∧ ∀ s ∈ p.around, ∀ id ∈ r.current.ids, id ∉ s.ids := by
  have apart {operations : List Operation} {shape : Shape} (way : List Nat)
      (ran : (customers.chain "Customer" operations).map (fun q =>
        (q.current.shape, q.current.ids, (q.place.along? rowsAlike way).map fun p =>
          (p.around.map Select.ids, (p.entered? rowsAlike).map (·.current.ids)))) =
        .ok (shape, [0], some ([[0]], some [1]))) :
      ∃ q p r, customers.chain "Customer" operations = .ok q ∧ q.current.shape = shape ∧
        Place.Visits rowsAlike q.place p ∧ p.around ≠ [] ∧ p.entered? rowsAlike = some r ∧
        ∀ s ∈ p.around, ∀ id ∈ r.current.ids, id ∉ s.ids := by
    obtain ⟨q, folds, found⟩ := Compile.map_eq_ok.mp ran
    obtain ⟨shaped, found⟩ := Prod.mk.inj found
    obtain ⟨ids, found⟩ := Prod.mk.inj found
    obtain ⟨p, leads, found⟩ := Option.map_eq_some_iff.mp found
    obtain ⟨around, found⟩ := Prod.mk.inj found
    obtain ⟨r, entered, own⟩ := Option.map_eq_some_iff.mp found
    have visits := Place.visits_along leads
    have nested : p.around ≠ [] := by
      intro none
      simp [none] at around
    refine ⟨q, p, r, folds, shaped, visits, nested, entered, ?_⟩
    refine (entered_apart (.chain folds) visits nested entered).mpr ?_
    simp [own, ids]
  -- The argument of the sum, in the second column and in the only one.
  exact ⟨apart [0, 1, 0] (by decide +kernel), apart [0, 0] (by decide +kernel)⟩

theorem text_namesakes : (customers.chain "Customer" [.group countryOf namesakes]).map
    customers.queryText = .ok (.ok
      ("SELECT (A.country), (SELECT COUNT(A) FROM Customer A WHERE ((A.name) = (A.country))) " ++
        "FROM Customer A GROUP BY (A.country)")) := by
  decide +kernel

/-- The sub-select of a filtered group names the source of the query again. -/
theorem entered_namesakes :
    ∃ q p r, customers.chain "Customer" [.group countryOf namesakes] = .ok q ∧
      q.current.shape = .grouped ∧ Place.Visits rowsAlike q.place p ∧
      p.entered? rowsAlike = some r ∧ (∃ s ∈ p.around, ∃ id ∈ r.current.ids, id ∈ s.ids) ∧
      customers.queryText q = .ok
        ("SELECT (A.country), (SELECT COUNT(A) FROM Customer A WHERE ((A.name) = (A.country))) " ++
          "FROM Customer A GROUP BY (A.country)") := by
  have ran : (customers.chain "Customer" [.group countryOf namesakes]).map (fun q =>
      (q.current.shape, (q.place.along? rowsAlike [0, 1]).map fun p =>
        (p.around.map Select.ids, (p.entered? rowsAlike).map (·.current.ids)))) =
      .ok (.grouped, some ([[0]], some [0])) := by
    decide +kernel
  obtain ⟨q, folds, found⟩ := Compile.map_eq_ok.mp ran
  have text := text_namesakes
  rw [folds] at text
  obtain ⟨grouped, found⟩ := Prod.mk.inj found
  obtain ⟨p, column, found⟩ := Option.map_eq_some_iff.mp found
  obtain ⟨around, found⟩ := Prod.mk.inj found
  obtain ⟨r, entered, own⟩ := Option.map_eq_some_iff.mp found
  obtain ⟨s, hs, ids⟩ := List.exists_of_mem_map (around ▸ List.mem_cons_self)
  exact ⟨q, p, r, folds, grouped, Place.visits_along column, entered,
    ⟨s, hs, 0, by simp [own], by simp [ids]⟩, Except.ok.inj text⟩

/-- Sources of row-wise queries are numbered once each, below `nextSource`; nested ones
are apart but for sources of the outermost query. A join is refused only if its stream
ranges over a source opened before. If all joined streams were opened by the closures
that give them, nested sources are apart, and sub-selects hide no name around them. -/
theorem rowwise_numbered (h : Reached Rowwise q) :
    q.Numbered q.current.ids ∧
    (∀ (compiler : Compiler) (closure : Closure),
      compiler.fold q (.join closure) = .error (.refused ⟨.join, .sourceReused⟩) →
      ∃ other t supply, (q.overRow compiler.environment closure).run
          ⟨q.current.nextSource, compiler.nextMark⟩ = .ok (.subQuery other t, supply) ∧
        ∃ id ∈ other.current.ids, id < q.current.nextSource) ∧
    (Reached OpensOwn q → q.Numbered [] ∧
      ∀ p r, Place.Visits rowsAlike q.place p → p.entered? rowsAlike = some r →
        ∀ s ∈ p.around, ∀ id ∈ r.current.ids, ∀ id' ∈ s.ids, ∀ (aliases : Aliases) name,
          aliases.alias? id = some name → aliases.alias? id' ≠ some name) := by
  refine ⟨h.numbered, fun compiler closure refused => ?_, fun own => ⟨own.numbered_own, ?_⟩⟩
  · obtain ⟨other, t, supply, ran, id, hid, reused⟩ := Query.fold_join_eq_sourceReused refused
    exact ⟨other, t, supply, ran, id, hid, h.numbered.below id reused⟩
  · intro p r visits entered s hs id hid id' hid' aliases name named named'
    obtain rfl := Aliases.alias?_inj named named'
    obtain ⟨ids, apart, inside⟩ := (own.numbered_own.stands.visits visits).entered entered
    exact ((apart id hid).resolve_left (by simp)).1 (inside s hs hid')

def accountsOf : Closure where
  body := ⟨1, [.entity "Customer"], [], .any,
    [.loadParam 0, .invoke ⟨"Customer", "getAccounts", 0, false⟩,
      .invoke ⟨"JinqStream", "from", 1, true⟩, .ret]⟩
  captured := []

def hasSeveral : Closure where
  body := ⟨2, [.any], [], .bool,
    [.loadParam 0, .invoke ⟨"Pair", "getOne", 0, false⟩,
      .invoke ⟨"Customer", "getAccounts", 0, false⟩, .invoke ⟨"JinqStream", "from", 1, true⟩,
      .invoke ⟨"JinqStream", "count", 0, false⟩, .const (.int 1), .compare .gt, .ret]⟩
  captured := []

theorem rowwise_numbered_hasSeveral :
    ∃ q q', customers.fold (.ofEntity "Customer") (.join accountsOf) = .ok q ∧
      customers.fold q (.filter hasSeveral) = .ok q' ∧ q'.Numbered [] ∧
      ∀ p r, Place.Visits rowsAlike q'.place p → p.entered? rowsAlike = some r →
        ∀ s ∈ p.around, ∀ id ∈ r.current.ids, ∀ id' ∈ s.ids, ∀ (aliases : Aliases) name,
          aliases.alias? id = some name → aliases.alias? id' ≠ some name := by
  have ran : (customers.fold (.ofEntity "Customer") (.join accountsOf)).map (fun q =>
      (q.current.ids, (customers.fold q (.filter hasSeveral)).map (·.current.ids))) =
      .ok ([0, 1], .ok [0, 1]) := by
    decide +kernel
  obtain ⟨q, joins, found⟩ := Compile.map_eq_ok.mp ran
  simp only [Prod.mk.injEq, Compile.map_eq_ok] at found
  obtain ⟨ids, q', filters, ids'⟩ := found
  have opens : customers.streamAll "Customer" = .ok (.ofEntity "Customer") := rfl
  have own : Reached OpensOwn q' := by
    refine .folded (.folded (.opened opens) joins ⟨rfl, ?_⟩) filters ⟨rfl, ?_⟩
    · rw [ids]
      decide
    · simp [ids, ids']
  have rowwise : Reached Rowwise q' := .folded (.folded (.opened opens) joins rfl) filters rfl
  exact ⟨q, q', joins, filters, (rowwise_numbered rowwise).2.2 own⟩

def itself : Closure where
  body := ⟨2, [.any], [], .any, [.loadParam 0, .ret]⟩
  captured := []

def firstOfPair : Closure where
  body := ⟨3, [.any], [], .any, [.loadParam 0, .invoke ⟨"Pair", "getOne", 0, false⟩, .ret]⟩
  captured := []

theorem text_itself : (customers.chain "Customer" [.select accountsOf, .join itself]).map
    customers.queryText = .ok (.ok
      "SELECT (SELECT B FROM A.accounts B), B FROM Customer A JOIN A.accounts B") := by
  decide +kernel

/-- Where streams are selected and then joined as they are, a sub-select names a source
around it again, and the first of each pair cannot be joined once more. -/
theorem entered_itself :
    ∃ q p r, customers.chain "Customer" [.select accountsOf, .join itself] = .ok q ∧
      Place.Visits rowsAlike q.place p ∧ p.entered? rowsAlike = some r ∧
      (∃ s ∈ p.around, ∃ id ∈ r.current.ids, id ∈ s.ids) ∧
      customers.queryText q = .ok
        "SELECT (SELECT B FROM A.accounts B), B FROM Customer A JOIN A.accounts B" ∧
      customers.fold q (.join firstOfPair) = .error (.refused ⟨.join, .sourceReused⟩) := by
  have ran : (customers.chain "Customer" [.select accountsOf, .join itself]).map (fun q =>
      (customers.fold q (.join firstOfPair), (q.place.along? rowsAlike [0, 0]).map fun p =>
        (p.around.map Select.ids, (p.entered? rowsAlike).map (·.current.ids)))) =
      .ok (.error (.refused ⟨.join, .sourceReused⟩), some ([[0, 1]], some [1])) := by
    decide +kernel
  obtain ⟨q, folds, found⟩ := Compile.map_eq_ok.mp ran
  have text := text_itself
  rw [folds] at text
  obtain ⟨refused, found⟩ := Prod.mk.inj found
  obtain ⟨p, column, found⟩ := Option.map_eq_some_iff.mp found
  obtain ⟨around, found⟩ := Prod.mk.inj found
  obtain ⟨r, entered, own⟩ := Option.map_eq_some_iff.mp found
  obtain ⟨s, hs, ids⟩ := List.exists_of_mem_map (around ▸ List.mem_cons_self)
  exact ⟨q, p, r, folds, Place.visits_along column, entered,
    ⟨s, hs, 1, by simp [own], by simp [ids]⟩, Except.ok.inj text, refused⟩

end Reached

end StreamQuery
