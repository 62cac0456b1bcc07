import StreamQuery.Proofs.Spreading

/-! # Sources that occur in an expression

All numbers of sources that occur in an expression: in rows, in nested queries and in
what those queries were derived from. A compiled expression has those of the rows and
streams that its chain of binders offers, and numbers that were given out while it was
compiled, and no others.
-/

namespace StreamQuery

mutual

def Expr.sourceIds : Expr → List SourceId
  | .constant .. | .param .. | .element .. => []
  | .row source _ => [source]
  | .path base _ _ | .component base _ _ => Expr.sourceIds base
  | .unary _ operand _ => Expr.sourceIds operand
  | .binary _ left right _ => Expr.sourceIds left ++ Expr.sourceIds right
  | .conditional test yes no _ =>
    Expr.sourceIds test ++ Expr.sourceIds yes ++ Expr.sourceIds no
  | .tuple items _ | .call _ items _ => Expr.sourceIdsAll items
  | .aggregate _ arg query _ => Expr.sourceIdsOption arg ++ Query.sourceIds query
  | .subQuery query _ => Query.sourceIds query

def Expr.sourceIdsAll : List Expr → List SourceId
  | [] => []
  | e :: es => Expr.sourceIds e ++ Expr.sourceIdsAll es

def Expr.sourceIdsOption : Option Expr → List SourceId
  | none => []
  | some e => Expr.sourceIds e

def Source.sourceIdsAll : List Source → List SourceId
  | [] => []
  | .entity id _ :: rest => id :: Source.sourceIdsAll rest
  | .navigation id path _ :: rest => id :: (Expr.sourceIds path ++ Source.sourceIdsAll rest)

def SortKey.sourceIdsAll : List SortKey → List SourceId
  | [] => []
  | ⟨key, _⟩ :: rest => Expr.sourceIds key ++ SortKey.sourceIdsAll rest

def Select.sourceIds : Select → List SourceId
  | ⟨sources, filters, projection, groupBy, having, orderBy, _, _, _, _, _, _⟩ =>
    Source.sourceIdsAll sources ++ Expr.sourceIdsAll filters ++ Expr.sourceIdsOption projection ++
      Expr.sourceIdsAll groupBy ++ Expr.sourceIdsAll having ++ SortKey.sourceIdsAll orderBy

def Select.sourceIdsAll : List Select → List SourceId
  | [] => []
  | s :: ss => Select.sourceIds s ++ Select.sourceIdsAll ss

/-- The numbers of all sources that occur in a query or in what it was derived from. -/
def Query.sourceIds : Query → List SourceId
  | ⟨current, past⟩ => Select.sourceIds current ++ Select.sourceIdsAll past

end

def Binder.sourceIds : Binder → List SourceId
  | element row => row.sourceIds
  | stream query => query.sourceIds
  | parameters .. | outer _ => []

section

variable {id : SourceId}

theorem Expr.mem_sourceIdsAll {es : List Expr} :
    id ∈ Expr.sourceIdsAll es ↔ ∃ e ∈ es, id ∈ e.sourceIds := by
  induction es with
  | nil => simp [Expr.sourceIdsAll]
  | cons e es ih => simp [Expr.sourceIdsAll, ih]

theorem Expr.mem_sourceIdsOption {e? : Option Expr} :
    id ∈ Expr.sourceIdsOption e? ↔ ∃ e ∈ e?, id ∈ e.sourceIds := by
  cases e? <;> simp [Expr.sourceIdsOption]

theorem Source.mem_sourceIdsAll {sources : List Source} : id ∈ Source.sourceIdsAll sources ↔
    id ∈ sources.map Source.id ∨ ∃ e ∈ sources.filterMap Source.path?, id ∈ e.sourceIds := by
  induction sources with
  | nil => simp [Source.sourceIdsAll]
  | cons source sources ih =>
      cases source with
      | entity => simp [Source.sourceIdsAll, ih, Source.id, Source.path?, or_assoc]
      | navigation =>
          simp only [Source.sourceIdsAll, List.mem_cons, List.mem_append, ih, List.map_cons,
            Source.id, List.filterMap_cons, Source.path?, exists_eq_or_imp]
          tauto

theorem SortKey.mem_sourceIdsAll {keys : List SortKey} :
    id ∈ SortKey.sourceIdsAll keys ↔ ∃ e ∈ keys.map SortKey.key, id ∈ e.sourceIds := by
  induction keys with
  | nil => simp [SortKey.sourceIdsAll]
  | cons key keys ih =>
      cases key
      simp [SortKey.sourceIdsAll, ih]

theorem Select.mem_sourceIds {s : Select} :
    id ∈ s.sourceIds ↔ id ∈ s.ids ∨ ∃ c ∈ s.clauses, id ∈ c.sourceIds := by
  cases s
  simp only [Select.sourceIds, List.mem_append, Source.mem_sourceIdsAll, Expr.mem_sourceIdsAll,
    Expr.mem_sourceIdsOption, SortKey.mem_sourceIdsAll, Select.ids, Select.clauses, or_and_right,
    exists_or, Option.mem_toList, Option.mem_def, or_assoc]

theorem Query.mem_sourceIds {q : Query} : id ∈ q.sourceIds ↔
    id ∈ q.current.sourceIds ∨ id ∈ Select.sourceIdsAll q.past := by
  cases q
  simp [Query.sourceIds]

end

/-! ## Node by node -/

namespace Expr

/-- The numbers that occur in a node itself: those of its row, and those of its query, but
for the clauses of that. -/
def ownIds (e : Expr) : List SourceId :=
  match e with
  | row source _ => [source]
  | e => (e.query?.map fun q => q.current.ids ++ Select.sourceIdsAll q.past).getD []

theorem mem_sourceIds {id : SourceId} {e : Expr} :
    id ∈ e.sourceIds ↔ id ∈ e.ownIds ∨ ∃ c ∈ e.parts true, id ∈ c.sourceIds := by
  cases e with
  | aggregate fn arg q t =>
      simp only [sourceIds, ownIds, parts, children, query?, List.mem_append, mem_sourceIdsOption,
        Query.mem_sourceIds, Select.mem_sourceIds, Option.map_some, Option.getD_some, if_true,
        Option.mem_toList, Option.mem_def, or_and_right, exists_or]
      rw [or_right_comm, or_left_comm, or_comm (a := ∃ e, arg = some e ∧ id ∈ e.sourceIds), or_assoc]
  | subQuery q t =>
      simp only [sourceIds, ownIds, parts, children, query?, List.mem_append, List.nil_append,
        Query.mem_sourceIds, Select.mem_sourceIds, Option.map_some, Option.getD_some, if_true]
      exact or_right_comm
  | _ => simp [sourceIds, ownIds, parts, children, query?, mem_sourceIdsAll]

variable {A : SourceId → Prop}

theorem everywhere_ownIds {e : Expr} :
    (e.Everywhere fun node => ∀ id ∈ node.ownIds, A id) ↔ ∀ id ∈ e.sourceIds, A id := by
  induction e using partsInduction true with
  | node e ih =>
      rw [everywhere_iff]
      simp only [mem_sourceIds (e := e), or_imp, forall_and, forall_exists_index, and_imp]
      refine and_congr_right fun _ => ⟨fun h id c hc => ?_, fun h c hc => ?_⟩
      · exact (ih c hc).mp (h c hc) id
      · exact (ih c hc).mpr fun id => h id c hc

theorem ownIds_rebuild (pass : Pass) (e : Expr) : (pass.rebuild e).ownIds = e.ownIds := by
  have query (q : Query) : (pass.resultQuery q).current.ids = q.current.ids ∧
      (pass.resultQuery q).past = q.past := by
    rw [Pass.resultQuery_eq]
    split
    · exact ⟨ids_of_skeleton (Pass.skeleton_resultSelect q.current), rfl⟩
    · exact ⟨rfl, rfl⟩
  cases e <;> simp [ownIds, query?, query]

theorem ownIds_marked (kept : Query → Bool) (m : Nat) (e : Expr) :
    (e.marked kept m).ownIds = e.ownIds := by
  have past (m : Nat) (q : Query) : (q.marked kept m).past = q.past := by
    obtain ⟨s, run, -⟩ := q.fresh_run kept m
    rw [Query.marked]
    split
    · rfl
    · rw [run]
  cases e <;> simp [ownIds, query?, Query.ids_marked, past]

theorem leafProperty_ownIds : LeafProperty fun node => ∀ id ∈ node.ownIds, A id := by
  constructor <;> simp [ownIds, query?]

theorem lasting_ownIds : Lasting fun node => ∀ id ∈ node.ownIds, A id where
  placing scope row h := by rwa [ownIds_rebuild]
  rules held h := by rwa [ownIds_rebuild]
  simplifying h := by rwa [ownIds_rebuild]
  marked kept m h := by rwa [ownIds_marked]
  reduced reduces h := everywhere_of_reduces leafProperty_ownIds reduces h

end Expr

theorem Query.past_separate (q : Query) (m : Nat) : (q.separate.run m).1.past = q.past := by
  obtain ⟨s, run, -⟩ := q.fresh_run (fun _ => true) m
  have fresh : (q.separate.run m).1 = ⟨s, q.past⟩ := congrArg Prod.fst run
  rw [fresh]

theorem Query.past_of_derives {q q' : Query} {e : Expr} {next : SourceId}
    (h : q.filtered e next = .ok q' ∨ q.projected e next = .ok q') :
    q'.past = q.current :: q.past := by
  rcases h with h | h
  · obtain ⟨-, -, -, rfl⟩ := filtered_eq_ok.mp h
    rfl
  · obtain ⟨-, -, rfl⟩ := projected_eq_ok.mp h
    rfl

namespace Expr

variable {A : SourceId → Prop}

/-- A derived query has the sources of the one it was derived from, which it keeps. -/
theorem ownIds_derived {q q' : Query} {t : ValueType} {e : Expr} {next : SourceId} (m : Nat)
    (h : ∀ id ∈ (subQuery q t).ownIds, A id)
    (clauses : ∀ c ∈ q.current.clauses, c.Everywhere fun node => ∀ id ∈ node.ownIds, A id)
    (derives : q.filtered e next = .ok q' ∨ q.projected e next = .ok q') :
    ∀ id ∈ (embed (q'.separate.run m).1).ownIds, A id := by
  have adds := derives.elim Query.adds_filtered Query.adds_projected
  have past : (q'.separate.run m).1.past = q.current :: q.past :=
    (q'.past_separate m).trans (Query.past_of_derives derives)
  simp only [ownIds, query?, Option.map_some, Option.getD_some, List.mem_append, or_imp,
    forall_and] at h
  intro id hid
  simp only [ownIds, embed, query?, Option.map_some, Option.getD_some, Query.ids_separate,
    adds.ids_eq, past, Select.sourceIdsAll, List.mem_append, Select.mem_sourceIds] at hid
  rcases hid with own | (own | ⟨c, hc, inside⟩) | before
  · exact h.1 id own
  · exact h.1 id own
  · exact everywhere_ownIds.mp (clauses c hc) id inside
  · exact h.2 id before

theorem spreading_ownIds : Spreading (fun node => ∀ id ∈ node.ownIds, A id) A where
  toLasting := lasting_ownIds
  constant _ _ _ := by simp [ownIds, query?]
  param _ _ _ := by simp [ownIds, query?]
  element _ _ := by simp [ownIds, query?]
  compound {e} holdsNone nonempty _ := by
    cases e <;> simp_all [ownIds, query?, children]
  retyped {e t} _ h := by cases e <;> exact h
  opened {source} h := by
    simpa [ownIds, embed, query?, Query.ofSource, Select.ofSource, Select.ids,
      Select.sourceIdsAll] using h
  root {q t source} h hs := by
    have own : source.id ∈ (subQuery q t).ownIds := by
      simp only [ownIds, query?, Option.map_some, Option.getD_some, List.mem_append]
      exact .inl (List.mem_map_of_mem hs)
    simpa [ownIds, Source.row] using h source.id own
  summarized fn arg h := h
  derived m h clauses derives := ownIds_derived m h clauses derives

end Expr

/-- The sources that occur in a compiled expression occur in what it was given or were
opened meanwhile. -/
theorem Compile.BuiltFrom.sourceIds {given : Expr → Prop} {start next : SourceId}
    {scopes : List ElementScope} {e : Expr} (h : BuiltFrom given start scopes next e) :
    ∀ id ∈ e.sourceIds, (∃ x, given x ∧ id ∈ x.sourceIds) ∨ start ≤ id ∧ id < next := by
  refine Expr.everywhere_ownIds.mp (h.everywhere Expr.spreading_ownIds (fun x hx => ?_) ?_)
  · exact Expr.everywhere_ownIds.mpr fun id hid => .inl ⟨x, hx, hid⟩
  · exact fun id lo hi => .inr ⟨lo, hi⟩

end StreamQuery
