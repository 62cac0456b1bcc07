import StreamQuery.Proofs.Aliases
import StreamQuery.Proofs.Closed
import StreamQuery.Proofs.Drafts

/-! # Places that are rendered

Rendering goes from place to place. At a place stands an expression, with the
selections around it that are being written. A sub-query, and an aggregate over
rows other than those of the innermost selection, is entered: it becomes a
selection of its own. A closed query is rendered exactly if every place that is
visited has a text, and its sources are then named: those of the queries entered.
-/

namespace StreamQuery

def Expr.isRooted : Expr → Bool
  | row .. => true
  | path base _ _ => base.isRooted
  | _ => false

namespace Rendering

open Scribe

/-- An expression to be written within some selections, the innermost first. A
tuple can be written only where several columns may stand. -/
structure Place where
  around : List Select
  single : Bool
  expr : Expr

namespace Place

variable (l : Likeness)

def inScope (p : Place) (q : Query) : Bool := p.around.head?.any (·.sameScope l q.current)

/-- The query that becomes a selection of its own at a place. -/
def entered? (p : Place) : Option Query :=
  match p.expr with
  | .subQuery q _ => some q
  | .aggregate _ _ q _ => if p.inScope l q then none else some q
  | _ => none

/-- The places that are visited for a place, in their order. The column of an
aggregate that is entered has no order. -/
def leads (p : Place) : List Place :=
  match p.expr with
  | .unary .. | .binary .. | .conditional .. | .call .. =>
    p.expr.children.map (⟨p.around, true, ·⟩)
  | .tuple items _ => if p.single then [] else items.map (⟨p.around, false, ·⟩)
  | .aggregate _ arg q _ =>
    if p.inScope l q then arg.toList.map (⟨p.around, true, ·⟩)
    else (arg.toList ++ q.current.filters ++ q.current.groupBy ++ q.current.having).map
      (⟨q.current :: p.around, true, ·⟩)
  | .subQuery q _ =>
    q.current.projection.toList.map (⟨q.current :: p.around, false, ·⟩) ++
      (q.current.filters ++ q.current.groupBy ++ q.current.having ++
        q.current.orderBy.map SortKey.key).map (⟨q.current :: p.around, true, ·⟩)
  | _ => []

/-- Whether the shape of a place can be written: a tuple where columns may stand, a
path from a row, sources that paths from rows lead to. -/
def hasText (p : Place) : Bool :=
  match p.expr with
  | .tuple .. => !p.single
  | .component .. | .element .. => false
  | .path base _ _ => base.isRooted
  | _ => (p.entered? l).all fun q => q.current.sources.all (·.path?.all Expr.isRooted)

/-- Whether the rows of an aggregate are the same as themselves, which they are but
for a constant that is not a number. -/
def isSettled (p : Place) : Bool :=
  match p.expr with
  | .aggregate _ _ q _ => p.inScope l q || q.current.sameScope .usual q.current
  | _ => true

inductive Visits : Place → Place → Prop where
  | here (p : Place) : Visits p p
  | onward {p c p' : Place} (hc : c ∈ p.leads l) (h : Visits c p') : Visits p p'

/-- What a place must have to be written. -/
inductive Need where
  | text
  | settled

def has : Need → Place → Bool
  | .text, p => p.hasText l
  | .settled, p => p.isSettled l

/-- Every place that is visited has what it needs. -/
def Provided (need : Need) (p : Place) : Prop := ∀ p', Visits l p p' → p'.has l need = true

def Names (p : Place) (id : SourceId) : Prop :=
  ∃ p', Visits l p p' ∧ ∃ q ∈ p'.entered? l, id ∈ q.current.ids

variable {l} {p p' : Place}

theorem provided_iff {need : Need} : p.Provided l need ↔
    p.has l need = true ∧ ∀ c ∈ p.leads l, c.Provided l need := by
  constructor
  · intro h
    exact ⟨h p (.here p), fun c hc p' visits => h p' (.onward hc visits)⟩
  · rintro ⟨here, below⟩ p' visits
    cases visits with
    | here => exact here
    | onward hc visits => exact below _ hc p' visits

theorem names_iff {id : SourceId} : p.Names l id ↔
    (∃ q ∈ p.entered? l, id ∈ q.current.ids) ∨ ∃ c ∈ p.leads l, c.Names l id := by
  constructor
  · rintro ⟨p', visits, q, hq, hid⟩
    cases visits with
    | here => exact .inl ⟨q, hq, hid⟩
    | onward hc visits => exact .inr ⟨_, hc, p', visits, q, hq, hid⟩
  · rintro (⟨q, hq, hid⟩ | ⟨c, hc, p', visits, q, hq, hid⟩)
    · exact ⟨p, .here p, q, hq, hid⟩
    · exact ⟨p', .onward hc visits, q, hq, hid⟩

end Place

/-! ## What an action does to the names -/

def lack? : RenderError → Option Place.Need
  | .tupleOutsideProjection | .tupleComponent _ | .pathRoot _ => some .text
  | .unsettledAggregate => some .settled
  | _ => none

/-- An action succeeds exactly if all needs are met, and adds names then. Its error
is about a need that is not met. -/
def Renders {α : Type} (met : Place.Need → Prop) (names : SourceId → Prop) (action : DraftM α)
    (aliases : Aliases) : Prop :=
  match action.run aliases with
  | .ok (_, aliases') =>
    (∀ need, met need) ∧ ∀ id, id ∈ aliases'.ids ↔ id ∈ aliases.ids ∨ names id
  | .error error => ∃ need ∈ lack? error, ¬ met need

section Renders

variable {α β : Type} {met met' : Place.Need → Prop} {names names' : SourceId → Prop}
  {aliases : Aliases}

theorem Renders.congr {action : DraftM α} (h : Renders met names action aliases)
    (hm : ∀ need, met need ↔ met' need) (hn : ∀ id, names id ↔ names' id) :
    Renders met' names' action aliases := by
  unfold Renders at h ⊢
  split at h
  · exact ⟨fun need => (hm need).mp (h.1 need), fun id => (h.2 id).trans (or_congr_right (hn id))⟩
  · obtain ⟨need, about, unmet⟩ := h
    exact ⟨need, about, mt (hm need).mpr unmet⟩

theorem renders_pure (a : α) :
    Renders (fun _ => True) (fun _ => False) (pure a : DraftM α) aliases :=
  ⟨fun _ => trivial, fun id => by simp⟩

theorem renders_throw {error : RenderError} {need : Place.Need} (about : lack? error = some need)
    (unmet : ¬ met need) : Renders met names (throw error : DraftM α) aliases :=
  ⟨need, about, unmet⟩

theorem Renders.bind_named {x : DraftM α} {f : α → DraftM β} (hx : Renders met names x aliases)
    (hf : ∀ a aliases', (∀ id, id ∈ aliases.ids ∨ names id → id ∈ aliases'.ids) →
      Renders met' names' (f a) aliases') :
    Renders (fun need => met need ∧ met' need) (fun id => names id ∨ names' id) (x >>= f)
      aliases := by
  unfold Renders at hx ⊢
  rw [StateT.run_bind]
  cases ran : x.run aliases with
  | error error =>
      rw [ran] at hx
      obtain ⟨need, about, unmet⟩ := hx
      exact ⟨need, about, fun both => unmet both.1⟩
  | ok found =>
      obtain ⟨a, between⟩ := found
      rw [ran] at hx
      obtain ⟨first, names⟩ := hx
      have rest := hf a between fun id => (names id).mpr
      unfold Renders at rest
      simp only [Except.bind, Bind.bind]
      split at rest
      · refine ⟨fun need => ⟨first need, rest.1 need⟩, fun id => ?_⟩
        rw [rest.2, names, or_assoc]
      · obtain ⟨need, about, unmet⟩ := rest
        exact ⟨need, about, fun both => unmet both.2⟩

theorem Renders.bind {x : DraftM α} {f : α → DraftM β} (hx : Renders met names x aliases)
    (hf : ∀ a aliases', (∀ id ∈ aliases.ids, id ∈ aliases'.ids) →
      Renders met' names' (f a) aliases') :
    Renders (fun need => met need ∧ met' need) (fun id => names id ∨ names' id) (x >>= f)
      aliases :=
  hx.bind_named fun a aliases' grows => hf a aliases' fun id hid => grows id (.inl hid)

/-- A step that always succeeds and names nothing. -/
theorem Renders.andThen {x : DraftM α} {f : α → DraftM β}
    (hx : Renders (fun _ => True) (fun _ => False) x aliases)
    (hf : ∀ a aliases', (∀ id ∈ aliases.ids, id ∈ aliases'.ids) →
      Renders met names (f a) aliases') : Renders met names (x >>= f) aliases :=
  (hx.bind hf).congr (by simp) (by simp)

/-- Nothing is left but to put phrases together. -/
theorem Renders.map {x : DraftM α} (hx : Renders met names x aliases) (f : α → β) :
    Renders met names (x >>= fun a => pure (f a)) aliases :=
  (hx.bind fun _ _ _ => renders_pure _).congr (by simp) (by simp)

theorem renders_aliasOf {id : SourceId} (known : id ∈ aliases.ids) :
    Renders (fun _ => True) (fun _ => False) (aliasOf id) aliases := by
  obtain ⟨name, named⟩ := Option.isSome_iff_exists.mp (Aliases.isSome_alias?.mpr known)
  rw [Renders, run_aliasOf_draft named]
  exact ⟨fun _ => trivial, by simp⟩

end Renders

/-! ## Expressions -/

abbrev RendersAll {α : Type} (l : Likeness) (places : List Place) (action : DraftM α)
    (aliases : Aliases) : Prop :=
  Renders (fun need => ∀ p ∈ places, p.Provided l need) (fun id => ∃ p ∈ places, p.Names l id)
    action aliases

abbrev RendersAt {α : Type} (l : Likeness) (p : Place) (action : DraftM α) (aliases : Aliases) :
    Prop :=
  Renders (p.Provided l) (p.Names l) action aliases

section Lists

variable {α β : Type} {l : Likeness} {aliases : Aliases} {places places' : List Place}

theorem rendersAll_pure (a : α) : RendersAll l [] (pure a : DraftM α) aliases :=
  (renders_pure a).congr (by simp) (by simp)

theorem RendersAt.toAll {p : Place} {action : DraftM α} (h : RendersAt l p action aliases) :
    RendersAll l [p] action aliases :=
  Renders.congr h (by simp) (by simp)

theorem RendersAll.bind {x : DraftM α} {f : α → DraftM β} (hx : RendersAll l places x aliases)
    (hf : ∀ a aliases', (∀ id ∈ aliases.ids, id ∈ aliases'.ids) →
      RendersAll l places' (f a) aliases') :
    RendersAll l (places ++ places') (x >>= f) aliases :=
  (Renders.bind hx hf).congr (by simp [or_imp, forall_and]) (by simp [or_and_right, exists_or])

/-- A place that is not entered is written by writing what it leads to. -/
theorem RendersAll.at {p : Place} {action : DraftM α} (h : RendersAll l (p.leads l) action aliases)
    (text : p.hasText l = true) (settled : p.isSettled l = true) (stays : p.entered? l = none) :
    RendersAt l p action aliases := by
  refine Renders.congr h (fun need => ?_) fun id => ?_
  · rw [Place.provided_iff]
    cases need <;> simp [Place.has, text, settled]
  · rw [Place.names_iff]
    simp [stays]

end Lists

/-- What the renderer knows at a place: the selection around it, whose sources are
among those around the expression, and names for all of these. -/
structure Ready (around : List Select) (scope : Select) (ids : List SourceId) (aliases : Aliases) :
    Prop where
  head : around.head? = some scope
  inside : scope.ids ⊆ ids
  known : ∀ id ∈ ids, id ∈ aliases.ids

section Expressions

variable {l : Likeness} {around : List Select} {scope : Select} {ids : List SourceId}
  {aliases : Aliases}

theorem Ready.later {aliases' : Aliases} (h : Ready around scope ids aliases)
    (grows : ∀ id ∈ aliases.ids, id ∈ aliases'.ids) : Ready around scope ids aliases' :=
  ⟨h.head, h.inside, fun id hid => grows id (h.known id hid)⟩

theorem renders_path {e : Expr} (bound : e.Bound [] ids)
    (known : ∀ id ∈ ids, id ∈ aliases.ids) :
    Renders (fun need => need = .text → e.isRooted = true) (fun _ => False) (path e) aliases := by
  induction e using Rendering.path.induct with
  | case1 id t =>
      exact (renders_aliasOf (known id (Expr.within_row.mp bound))).congr (by simp [Expr.isRooted])
        (by simp)
  | case2 base field t ih =>
      rw [path]
      have inner := (Expr.within_compound (fun _ => trivial) rfl (by simp [Expr.children])).mp bound
        base (by simp [Expr.children])
      exact ((ih inner).map _).congr (by simp [Expr.isRooted]) (by simp)
  | case3 other noRow noPath =>
      rw [path.eq_3 other noRow noPath]
      refine renders_throw rfl fun rooted => ?_
      cases other <;> simp_all [Expr.isRooted]

theorem renders_origin {s : Source} (bound : ∀ path ∈ s.path?, path.Bound [] ids)
    (known : ∀ id ∈ ids, id ∈ aliases.ids) :
    Renders (fun need => need = .text → s.path?.all Expr.isRooted = true) (fun _ => False)
      (origin s) aliases := by
  cases s with
  | entity id name => exact (renders_pure _).congr (by simp [Source.path?]) (by simp)
  | navigation id path rowType => exact renders_path (bound path rfl) known

theorem renders_sources {ss : List Source} (named : ∀ s ∈ ss, s.id ∈ aliases.ids)
    (bound : ∀ s ∈ ss, ∀ path ∈ s.path?, path.Bound [] ids)
    (known : ∀ id ∈ ids, id ∈ aliases.ids) (isFirst : Bool) :
    Renders (fun need => need = .text → (ss.all fun s => s.path?.all Expr.isRooted) = true)
      (fun _ => False) (sources isFirst ss) aliases := by
  induction ss generalizing isFirst aliases with
  | nil => exact (renders_pure _).congr (by simp) (by simp)
  | cons s ss ih =>
      obtain ⟨here, rest⟩ := List.forall_mem_cons.mp named
      obtain ⟨bound, bounds⟩ := List.forall_mem_cons.mp bound
      rw [sources]
      refine (renders_aliasOf here).andThen fun short aliases' grows => ?_
      have known' : ∀ id ∈ ids, id ∈ aliases'.ids := fun id hid => grows id (known id hid)
      refine Renders.congr ((renders_origin bound known').bind fun name last grows' =>
        (ih (fun s hs => grows' _ (grows _ (rest s hs))) bounds
          (fun id hid => grows' id (known' id hid)) false).map _) (fun need => ?_) (by simp)
      simp [imp_and]

def ColumnsRender (l : Likeness) (e : Expr) : Prop :=
  ∀ ⦃around : List Select⦄ ⦃scope : Select⦄ ⦃ids : List SourceId⦄ ⦃aliases : Aliases⦄,
    Ready around scope ids aliases → e.Bound [] ids →
    RendersAt l ⟨around, false, e⟩ (columns l scope e) aliases

/-- One phrase is written at a place for one. -/
theorem ColumnsRender.whole {e : Expr} (h : ColumnsRender l e)
    (ready : Ready around scope ids aliases) (bound : e.Bound [] ids) :
    RendersAt l ⟨around, true, e⟩ (whole e (columns l scope e)) aliases := by
  have columns := Renders.map (h ready bound) (joined "")
  cases e with
  | tuple items t =>
      refine renders_throw rfl ?_
      rw [Place.provided_iff]
      simp [Place.has, Place.hasText]
  | _ =>
      refine Renders.congr columns (fun need => ?_) fun id => ?_
      · rw [Place.provided_iff, Place.provided_iff]
        cases need <;> rfl
      · rw [Place.names_iff, Place.names_iff]
        rfl

theorem renders_list {es : List Expr} (h : ∀ e ∈ es, ColumnsRender l e)
    (ready : Ready around scope ids aliases) (bound : ∀ e ∈ es, e.Bound [] ids) :
    RendersAll l (es.map (⟨around, true, ·⟩)) (list l scope es) aliases := by
  induction es generalizing aliases with
  | nil => exact rendersAll_pure _
  | cons e es ih =>
      obtain ⟨he, hes⟩ := List.forall_mem_cons.mp h
      obtain ⟨bound, bounds⟩ := List.forall_mem_cons.mp bound
      rw [list]
      exact (he.whole ready bound).toAll.bind fun _ _ grows =>
        Renders.map (ih hes (ready.later grows) bounds) _

theorem renders_columnsOf {es : List Expr} (h : ∀ e ∈ es, ColumnsRender l e)
    (ready : Ready around scope ids aliases) (bound : ∀ e ∈ es, e.Bound [] ids) :
    RendersAll l (es.map (⟨around, false, ·⟩)) (columnsOf l scope es) aliases := by
  induction es generalizing aliases with
  | nil => exact rendersAll_pure _
  | cons e es ih =>
      obtain ⟨he, hes⟩ := List.forall_mem_cons.mp h
      obtain ⟨bound, bounds⟩ := List.forall_mem_cons.mp bound
      rw [columnsOf]
      exact (RendersAt.toAll (he ready bound)).bind fun _ _ grows =>
        Renders.map (ih hes (ready.later grows) bounds) _

theorem renders_sortKeys {keys : List SortKey} (h : ∀ e ∈ keys.map SortKey.key, ColumnsRender l e)
    (ready : Ready around scope ids aliases) (bound : ∀ e ∈ keys.map SortKey.key, e.Bound [] ids) :
    RendersAll l ((keys.map SortKey.key).map (⟨around, true, ·⟩)) (sortKeys l scope keys)
      aliases := by
  induction keys generalizing aliases with
  | nil => exact rendersAll_pure _
  | cons k keys ih =>
      obtain ⟨key, direction⟩ := k
      obtain ⟨he, hes⟩ := List.forall_mem_cons.mp h
      obtain ⟨bound, bounds⟩ := List.forall_mem_cons.mp bound
      rw [sortKeys]
      exact (he.whole ready bound).toAll.bind fun _ _ grows =>
        Renders.map (ih hes (ready.later grows) bounds) _

theorem renders_rootAlias {s : Select} (sources : s.ids ≠ [])
    (known : ∀ id ∈ s.ids, id ∈ aliases.ids) (error : RenderError) :
    Renders (fun _ => True) (fun _ => False) (rootAlias s error) aliases := by
  unfold rootAlias Select.root?
  cases found : s.sources with
  | nil => simp [Select.ids, found] at sources
  | cons source rest => exact renders_aliasOf (known source.id (by simp [Select.ids, found]))

theorem renders_argument {arg : Option Expr} {s : Select} (h : ∀ e ∈ arg, ColumnsRender l e)
    (ready : Ready around scope ids aliases) (bound : ∀ e ∈ arg, e.Bound [] ids)
    (sources : s.ids ≠ []) (inside : s.ids ⊆ ids) :
    RendersAll l (arg.toList.map (⟨around, true, ·⟩)) (argument l scope arg s) aliases := by
  cases arg with
  | none =>
      rw [argument]
      exact (renders_rootAlias sources (fun id hid => ready.known id (inside hid)) _).congr
        (by simp) (by simp)
  | some e =>
      rw [argument]
      exact (ColumnsRender.whole (h e rfl) ready (bound e rfl)).toAll

/-! ## Queries -/

theorem renders_addAll (sources : List Source) :
    Renders (fun _ => True) (fun id => id ∈ sources.map Source.id)
      (enter sources : DraftM Unit) aliases :=
  ⟨fun _ => trivial, fun _ => Aliases.mem_ids_addAll⟩

/-- A query is written by naming its sources and writing its clauses, or a column in
the place of its projection and order. -/
theorem renders_select {q : Query} {column? : Option (DraftM Phrase)} {heads keys : List Place}
    (bound : ∀ c ∈ q.current.clauses, c.Bound [] (q.current.ids ++ ids))
    (known : ∀ id ∈ ids, id ∈ aliases.ids)
    (clauses : ∀ c ∈ q.current.clauses, ColumnsRender l c)
    (hitems : ∀ {aliases'}, Ready (q.current :: around) q.current (q.current.ids ++ ids) aliases' →
      RendersAll l heads (items l q.current column?) aliases')
    (hkeys : ∀ {aliases'}, Ready (q.current :: around) q.current (q.current.ids ++ ids) aliases' →
      RendersAll l keys (order l q.current column?) aliases') :
    Renders (fun need =>
        (need = .text → (q.current.sources.all fun s => s.path?.all Expr.isRooted) = true) ∧
        ∀ p ∈ heads ++ (q.current.filters ++ q.current.groupBy ++ q.current.having).map
          (⟨q.current :: around, true, ·⟩) ++ keys, p.Provided l need)
      (fun id => id ∈ q.current.ids ∨
        ∃ p ∈ heads ++ (q.current.filters ++ q.current.groupBy ++ q.current.having).map
          (⟨q.current :: around, true, ·⟩) ++ keys, p.Names l id)
      (select l q column?) aliases := by
  have part : ∀ {es : List Expr}, (∀ e ∈ es, e ∈ q.current.clauses) → ∀ {aliases'},
      Ready (q.current :: around) q.current (q.current.ids ++ ids) aliases' →
      RendersAll l (es.map (⟨q.current :: around, true, ·⟩)) (list l q.current es) aliases' :=
    fun inside _ ready => renders_list (fun e he => clauses e (inside e he)) ready
      fun e he => bound e (inside e he)
  have filters : ∀ e ∈ q.current.filters, e ∈ q.current.clauses := by
    intro e he
    simp [Select.clauses, he]
  have groups : ∀ e ∈ q.current.groupBy, e ∈ q.current.clauses := by
    intro e he
    simp [Select.clauses, he]
  have having : ∀ e ∈ q.current.having, e ∈ q.current.clauses := by
    intro e he
    simp [Select.clauses, he]
  have paths : ∀ s ∈ q.current.sources, ∀ path ∈ s.path?,
      path.Bound [] (q.current.ids ++ ids) := by
    intro s hs path hp
    refine bound path ?_
    have mem : path ∈ q.current.sources.filterMap Source.path? := List.mem_filterMap.mpr ⟨s, hs, hp⟩
    simp [Select.clauses, mem]
  rw [select_eq]
  refine Renders.congr ((renders_addAll q.current.sources).bind_named fun _ aliases₀ named =>
    have known' : ∀ id ∈ q.current.ids ++ ids, id ∈ aliases₀.ids := fun id hid =>
      (List.mem_append.mp hid).elim (fun own => named id (.inr own))
        fun outer => named id (.inl (known id outer))
    have ready : Ready (q.current :: around) q.current (q.current.ids ++ ids) aliases₀ :=
      ⟨rfl, fun _ => List.mem_append_left _, known'⟩
    Renders.bind (hitems ready) fun items aliases₁ grows =>
    have ready := ready.later grows
    (renders_sources (fun s hs => ready.known s.id (ready.inside (List.mem_map_of_mem hs))) paths
      ready.known true).bind fun froms aliases₂ grows =>
    have ready := ready.later grows
    (part filters ready).bind fun filters aliases₃ grows =>
    have ready := ready.later grows
    (part groups ready).bind fun groups aliases₄ grows =>
    have ready := ready.later grows
    (part having ready).bind fun having aliases₅ grows =>
    have ready := ready.later grows
    Renders.map (hkeys ready) _) ?_ ?_
  · intro need
    simp only [List.map_append, List.forall_mem_append, true_and, and_assoc]
    exact and_left_comm
  · intro id
    simp only [List.map_append, List.mem_append, or_and_right, exists_or, false_or, or_assoc]
    rfl

/-- A place that is entered is written by writing its query. -/
theorem Renders.entered {α : Type} {p : Place} {q : Query} {places : List Place}
    {action : DraftM α} (h : Renders (fun need =>
        (need = .text → (q.current.sources.all fun s => s.path?.all Expr.isRooted) = true) ∧
        ∀ p ∈ places, p.Provided l need)
      (fun id => id ∈ q.current.ids ∨ ∃ p ∈ places, p.Names l id) action aliases)
    (entered : p.entered? l = some q) (leads : p.leads l = places)
    (settled : p.isSettled l = true) : RendersAt l p action aliases := by
  have text : p.hasText l = q.current.sources.all fun s => s.path?.all Expr.isRooted := by
    obtain ⟨around, single, e⟩ := p
    cases e with
    | subQuery r t =>
        obtain rfl : r = q := by simpa [Place.entered?] using entered
        simp [Place.hasText, Place.entered?]
    | aggregate fn arg r t => simp [Place.hasText, entered]
    | _ => simp [Place.entered?] at entered
  refine Renders.congr h (fun need => ?_) fun id => ?_
  · rw [Place.provided_iff, leads]
    cases need <;> simp [Place.has, text, settled]
  · rw [Place.names_iff, leads, entered]
    simp

theorem ids_eq_of_sameScope {s t : Select} (h : s.sameScope l t = true) : s.ids = t.ids := by
  simp only [Select.sameScope, Bool.and_eq_true, Source.likeAll_iff] at h
  exact Expr.ids_of_sources h.1.1

theorem renders_query {q : Query} {t : ValueType}
    (clauses : ∀ c ∈ q.current.clauses, ColumnsRender l c)
    (known : ∀ id ∈ ids, id ∈ aliases.ids) (bound : (Expr.subQuery q t).Bound [] ids) :
    RendersAt l ⟨around, false, .subQuery q t⟩ (select l q none) aliases := by
  obtain ⟨hasSource, bounds⟩ := Expr.within_subQuery.mp bound
  have items : ∀ {aliases'}, Ready (q.current :: around) q.current (q.current.ids ++ ids) aliases' →
      RendersAll l (q.current.projection.toList.map (⟨q.current :: around, false, ·⟩))
        (items l q.current none) aliases' := by
    intro aliases' inner
    unfold items
    cases projection : q.current.projection with
    | none =>
        have known : ∀ id ∈ q.current.ids, _ := fun id hid => inner.known id (inner.inside hid)
        exact ((renders_rootAlias hasSource known _).map _).congr (by simp) (by simp)
    | some e =>
        have mem : e ∈ q.current.clauses := by simp [Select.clauses, projection]
        exact RendersAt.toAll (clauses e mem inner (bounds e mem))
  have mem : ∀ e ∈ q.current.orderBy.map SortKey.key, e ∈ q.current.clauses := by
    intro e he
    simp only [Select.clauses, List.mem_append]
    exact .inr he
  refine Renders.entered (renders_select bounds known clauses items fun inner =>
    renders_sortKeys (fun e he => clauses e (mem e he)) inner fun e he => bounds e (mem e he))
    rfl ?_ rfl
  simp [Place.leads]

theorem renders_aggregate {fn : AggregateFn} {arg : Option Expr} {q : Query} {t : ValueType}
    (args : ∀ e ∈ arg, ColumnsRender l e) (clauses : ∀ c ∈ q.current.clauses, ColumnsRender l c)
    (ready : Ready around scope ids aliases) (bound : (Expr.aggregate fn arg q t).Bound [] ids) :
    RendersAt l ⟨around, false, .aggregate fn arg q t⟩ (columns l scope (.aggregate fn arg q t))
      aliases := by
  obtain ⟨hasSource, argBounds, bounds⟩ := Expr.within_aggregate.mp bound
  have rowsHere : Place.inScope l ⟨around, false, .aggregate fn arg q t⟩ q =
      scope.sameScope l q.current := by
    simp [Place.inScope, ready.head]
  rw [columns]
  split
  · next same =>
      have inside : q.current.ids ⊆ ids := by
        rw [← ids_eq_of_sameScope same]
        exact ready.inside
      have argBounds : ∀ e ∈ arg, e.Bound [] ids := fun e he =>
        (argBounds e he).widen (List.Subset.refl _)
          (List.append_subset.mpr ⟨inside, List.Subset.refl _⟩)
      have leads : Place.leads l ⟨around, false, .aggregate fn arg q t⟩ =
          arg.toList.map (⟨around, true, ·⟩) := by
        simp [Place.leads, rowsHere, same]
      refine RendersAll.at (Renders.map ?_ _) ?_ ?_ ?_
      · rw [leads]
        exact renders_argument args ready argBounds hasSource inside
      · simp [Place.hasText, Place.entered?, rowsHere, same]
      · simp [Place.isSettled, rowsHere, same]
      · simp [Place.entered?, rowsHere, same]
  · next other =>
      split
      · next settled =>
          have column : ∀ {aliases'},
              Ready (q.current :: around) q.current (q.current.ids ++ ids) aliases' →
              RendersAll l (arg.toList.map (⟨q.current :: around, true, ·⟩))
                (items l q.current (some do
                  let inner ← argument l q.current arg q.current
                  pure (call fn.name [inner]))) aliases' := fun inner =>
            Renders.map (Renders.map
              (renders_argument args inner argBounds hasSource inner.inside) _) _
          refine Renders.map (Renders.entered (renders_select bounds ready.known clauses column
            fun _ => rendersAll_pure []) ?_ ?_ ?_) _
          · simp [Place.entered?, rowsHere, other]
          · simp [Place.leads, rowsHere, other]
          · simp [Place.isSettled, settled]
      · next unsettled =>
          refine renders_throw rfl ?_
          rw [Place.provided_iff]
          simp [Place.has, Place.isSettled, rowsHere, other, unsettled]

/-- The columns of every expression are what is written at its place. The induction
is over all parts of an expression, the clauses of its queries included. -/
theorem columnsRender (e : Expr) : ColumnsRender l e := by
  induction e using Expr.partsInduction true with
  | node e ih =>
      intro around scope ids aliases ready bound
      have children : ∀ c ∈ e.children, ColumnsRender l c := fun c hc =>
        ih c (Expr.mem_parts_true.mpr (.inl hc))
      have clauses : ∀ q ∈ e.query?, ∀ c ∈ q.current.clauses, ColumnsRender l c := fun q hq c hc =>
        ih c (Expr.mem_parts_true.mpr (.inr ⟨q, hq, hc⟩))
      have bounds := Expr.Within.children bound
      cases e with
      | constant value t =>
          rw [columns]
          exact (rendersAll_pure _).at rfl rfl rfl
      | param capture t =>
          rw [columns]
          exact (rendersAll_pure _).at rfl rfl rfl
      | row id t =>
          rw [columns]
          refine RendersAll.at ?_ rfl rfl rfl
          exact Renders.congr ((renders_aliasOf (ready.known id (Expr.within_row.mp bound))).map _)
            (by simp [Place.leads]) (by simp [Place.leads])
      | element s t => exact absurd (Expr.within_element.mp bound) (by simp [Referent.Bound])
      | path base field t =>
          rw [columns]
          refine Renders.congr ((renders_path bound ready.known).map _) (fun need => ?_)
            fun id => ?_
          · rw [Place.provided_iff]
            cases need <;>
              simp [Place.has, Place.hasText, Place.isSettled, Place.leads, Expr.isRooted]
          · rw [Place.names_iff]
            simp [Place.entered?, Place.leads]
      | component base index t =>
          rw [columns]
          refine renders_throw rfl ?_
          rw [Place.provided_iff]
          simp [Place.has, Place.hasText]
      | unary op operand t =>
          have bounds := bounds rfl
          simp only [Expr.children, List.forall_mem_cons] at children bounds
          rw [columns]
          refine RendersAll.at (Renders.map ?_ _) rfl rfl rfl
          exact (children.1.whole ready bounds.1).toAll
      | binary op left right t =>
          have bounds := bounds rfl
          simp only [Expr.children, List.forall_mem_cons] at children bounds
          rw [columns]
          refine RendersAll.at ?_ rfl rfl rfl
          exact (children.1.whole ready bounds.1).toAll.bind fun _ _ grows =>
            Renders.map (children.2.1.whole (ready.later grows) bounds.2.1).toAll _
      | conditional test yes no t =>
          have bounds := bounds rfl
          simp only [Expr.children, List.forall_mem_cons] at children bounds
          rw [columns]
          refine RendersAll.at ?_ rfl rfl rfl
          exact (children.1.whole ready bounds.1).toAll.bind fun _ _ grows =>
            have ready := ready.later grows
            (children.2.1.whole ready bounds.2.1).toAll.bind fun _ _ grows =>
            Renders.map (children.2.2.1.whole (ready.later grows) bounds.2.2.1).toAll _
      | tuple items t =>
          rw [columns]
          refine RendersAll.at ?_ rfl rfl rfl
          exact renders_columnsOf children ready (bounds rfl)
      | call fn args t =>
          rw [columns]
          refine RendersAll.at (Renders.map ?_ _) rfl rfl rfl
          exact renders_list children ready (bounds rfl)
      | aggregate fn arg q t =>
          exact renders_aggregate (fun e he => children e (by simpa [Expr.children] using he))
            (clauses q rfl) ready bound
      | subQuery q t =>
          rw [columns]
          exact Renders.map (renders_query (clauses q rfl) ready.known bound) _

end Expressions

end Rendering

end StreamQuery
