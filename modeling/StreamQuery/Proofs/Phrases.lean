import StreamQuery.Proofs.Places

/-! # What phrases hold

A query is written as texts around its constants and captured variables, its contents.
`Place.contents` lists them in the order of the places that are visited. The phrase of a
query holds them in that order, and no two of them touch: after each one a text goes on,
or the phrase ends. The characters of its texts are those of names and of fixed texts, of
which none has a quote.
-/

namespace StreamQuery

/-! ## Contents in the order of the text -/

namespace Rendering.Place

variable {l : Likeness} {p c : Place}

theorem expr_mem_parts (hc : c ∈ p.leads l) : c.expr ∈ p.expr.parts true := by
  rw [Expr.mem_parts_true]
  obtain ⟨around, single, e⟩ := p
  cases e with
  | unary | binary | conditional | call =>
      obtain ⟨e, he, rfl⟩ := List.mem_map.mp hc
      exact .inl he
  | tuple items t =>
      simp only [leads] at hc
      split at hc
      · cases hc
      · obtain ⟨e, he, rfl⟩ := List.mem_map.mp hc
        exact .inl he
  | aggregate fn arg q t =>
      simp only [leads] at hc
      split at hc
      · obtain ⟨e, he, rfl⟩ := List.mem_map.mp hc
        exact .inl he
      · obtain ⟨e, he, rfl⟩ := List.mem_map.mp hc
        simp only [List.mem_append] at he
        rcases he with ((he | he) | he) | he
        · exact .inl he
        all_goals exact .inr ⟨q, rfl, by simp [Select.clauses, he]⟩
  | subQuery q t =>
      refine .inr ⟨q, rfl, ?_⟩
      rcases List.mem_append.mp hc with hc | hc
      · obtain ⟨e, he, rfl⟩ := List.mem_map.mp hc
        simp only [Select.clauses, List.mem_append]
        simp [he]
      · obtain ⟨e, he, rfl⟩ := List.mem_map.mp hc
        simp only [Select.clauses, List.mem_append] at he ⊢
        rcases he with ((he | he) | he) | he <;> simp [he]
  | _ => cases hc

/-- The constants and captured variables at the places visited for a place, in the order of
the places: each once for every time that it is written. -/
def contents (l : Likeness) (p : Place) : List Fragment :=
  match p.expr with
  | .constant value _ => [.literal value]
  | .param capture _ => [.placeholder capture]
  | _ => (p.leads l).attach.flatMap fun c => c.1.contents l
termination_by sizeOf p.expr
decreasing_by exact Expr.sizeOf_lt_of_mem_parts (expr_mem_parts c.2)

theorem contents_constant {around : List Select} {single : Bool} {value : Value} {t : ValueType} :
    contents l ⟨around, single, .constant value t⟩ = [.literal value] := by
  rw [contents]

theorem contents_param {around : List Select} {single : Bool} {capture : Capture} {t : ValueType} :
    contents l ⟨around, single, .param capture t⟩ = [.placeholder capture] := by
  rw [contents]

theorem contents_eq_leads (noConstant : ∀ value t, p.expr ≠ .constant value t)
    (noParam : ∀ capture t, p.expr ≠ .param capture t) :
    p.contents l = (p.leads l).flatMap (contents l) := by
  rw [contents]
  split
  · next found => exact absurd found (noConstant _ _)
  · next found => exact absurd found (noParam _ _)
  · simp

end Rendering.Place

/-! ## Phrases -/

def Fragment.isContent : Fragment → Bool
  | .text _ => false
  | _ => true

namespace Phrase

/-- Nothing, or a text that is not empty and what comes after it. -/
def Opens : Phrase → Prop
  | [] => True
  | .text s :: _ => s ≠ ""
  | _ => False

/-- A phrase of contents in their order and of texts whose characters are of a kind. No two
contents touch. -/
inductive Frames (ok : Char → Prop) : List Fragment → Phrase → Prop
  | nil : Frames ok [] []
  | text {s : String} {contents : List Fragment} {phrase : Phrase} (h : ∀ c ∈ s.toList, ok c)
      (rest : Frames ok contents phrase) : Frames ok contents (.text s :: phrase)
  | content {f : Fragment} {contents : List Fragment} {phrase : Phrase} (h : f.isContent = true)
      (opens : phrase.Opens) (rest : Frames ok contents phrase) :
      Frames ok (f :: contents) (f :: phrase)

inductive FramesAll (ok : Char → Prop) : List Fragment → List Phrase → Prop
  | nil : FramesAll ok [] []
  | cons {contents contents' : List Fragment} {phrase : Phrase} {phrases : List Phrase}
      (first : Frames ok contents phrase) (rest : FramesAll ok contents' phrases) :
      FramesAll ok (contents ++ contents') (phrase :: phrases)

section

variable {ok : Char → Prop} {contents contents' : List Fragment} {phrase phrase' : Phrase}
  {phrases phrases' : List Phrase}

theorem Opens.append (h : phrase.Opens) (h' : phrase'.Opens) : Opens (phrase ++ phrase') := by
  cases phrase with
  | nil => exact h'
  | cons fragment phrase =>
      cases fragment with
      | text s => exact h
      | literal | placeholder => exact h.elim

theorem Frames.append (h : Frames ok contents phrase) (h' : Frames ok contents' phrase')
    (opens : phrase'.Opens) : Frames ok (contents ++ contents') (phrase ++ phrase') := by
  induction h with
  | nil => exact h'
  | text h _ ih => exact .text h ih
  | content h before _ ih => exact .content h (before.append opens) ih

/-- A phrase of texts alone may stand before any other. -/
theorem Frames.before (h : Frames ok [] phrase) (h' : Frames ok contents phrase') :
    Frames ok contents (phrase ++ phrase') := by
  generalize none : ([] : List Fragment) = before at h
  induction h with
  | nil => exact h'
  | text h _ ih => exact .text h (ih none)
  | content => cases none

theorem Frames.filter (h : Frames ok contents phrase) :
    phrase.filter Fragment.isContent = contents := by
  induction h with
  | nil => rfl
  | text _ _ ih => exact ih
  | content h _ _ ih => rw [List.filter_cons_of_pos h, ih]

theorem FramesAll.append (h : FramesAll ok contents phrases)
    (h' : FramesAll ok contents' phrases') :
    FramesAll ok (contents ++ contents') (phrases ++ phrases') := by
  induction h with
  | nil => exact h'
  | cons first _ ih =>
      rw [List.append_assoc]
      exact .cons first ih

theorem Frames.single (h : Frames ok contents phrase) : FramesAll ok contents [phrase] := by
  have all := FramesAll.cons h .nil
  rwa [List.append_nil] at all

end

end Phrase

namespace Rendering

open Phrase Scribe Wording

section Frames

variable {ok : Char → Prop} {contents contents' : List Fragment} {phrase phrase' : Phrase}
  {phrases : List Phrase} {s t : String}

/-- All characters but the quote are of a kind, so all fixed texts are made of them. -/
def Usual (ok : Char → Prop) : Prop := ∀ c, c ≠ Value.quoteMark → ok c

variable (usual : Usual ok)

include usual

theorem Usual.text (fixed : Value.quoteMark ∉ s.toList) : ∀ c ∈ s.toList, ok c :=
  fun c hc => usual c fun quote => fixed (quote ▸ hc)

theorem frames_ofText (fixed : Value.quoteMark ∉ s.toList) : Frames ok [] (ofText s) :=
  .text (usual.text fixed) .nil

theorem frames_after (fixed : Value.quoteMark ∉ s.toList) (h : Frames ok contents phrase) :
    Frames ok contents (ofText s ++ phrase) :=
  .text (usual.text fixed) h

theorem frames_between (fixed : Value.quoteMark ∉ s.toList) (ne : s ≠ "")
    (h : Frames ok contents phrase) (h' : Frames ok contents' phrase') :
    Frames ok (contents ++ contents') (phrase ++ ofText s ++ phrase') := by
  rw [List.append_assoc]
  exact h.append (.text (usual.text fixed) h') ne

theorem frames_closed (fixed : Value.quoteMark ∉ s.toList) (ne : s ≠ "")
    (h : Frames ok contents phrase) : Frames ok contents (phrase ++ ofText s) := by
  have all := h.append (frames_ofText usual fixed) ne
  rwa [List.append_nil] at all

theorem frames_enclosed (opening : Value.quoteMark ∉ s.toList)
    (closing : Value.quoteMark ∉ t.toList) (ne : t ≠ "") (h : Frames ok contents phrase) :
    Frames ok contents (ofText s ++ phrase ++ ofText t) :=
  frames_closed usual closing ne (frames_after usual opening h)

theorem frames_joined (fixed : Value.quoteMark ∉ s.toList) (ne : s ≠ "")
    (h : FramesAll ok contents phrases) : Frames ok contents (joined s phrases) := by
  induction h with
  | nil => exact .nil
  | @cons contents _ phrase phrases first rest ih =>
      cases phrases with
      | nil =>
          cases rest
          rw [List.append_nil]
          exact first
      | cons second phrases => exact first.append (.text (usual.text fixed) ih) ne

theorem frames_parenthesized (h : Frames ok contents phrase) :
    Frames ok contents (parenthesized phrase) :=
  frames_enclosed usual (by decide) (by decide) (by decide) h

theorem frames_call {name : String} (fixed : Value.quoteMark ∉ (name ++ "(").toList)
    (h : FramesAll ok contents phrases) : Frames ok contents (call name phrases) :=
  frames_enclosed usual fixed (by decide) (by decide) (frames_joined usual (by decide) (by decide) h)

theorem frames_unary (op : UnaryOp) (h : Frames ok contents phrase) :
    Frames ok contents (unary op phrase) := by
  cases op <;> exact frames_enclosed usual (by decide) (by decide) (by decide) h

theorem frames_binary (op : BinaryOp) (h : Frames ok contents phrase)
    (h' : Frames ok contents' phrase') :
    Frames ok (contents ++ contents') (binary op phrase phrase') := by
  have between {symbol : String} (fixed : Value.quoteMark ∉ (" " ++ symbol ++ " ").toList)
      (ne : " " ++ symbol ++ " " ≠ "") : Frames ok (contents ++ contents')
        (ofText "(" ++ phrase ++ ofText (" " ++ symbol ++ " ") ++ phrase' ++ ofText ")") :=
    frames_closed usual (by decide) (by decide)
      (frames_between usual fixed ne (frames_after usual (by decide) h) h')
  have both : FramesAll ok (contents ++ contents') [phrase, phrase'] := h.single.append h'.single
  cases op with
  | arith op =>
      cases op with
      | rem => exact frames_call usual (by decide) both
      | _ => exact between (by decide) (by decide)
  | compare op => cases op <;> exact between (by decide) (by decide)
  | and | or | like => exact between (by decide) (by decide)
  | concat => exact frames_call usual (by decide) both

theorem frames_choice {contents'' : List Fragment} {phrase'' : Phrase}
    (h : Frames ok contents phrase) (h' : Frames ok contents' phrase')
    (h'' : Frames ok contents'' phrase'') :
    Frames ok (contents ++ contents' ++ contents'') (choice phrase phrase' phrase'') := by
  have test := frames_after usual (s := "(CASE WHEN ") (by decide) h
  have yes := frames_between usual (s := " THEN ") (by decide) (by decide) test h'
  have no := frames_between usual (s := " ELSE ") (by decide) (by decide) yes h''
  exact frames_closed usual (s := " END)") (by decide) (by decide) no

theorem frames_aggregate (fn : AggregateFn) (h : Frames ok contents phrase) :
    Frames ok contents (call fn.name [phrase]) := by
  cases fn <;> exact frames_call usual (by decide) h.single

theorem frames_conjunction (h : FramesAll ok contents phrases) :
    Frames ok contents (conjunction phrases) := by
  cases h with
  | nil => exact frames_ofText usual (by decide)
  | @cons contents _ phrase _ first rest =>
      simp only [conjunction]
      induction rest generalizing contents phrase with
      | nil =>
          rw [List.append_nil]
          exact first
      | cons second _ ih =>
          rw [← List.append_assoc]
          exact ih (frames_binary usual .and first second)

theorem frames_clause {layout : List Phrase → Phrase} (fixed : Value.quoteMark ∉ s.toList)
    (layouts : Frames ok contents (layout phrases)) (h : FramesAll ok contents phrases) :
    Frames ok contents (clause s phrases layout) := by
  unfold clause
  cases h with
  | nil => exact .nil
  | cons => exact frames_after usual fixed layouts

omit usual in
theorem opens_clause (ne : s ≠ "") (layout : List Phrase → Phrase) :
    Opens (clause s phrases layout) := by
  unfold clause
  split
  · trivial
  · exact ne

theorem frames_selection (distinct : Bool) {items filters groups having keys : List Phrase}
    {inItems inFilters inGroups inHaving inKeys : List Fragment}
    (hitems : FramesAll ok inItems items) (hfroms : Frames ok [] phrase)
    (hfilters : FramesAll ok inFilters filters) (hgroups : FramesAll ok inGroups groups)
    (hhaving : FramesAll ok inHaving having) (hkeys : FramesAll ok inKeys keys) :
    Frames ok (inItems ++ (inFilters ++ (inGroups ++ (inHaving ++ inKeys))))
      (selection distinct items phrase filters groups having keys) := by
  have opened := frames_after usual (s := if distinct then "SELECT DISTINCT " else "SELECT ")
    (by split <;> decide) (frames_joined usual (s := ", ") (by decide) (by decide) hitems)
  have listed := frames_between usual (s := " FROM ") (by decide) (by decide) opened hfroms
  have filtered := frames_clause usual (s := " WHERE ") (by decide)
    (frames_conjunction usual hfilters) hfilters
  have grouped := frames_clause usual (s := " GROUP BY ") (by decide)
    (frames_joined usual (s := ", ") (by decide) (by decide) hgroups) hgroups
  have kept := frames_clause usual (s := " HAVING ") (by decide)
    (frames_conjunction usual hhaving) hhaving
  have ordered := frames_clause usual (s := " ORDER BY ") (by decide)
    (frames_joined usual (s := ", ") (by decide) (by decide) hkeys) hkeys
  have all := (((listed.append filtered (opens_clause (by decide) _)).append grouped
    (opens_clause (by decide) _)).append kept (opens_clause (by decide) _)).append ordered
    (opens_clause (by decide) _)
  simpa [selection] using all

end Frames

end Rendering

/-! ## Names -/

def Source.entity? : Source → Option String
  | entity _ name => some name
  | navigation .. => none

def Select.entities (s : Select) : List String := s.sources.filterMap Source.entity?

/-- The names in a node itself: of its field, or of the entities of its query. -/
def Expr.names : Expr → List String
  | path _ field _ => [field.name]
  | e => e.query?.toList.flatMap (·.current.entities)

def Expr.Named (ok : Char → Prop) (e : Expr) : Prop :=
  e.Everywhere fun node => ∀ name ∈ node.names, ∀ c ∈ name.toList, ok c

instance {ok : Char → Prop} [DecidablePred ok] (e : Expr) : Decidable (e.Named ok) :=
  decidable_of_iff (((e.reach fun _ => false).all fun node =>
    node.names.all fun name => name.toList.all fun c => decide (ok c)) = true)
    (by simp only [List.all_eq_true, decide_eq_true_eq]; rfl)

structure Select.Named (ok : Char → Prop) (s : Select) : Prop where
  entities : ∀ name ∈ s.entities, ∀ c ∈ name.toList, ok c
  clauses : ∀ e ∈ s.clauses, e.Named ok

theorem Expr.named_subQuery {ok : Char → Prop} {q : Query} {t : ValueType} :
    (subQuery q t).Named ok ↔ q.current.Named ok := by
  rw [Named, everywhere_subQuery]
  simp only [names, query?, Option.toList_some, List.flatMap_cons, List.flatMap_nil,
    List.append_nil]
  exact ⟨fun h => ⟨h.1, h.2⟩, fun h => ⟨h.entities, h.clauses⟩⟩

theorem Expr.Named.query {ok : Char → Prop} {e : Expr} (h : e.Named ok) :
    ∀ q ∈ e.query?, q.current.Named ok := by
  intro q hq
  obtain ⟨here, parts⟩ := everywhere_iff.mp h
  refine ⟨fun name hn => here name ?_, fun c hc => parts c (mem_parts_true.mpr (.inr ⟨q, hq, hc⟩))⟩
  cases e with
  | path => cases hq
  | _ => exact List.mem_flatMap.mpr ⟨q, Option.mem_toList.mpr hq, hn⟩

theorem Select.named_any (s : Select) : s.Named fun _ => True :=
  ⟨fun _ _ _ _ => trivial, fun _ _ _ _ _ _ _ _ => trivial⟩

namespace Rendering

open Phrase Scribe Wording

/-! ## Actions -/

def Yields {α : Type} (action : DraftM α) (P : α → Prop) : Prop :=
  ∀ ⦃aliases : Aliases⦄ ⦃a : α⦄ ⦃aliases' : Aliases⦄, action.run aliases = .ok (a, aliases') → P a

section Yields

variable {α β : Type} {P : α → Prop} {Q : β → Prop} {x : DraftM α}

theorem yields_pure {a : α} (h : P a) : Yields (pure a) P := by
  intro aliases b aliases' ran
  cases ran
  exact h

theorem yields_throw {error : RenderError} : Yields (throw error : DraftM α) P := by
  intro aliases a aliases' ran
  cases ran

theorem Yields.bind {f : α → DraftM β} (hx : Yields x P) (hf : ∀ a, P a → Yields (f a) Q) :
    Yields (x >>= f) Q := by
  intro aliases b aliases' ran
  rw [StateT.run_bind] at ran
  cases first : x.run aliases with
  | error error =>
      rw [first] at ran
      cases ran
  | ok found =>
      rw [first] at ran
      exact hf found.1 (hx first) ran

theorem yields_any : Yields x fun _ => True := fun _ _ _ _ => trivial

end Yields

section Names

variable {ok : Char → Prop} (usual : Usual ok)

include usual

theorem yields_aliasOf (id : SourceId) : Yields (aliasOf id) (Frames ok []) := by
  intro aliases phrase aliases' ran
  cases named : aliases.alias? id with
  | some name =>
      rw [run_aliasOf_draft named] at ran
      cases ran
      refine frames_ofText usual fun quote => ?_
      exact absurd ((Aliases.isUpper_alias named).2 _ quote) (by decide)
  | none =>
      rw [run_aliasOf_draft_none named] at ran
      cases ran

theorem yields_rootAlias (s : Select) (error : RenderError) :
    Yields (rootAlias s error) (Frames ok []) := by
  unfold rootAlias
  split
  · exact yields_aliasOf usual _
  · exact yields_throw

theorem yields_path {e : Expr} (named : e.Named ok) : Yields (path e) (Frames ok []) := by
  induction e using Rendering.path.induct with
  | case1 id t => exact yields_aliasOf usual id
  | case2 base field t ih =>
      obtain ⟨here, below⟩ := Expr.everywhere_path.mp named
      rw [path]
      refine (ih below).bind fun inner hinner => yields_pure (hinner.before (.text ?_ .nil))
      rw [String.toList_append, List.forall_mem_append]
      exact ⟨usual.text (by decide), here field.name (List.mem_singleton_self _)⟩
  | case3 other noRow noPath =>
      rw [path.eq_3 other noRow noPath]
      exact yields_throw

theorem yields_origin {s : Source} (entity : ∀ name ∈ s.entity?, ∀ c ∈ name.toList, ok c)
    (named : ∀ e ∈ s.path?, e.Named ok) : Yields (origin s) (Frames ok []) := by
  cases s with
  | entity id name => exact yields_pure (.text (entity name rfl) .nil)
  | navigation id path rowType => exact yields_path usual (named path rfl)

theorem frames_lead (isFirst : Bool) (s : Source) {name short rest : Phrase}
    (hname : Frames ok [] name) (hshort : Frames ok [] short) (hrest : Frames ok [] rest) :
    Frames ok [] ((if isFirst then nothing else ofText (separator s)) ++ name ++ ofText " " ++
      short ++ rest) := by
  have lead : Frames ok [] (if isFirst then nothing else ofText (separator s)) := by
    split
    · exact .nil
    · cases s <;> exact frames_ofText usual (by rw [separator]; decide)
  have blank := frames_ofText usual (s := " ") (by decide)
  exact (((lead.before hname).before blank).before hshort).before hrest

theorem yields_sources {ss : List Source}
    (entities : ∀ s ∈ ss, ∀ name ∈ s.entity?, ∀ c ∈ name.toList, ok c)
    (paths : ∀ s ∈ ss, ∀ e ∈ s.path?, e.Named ok) (isFirst : Bool) :
    Yields (sources isFirst ss) (Frames ok []) := by
  induction ss generalizing isFirst with
  | nil => exact yields_pure .nil
  | cons s ss ih =>
      obtain ⟨entity, entities⟩ := List.forall_mem_cons.mp entities
      obtain ⟨named, paths⟩ := List.forall_mem_cons.mp paths
      rw [sources]
      refine (yields_aliasOf usual _).bind fun short hshort => ?_
      refine (yields_origin usual entity named).bind fun name hname => ?_
      refine (ih entities paths false).bind fun rest hrest => yields_pure ?_
      exact frames_lead usual isFirst s hname hshort hrest

end Names

/-! ## Expressions -/

variable {ok : Char → Prop} {l : Likeness} {around : List Select} {scope : Select}

/-- The columns of an expression hold the contents of its place, and its one phrase does. -/
structure FramesColumns (ok : Char → Prop) (l : Likeness) (e : Expr) : Prop where
  columns : ∀ ⦃around : List Select⦄ ⦃scope : Select⦄, around.head? = some scope →
    Yields (columns l scope e) (FramesAll ok (Place.contents l ⟨around, false, e⟩))
  whole : ∀ ⦃around : List Select⦄ ⦃scope : Select⦄, around.head? = some scope →
    Yields (whole e (Rendering.columns l scope e)) (Frames ok (Place.contents l ⟨around, true, e⟩))

/-- An expression other than a tuple has one column, which is all of it. -/
theorem FramesColumns.of_single {e : Expr} (single : ∀ items t, e ≠ .tuple items t)
    (h : ∀ ⦃around : List Select⦄ ⦃scope : Select⦄, around.head? = some scope →
      Yields (Rendering.columns l scope e) fun phrases =>
        ∃ phrase, phrases = [phrase] ∧ Frames ok (Place.contents l ⟨around, true, e⟩) phrase) :
    FramesColumns ok l e where
  columns around scope head := by
    have same : Place.contents l ⟨around, false, e⟩ = Place.contents l ⟨around, true, e⟩ := by
      cases e with
      | tuple items t => exact absurd rfl (single items t)
      | constant => rw [Place.contents_constant, Place.contents_constant]
      | param => rw [Place.contents_param, Place.contents_param]
      | _ =>
          rw [Place.contents_eq_leads (by simp) (by simp),
            Place.contents_eq_leads (by simp) (by simp)]
          rfl
    rw [same]
    intro aliases phrases aliases' ran
    obtain ⟨phrase, rfl, frames⟩ := h head ran
    exact frames.single
  whole around scope head := by
    have all : Yields (do pure (joined "" (← Rendering.columns l scope e)))
        (Frames ok (Place.contents l ⟨around, true, e⟩)) := by
      refine (h head).bind ?_
      rintro _ ⟨phrase, rfl, frames⟩
      exact yields_pure frames
    cases e with
    | tuple items t => exact absurd rfl (single items t)
    | _ => exact all

theorem yields_list {es : List Expr} (h : ∀ e ∈ es, FramesColumns ok l e)
    (head : around.head? = some scope) : Yields (list l scope es)
      (FramesAll ok ((es.map (⟨around, true, ·⟩)).flatMap (Place.contents l))) := by
  induction es with
  | nil => exact yields_pure .nil
  | cons e es ih =>
      obtain ⟨he, hes⟩ := List.forall_mem_cons.mp h
      rw [list]
      exact (he.whole head).bind fun first hfirst => (ih hes).bind fun rest hrest =>
        yields_pure (.cons hfirst hrest)

theorem yields_columnsOf {es : List Expr} (h : ∀ e ∈ es, FramesColumns ok l e)
    (head : around.head? = some scope) : Yields (columnsOf l scope es)
      (FramesAll ok ((es.map (⟨around, false, ·⟩)).flatMap (Place.contents l))) := by
  induction es with
  | nil => exact yields_pure .nil
  | cons e es ih =>
      obtain ⟨he, hes⟩ := List.forall_mem_cons.mp h
      rw [columnsOf]
      exact (he.columns head).bind fun first hfirst => (ih hes).bind fun rest hrest =>
        yields_pure (hfirst.append hrest)

section Clauses

variable (usual : Usual ok)

include usual

theorem yields_sortKeys {keys : List SortKey}
    (h : ∀ e ∈ keys.map SortKey.key, FramesColumns ok l e) (head : around.head? = some scope) :
    Yields (sortKeys l scope keys) (FramesAll ok
      (((keys.map SortKey.key).map (⟨around, true, ·⟩)).flatMap (Place.contents l))) := by
  induction keys with
  | nil => exact yields_pure .nil
  | cons k keys ih =>
      obtain ⟨key, direction⟩ := k
      obtain ⟨he, hes⟩ := List.forall_mem_cons.mp h
      rw [sortKeys]
      refine (he.whole head).bind fun first hfirst => (ih hes).bind fun rest hrest =>
        yields_pure (.cons ?_ hrest)
      cases direction <;> exact frames_closed usual (by decide) (by decide) hfirst

theorem yields_argument {arg : Option Expr} (h : ∀ e ∈ arg, FramesColumns ok l e)
    (head : around.head? = some scope) (s : Select) : Yields (argument l scope arg s)
      (Frames ok ((arg.toList.map (⟨around, true, ·⟩)).flatMap (Place.contents l))) := by
  cases arg with
  | none =>
      rw [argument]
      exact yields_rootAlias usual s _
  | some e =>
      rw [argument]
      simpa using (h e rfl).whole head

/-- A query holds the contents of its columns, then those of its clauses. -/
theorem yields_select {q : Query} {column? : Option (DraftM Phrase)} {heads keys : List Place}
    (named : q.current.Named ok) (clauses : ∀ c ∈ q.current.clauses, FramesColumns ok l c)
    (hitems : Yields (items l q.current column?) (FramesAll ok (heads.flatMap (Place.contents l))))
    (hkeys : Yields (order l q.current column?) (FramesAll ok (keys.flatMap (Place.contents l))))
    (around : List Select) : Yields (select l q column?) (Frames ok
      ((heads ++ (q.current.filters ++ q.current.groupBy ++ q.current.having).map
        (Place.mk (q.current :: around) true) ++ keys).flatMap (Place.contents l))) := by
  have part {es : List Expr} (inside : ∀ e ∈ es, e ∈ q.current.clauses) :
      Yields (list l q.current es) (FramesAll ok
        ((es.map (Place.mk (q.current :: around) true)).flatMap (Place.contents l))) :=
    yields_list (fun e he => clauses e (inside e he)) rfl
  have entities : ∀ s ∈ q.current.sources, ∀ name ∈ s.entity?, ∀ c ∈ name.toList, ok c :=
    fun s hs name hn => named.entities name (List.mem_filterMap.mpr ⟨s, hs, hn⟩)
  have paths : ∀ s ∈ q.current.sources, ∀ e ∈ s.path?, e.Named ok := by
    intro s hs e he
    have mem : e ∈ q.current.sources.filterMap Source.path? := List.mem_filterMap.mpr ⟨s, hs, he⟩
    exact named.clauses e (by simp [Select.clauses, mem])
  rw [select_eq]
  refine yields_any.bind fun _ _ => hitems.bind fun items hitems => ?_
  refine (yields_sources usual entities paths true).bind fun froms hfroms => ?_
  refine (part fun e he => by simp [Select.clauses, he]).bind fun filters hfilters => ?_
  refine (part fun e he => by simp [Select.clauses, he]).bind fun groups hgroups => ?_
  refine (part fun e he => by simp [Select.clauses, he]).bind fun having hhaving => ?_
  refine hkeys.bind fun keys hkeys => yields_pure ?_
  simpa using frames_selection usual q.current.distinct hitems hfroms hfilters hgroups hhaving hkeys

/-- A query that is entered holds the contents of the place where it stands. -/
theorem yields_query {q : Query} {t : ValueType} (named : q.current.Named ok)
    (clauses : ∀ c ∈ q.current.clauses, FramesColumns ok l c) (single : Bool) :
    Yields (select l q none) (Frames ok (Place.contents l ⟨around, single, .subQuery q t⟩)) := by
  have head : (q.current :: around).head? = some q.current := rfl
  have columns : Yields (items l q.current none) (FramesAll ok
      ((q.current.projection.toList.map (Place.mk (q.current :: around) false)).flatMap
        (Place.contents l))) := by
    unfold items
    cases projection : q.current.projection with
    | none =>
        exact (yields_rootAlias usual _ _).bind fun root hroot => yields_pure hroot.single
    | some e =>
        have inside : e ∈ q.current.clauses := by simp [Select.clauses, projection]
        simpa using (clauses e inside).columns head
  have keys := yields_sortKeys usual (fun e he => clauses e (by
    simp only [Select.clauses, List.mem_append]
    exact .inr he)) head
  rw [Place.contents_eq_leads (by simp) (by simp)]
  simpa [Place.leads] using yields_select usual named clauses columns keys around

theorem framesColumns_aggregate {fn : AggregateFn} {arg : Option Expr} {q : Query} {t : ValueType}
    (named : q.current.Named ok) (args : ∀ e ∈ arg, FramesColumns ok l e)
    (clauses : ∀ c ∈ q.current.clauses, FramesColumns ok l c) :
    FramesColumns ok l (.aggregate fn arg q t) := by
  refine .of_single (by simp) fun around scope head => ?_
  have rowsHere : Place.inScope l ⟨around, true, .aggregate fn arg q t⟩ q =
      scope.sameScope l q.current := by
    simp [Place.inScope, head]
  rw [columns, Place.contents_eq_leads (by simp) (by simp)]
  split
  · next same =>
      refine (yields_argument usual args head _).bind fun inner hinner => yields_pure ⟨_, rfl, ?_⟩
      simpa [Place.leads, rowsHere, same] using frames_aggregate usual fn hinner
  · next other =>
      split
      · let called : DraftM Phrase := do
          let inner ← argument l q.current arg q.current
          pure (call fn.name [inner])
        have column : Yields (items l q.current (some called)) (FramesAll ok
            ((arg.toList.map (Place.mk (q.current :: around) true)).flatMap (Place.contents l))) :=
          ((yields_argument usual args rfl _).bind fun inner hinner =>
            yields_pure (frames_aggregate usual fn hinner)).bind fun column hcolumn =>
              yields_pure hcolumn.single
        have keys : Yields (order l q.current (some called))
            (FramesAll ok (([] : List Place).flatMap (Place.contents l))) :=
          yields_pure .nil
        refine (yields_select usual named clauses column keys around).bind fun inner hinner =>
          yields_pure ⟨_, rfl, frames_parenthesized usual ?_⟩
        simpa [Place.leads, rowsHere, other] using hinner
      · exact yields_throw

/-- The columns of every expression hold the contents of its place. The induction is over
all parts of an expression, the clauses of its queries included. -/
theorem framesColumns {e : Expr} (named : e.Named ok) : FramesColumns ok l e := by
  induction e using Expr.partsInduction true with
  | node e ih =>
      obtain ⟨here, below⟩ := Expr.everywhere_iff.mp named
      have children : ∀ c ∈ e.children, FramesColumns ok l c := fun c hc =>
        have part := Expr.mem_parts_true.mpr (.inl hc)
        ih c part (below c part)
      have clauses : ∀ q ∈ e.query?, ∀ c ∈ q.current.clauses, FramesColumns ok l c :=
        fun q hq c hc =>
          have part := Expr.mem_parts_true.mpr (.inr ⟨q, hq, hc⟩)
          ih c part (below c part)
      cases e with
      | constant value t =>
          refine .of_single (by simp) fun around scope head => ?_
          rw [columns, Place.contents_constant]
          exact yields_pure ⟨_, rfl, .content rfl trivial .nil⟩
      | param capture t =>
          refine .of_single (by simp) fun around scope head => ?_
          rw [columns, Place.contents_param]
          exact yields_pure ⟨_, rfl, .content rfl trivial .nil⟩
      | row id t =>
          refine .of_single (by simp) fun around scope head => ?_
          rw [columns, Place.contents_eq_leads (by simp) (by simp)]
          exact (yields_aliasOf usual id).bind fun name hname => yields_pure ⟨_, rfl, hname⟩
      | element s t =>
          refine .of_single (by simp) fun around scope head => ?_
          rw [columns]
          exact yields_throw
      | path base field t =>
          refine .of_single (by simp) fun around scope head => ?_
          rw [columns, Place.contents_eq_leads (by simp) (by simp)]
          exact (yields_path usual named).bind fun inner hinner => yields_pure
            ⟨_, rfl, frames_parenthesized usual hinner⟩
      | component base index t =>
          refine .of_single (by simp) fun around scope head => ?_
          rw [columns]
          exact yields_throw
      | unary op operand t =>
          simp only [Expr.children, List.forall_mem_cons] at children
          refine .of_single (by simp) fun around scope head => ?_
          rw [columns, Place.contents_eq_leads (by simp) (by simp)]
          refine (children.1.whole head).bind fun operand hoperand => yields_pure ⟨_, rfl, ?_⟩
          simpa [Place.leads, Expr.children] using frames_unary usual op hoperand
      | binary op left right t =>
          simp only [Expr.children, List.forall_mem_cons] at children
          refine .of_single (by simp) fun around scope head => ?_
          rw [columns, Place.contents_eq_leads (by simp) (by simp)]
          refine (children.1.whole head).bind fun left hleft => ?_
          refine (children.2.1.whole head).bind fun right hright => yields_pure ⟨_, rfl, ?_⟩
          simpa [Place.leads, Expr.children] using frames_binary usual op hleft hright
      | conditional test yes no t =>
          simp only [Expr.children, List.forall_mem_cons] at children
          refine .of_single (by simp) fun around scope head => ?_
          rw [columns, Place.contents_eq_leads (by simp) (by simp)]
          refine (children.1.whole head).bind fun test htest => ?_
          refine (children.2.1.whole head).bind fun yes hyes => ?_
          refine (children.2.2.1.whole head).bind fun no hno => yields_pure ⟨_, rfl, ?_⟩
          simpa [Place.leads, Expr.children] using frames_choice usual htest hyes hno
      | tuple items t =>
          refine ⟨fun around scope head => ?_, fun around scope head => yields_throw⟩
          rw [columns, Place.contents_eq_leads (by simp) (by simp)]
          exact yields_columnsOf children head
      | call fn args t =>
          refine .of_single (by simp) fun around scope head => ?_
          rw [columns, Place.contents_eq_leads (by simp) (by simp)]
          refine (yields_list children head).bind fun args hargs => yields_pure ⟨_, rfl, ?_⟩
          cases fn <;> exact frames_call usual (by decide) hargs
      | aggregate fn arg q t =>
          exact framesColumns_aggregate usual (named.query q rfl)
            (fun e he => children e (by simpa [Expr.children] using he)) (clauses q rfl)
      | subQuery q t =>
          refine .of_single (by simp) fun around scope head => ?_
          rw [columns]
          exact (yields_query usual (named.query q rfl) (clauses q rfl) true).bind
            fun inner hinner => yields_pure
              ⟨_, rfl, frames_parenthesized usual hinner⟩

/-- The phrase of a query holds the contents of the place where the query stands. -/
theorem frames_query {q : Query} {single : Bool} {t : ValueType} (named : q.current.Named ok) :
    Yields (select l q none) (Frames ok (Place.contents l ⟨around, single, .subQuery q t⟩)) :=
  yields_query usual named (fun c hc => framesColumns usual (named.clauses c hc)) single

end Clauses

end Rendering

end StreamQuery
