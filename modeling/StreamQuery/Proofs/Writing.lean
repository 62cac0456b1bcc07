import StreamQuery.Proofs.Clauses
import StreamQuery.Rendering.Basic

/-! # Ways of writing, side by side

A query is written in one way through its clauses, whatever the texts are and whoever keeps the
names. Two ways of writing go side by side if their single steps do and their texts are put
together side by side. Then every expression and every selection is written side by side. The
variables that are met on the way are listed in their order, so a relation of texts can say that
they stand in that order.
-/

namespace StreamQuery.Rendering

open Wording Scribe

abbrev rowsAlike : Likeness := .kept fun _ => true

/-! ## Selections, clause by clause -/

section Clauses

variable {M : Type → Type} {T : Type} [Monad M] [MonadExcept RenderError M] [Append T] [Wording T]
  [Scribe M T]

/-- The columns of a selection: the one given, its projection, or its root. -/
def items (l : Likeness) (s : Select) : Option (M T) → M (List T)
  | some column => do pure [← column]
  | none =>
    match s.projection with
    | some e => columns l s e
    | none => do pure [← rootAlias s .noSource]

def order (l : Likeness) (s : Select) : Option (M T) → M (List T)
  | some _ => pure []
  | none => sortKeys l s s.orderBy

theorem select_eq (l : Likeness) (q : Query) (column? : Option (M T)) : select l q column? = (do
    enter q.current.sources
    let items ← items l q.current column?
    let froms ← sources true q.current.sources
    let filters ← list l q.current q.current.filters
    let groups ← list l q.current q.current.groupBy
    let having ← list l q.current q.current.having
    let keys ← order l q.current column?
    pure (selection q.current.distinct items froms filters groups having keys)) := by
  obtain ⟨⟨froms, filters, projection, groupBy, having, orderBy, shape, distinct, skip, limit,
    nextSource, mark⟩, past⟩ := q
  cases column? with
  | some column => rw [select]; rfl
  | none => cases projection <;> rw [select] <;> rfl

end Clauses

/-- Relations between two ways of writing that every step keeps. -/
structure Parallel (M M' : Type → Type) (T T' World : Type) [Monad M] [MonadExcept RenderError M]
    [Append T] [Wording T] [Scribe M T] [Monad M'] [MonadExcept RenderError M'] [Append T']
    [Wording T'] [Scribe M' T'] where
  /-- Steps side by side: what holds of their results, in the world that they leave and with the
  variables that they met. -/
  Steps : {α β : Type} → (World → List Capture → α → β → Prop) → M α → M' β → Prop
  /-- Texts side by side, with the variables that stand in them. -/
  Texts : World → List Capture → T → T' → Prop
  steps_mono {α β : Type} {R S : World → List Capture → α → β → Prop} {x : M α} {y : M' β}
    (h : Steps R x y) (imp : ∀ w met a b, R w met a b → S w met a b) : Steps S x y
  steps_pure {α β : Type} {R : World → List Capture → α → β → Prop} {a : α} {b : β}
    (h : ∀ w, R w [] a b) : Steps R (pure a) (pure b)
  steps_bind {α β γ δ : Type} {R : World → List Capture → α → β → Prop}
    {S : World → List Capture → γ → δ → Prop} {x : M α} {y : M' β} {f : α → M γ} {g : β → M' δ}
    (first : Steps R x y)
    (rest : ∀ a b met, Steps (fun w more c d => R w met a b → S w (met ++ more) c d) (f a) (g b)) :
    Steps S (x >>= f) (y >>= g)
  steps_throw {α β : Type} {R : World → List Capture → α → β → Prop} (error : RenderError) :
    Steps R (throw error) (throw error)
  steps_enter (sources : List Source) : Steps (fun _ met _ _ => met = []) (enter sources : M Unit)
    (enter sources : M' Unit)
  steps_aliasOf (id : SourceId) : Steps (fun w met t t' => met = [] ∧ Texts w [] t t')
    (aliasOf id : M T) (aliasOf id : M' T')
  steps_placeholder (capture : Capture) : Steps Texts (placeholder capture : M T)
    (placeholder capture : M' T')
  texts_nothing (w : World) : Texts w [] nothing nothing
  texts_ofText (w : World) (s : String) : Texts w [] (ofText s) (ofText s)
  texts_ofValue (w : World) (v : Value) : Texts w [] (ofValue v) (ofValue v)
  texts_append {w : World} {met met' : List Capture} {t u : T} {t' u' : T'}
    (h : Texts w met t t') (h' : Texts w met' u u') : Texts w (met ++ met') (t ++ u) (t' ++ u')

namespace Parallel

variable {M M' : Type → Type} {T T' World : Type} [Monad M] [MonadExcept RenderError M] [Append T]
  [Wording T] [Scribe M T] [Monad M'] [MonadExcept RenderError M'] [Append T'] [Wording T']
  [Scribe M' T'] (P : Parallel M M' T T' World)

/-- Lists of texts side by side, with the variables of all in their order. -/
inductive Lists (w : World) : List Capture → List T → List T' → Prop where
  | nil : Lists w [] [] []
  | cons {met met' : List Capture} {t : T} {t' : T'} {ts : List T} {ts' : List T'}
      (h : P.Texts w met t t') (rest : Lists w met' ts ts') :
      Lists w (met ++ met') (t :: ts) (t' :: ts')

/-! ## Texts -/

section Texts

variable {P} {w : World} {met met' met'' : List Capture} {t u v : T} {t' u' v' : T'}
  {ts us : List T} {ts' us' : List T'}

theorem Lists.single (h : P.Texts w met t t') : P.Lists w met [t] [t'] := by
  simpa using Lists.cons h .nil

theorem Lists.append (h : P.Lists w met ts ts') (h' : P.Lists w met' us us') :
    P.Lists w (met ++ met') (ts ++ us) (ts' ++ us') := by
  induction h with
  | nil => exact h'
  | cons first _ ih =>
      rw [List.append_assoc]
      exact .cons first ih

theorem Lists.joined (separator : String) (h : P.Lists w met ts ts') :
    P.Texts w met (joined separator ts) (joined separator ts') := by
  induction h with
  | nil => exact P.texts_nothing w
  | cons first rest ih =>
      cases rest with
      | nil => simpa [Rendering.joined] using first
      | cons second rest =>
          have tail := P.texts_append (P.texts_ofText w separator) ih
          exact P.texts_append first tail

theorem texts_enclosed (opening closing : String) (h : P.Texts w met t t') :
    P.Texts w met (ofText opening ++ t ++ ofText closing)
      (ofText opening ++ t' ++ ofText closing) := by
  simpa using P.texts_append (P.texts_append (P.texts_ofText w opening) h)
    (P.texts_ofText w closing)

theorem texts_parenthesized (h : P.Texts w met t t') :
    P.Texts w met (parenthesized t) (parenthesized t') :=
  texts_enclosed _ _ h

theorem Lists.call (name : String) (h : P.Lists w met ts ts') :
    P.Texts w met (call name ts) (call name ts') :=
  texts_enclosed _ _ (h.joined ", ")

theorem texts_unary (op : UnaryOp) (h : P.Texts w met t t') :
    P.Texts w met (unary op t) (unary op t') := by
  cases op <;> exact texts_enclosed _ _ h

theorem texts_binary (op : BinaryOp) (h : P.Texts w met t t') (h' : P.Texts w met' u u') :
    P.Texts w (met ++ met') (binary op t u) (binary op t' u') := by
  have between (symbol : String) : P.Texts w (met ++ met')
      (ofText "(" ++ t ++ ofText (" " ++ symbol ++ " ") ++ u ++ ofText ")")
      (ofText "(" ++ t' ++ ofText (" " ++ symbol ++ " ") ++ u' ++ ofText ")") := by
    have left := P.texts_append (P.texts_ofText w "(") h
    have both := P.texts_append (P.texts_append left (P.texts_ofText w (" " ++ symbol ++ " "))) h'
    simpa using P.texts_append both (P.texts_ofText w ")")
  have function (name : String) :
      P.Texts w (met ++ met') (call name [t, u]) (call name [t', u']) :=
    (Lists.append (.single h) (.single h')).call name
  cases op with
  | arith op =>
      cases op with
      | rem => exact function "MOD"
      | _ => exact between _
  | concat => exact function "CONCAT"
  | _ => exact between _

theorem texts_choice (h : P.Texts w met t t') (h' : P.Texts w met' u u')
    (h'' : P.Texts w met'' v v') :
    P.Texts w (met ++ (met' ++ met'')) (choice t u v) (choice t' u' v') := by
  have test := P.texts_append (P.texts_ofText w "(CASE WHEN ") h
  have yes := P.texts_append (P.texts_append test (P.texts_ofText w " THEN ")) h'
  have no := P.texts_append (P.texts_append yes (P.texts_ofText w " ELSE ")) h''
  simpa [choice] using P.texts_append no (P.texts_ofText w " END)")

theorem Lists.conjoined (first : P.Texts w met t t') (h : P.Lists w met' ts ts') :
    P.Texts w (met ++ met') (ts.foldl (binary .and) t) (ts'.foldl (binary .and) t') := by
  induction h generalizing met t t' with
  | nil => simpa using first
  | cons second _ ih =>
      rw [← List.append_assoc]
      exact ih (texts_binary .and first second)

theorem Lists.conjunction (h : P.Lists w met ts ts') :
    P.Texts w met (conjunction ts) (conjunction ts') := by
  cases h with
  | nil => exact P.texts_ofText w "TRUE"
  | cons first rest => exact rest.conjoined first

theorem Lists.clause (h : P.Lists w met ts ts') (keyword : String) {layout : List T → T}
    {layout' : List T' → T'} (laid : P.Texts w met (layout ts) (layout' ts')) :
    P.Texts w met (clause keyword ts layout) (clause keyword ts' layout') := by
  cases h with
  | nil => exact P.texts_nothing w
  | cons =>
      have worded := P.texts_append (P.texts_ofText w keyword) laid
      exact worded

theorem texts_selection (distinct : Bool) {items filters groups having keys : List T}
    {items' filters' groups' having' keys' : List T'}
    {metItems metFilters metGroups metHaving metKeys : List Capture}
    (hitems : P.Lists w metItems items items') (froms : P.Texts w [] t t')
    (hfilters : P.Lists w metFilters filters filters')
    (hgroups : P.Lists w metGroups groups groups')
    (hhaving : P.Lists w metHaving having having') (hkeys : P.Lists w metKeys keys keys') :
    P.Texts w (metItems ++ (metFilters ++ (metGroups ++ (metHaving ++ metKeys))))
      (selection distinct items t filters groups having keys)
      (selection distinct items' t' filters' groups' having' keys') := by
  have opened := P.texts_append
    (P.texts_ofText w (if distinct then "SELECT DISTINCT " else "SELECT ")) (hitems.joined ", ")
  have sourced := P.texts_append (P.texts_append opened (P.texts_ofText w " FROM ")) froms
  have filtered := P.texts_append sourced (hfilters.clause " WHERE " hfilters.conjunction)
  have grouped := P.texts_append filtered (hgroups.clause " GROUP BY " (hgroups.joined ", "))
  have narrowed := P.texts_append grouped (hhaving.clause " HAVING " hhaving.conjunction)
  simpa [selection] using P.texts_append narrowed (hkeys.clause " ORDER BY " (hkeys.joined ", "))

end Texts

/-! ## Steps that meet no variable -/

/-- Texts without variables, after steps that met none. -/
def Plain (w : World) (met : List Capture) (t : T) (t' : T') : Prop := met = [] ∧ P.Texts w [] t t'

theorem steps_path (e : Expr) : P.Steps P.Plain (path e) (path e) := by
  induction e using Expr.partsInduction true with
  | node e ih =>
      cases e with
      | row id t =>
          rw [path, path]
          exact P.steps_aliasOf id
      | path base field t =>
          rw [path, path]
          refine P.steps_bind (ih base (by simp [Expr.parts, Expr.children])) fun b b' met => ?_
          refine P.steps_pure fun w => ?_
          rintro ⟨rfl, texts⟩
          exact ⟨rfl, by simpa using P.texts_append texts (P.texts_ofText w _)⟩
      | _ =>
          rw [path, path]
          · exact P.steps_throw _
          all_goals simp

theorem steps_rootAlias (s : Select) (error : RenderError) :
    P.Steps P.Plain (rootAlias s error) (rootAlias s error) := by
  unfold rootAlias
  split
  · exact P.steps_aliasOf _
  · exact P.steps_throw error

theorem texts_lead {P : Parallel M M' T T' World} {w : World} (isFirst : Bool) (separator : String)
    {name short rest : T} {name' short' rest' : T'} (hname : P.Texts w [] name name')
    (hshort : P.Texts w [] short short') (hrest : P.Texts w [] rest rest') :
    P.Texts w [] ((if isFirst then nothing else ofText separator) ++ name ++ ofText " " ++ short ++
      rest) ((if isFirst then nothing else ofText separator) ++ name' ++ ofText " " ++ short' ++
      rest') := by
  have lead : P.Texts w [] (if isFirst then nothing else ofText separator)
      (if isFirst then nothing else ofText separator) := by
    split
    · exact P.texts_nothing w
    · exact P.texts_ofText w separator
  have named := P.texts_append (P.texts_append lead hname) (P.texts_ofText w " ")
  exact P.texts_append (P.texts_append named hshort) hrest

theorem steps_origin (s : Source) : P.Steps P.Plain (origin s) (origin s) := by
  cases s with
  | entity id name => exact P.steps_pure fun w => ⟨rfl, P.texts_ofText w name⟩
  | navigation id path t => exact P.steps_path path

theorem steps_sources (isFirst : Bool) (ss : List Source) :
    P.Steps P.Plain (sources isFirst ss) (sources isFirst ss) := by
  induction ss generalizing isFirst with
  | nil => exact P.steps_pure fun w => ⟨rfl, P.texts_nothing w⟩
  | cons s ss ih =>
      rw [sources, sources]
      refine P.steps_bind (P.steps_aliasOf s.id) fun short short' met => ?_
      refine P.steps_bind (P.steps_origin s) fun name name' met' => ?_
      refine P.steps_bind (ih false) fun rest rest' met'' => P.steps_pure fun w => ?_
      rintro ⟨rfl, rest⟩ ⟨rfl, name⟩ ⟨rfl, short⟩
      exact ⟨rfl, texts_lead isFirst _ name short rest⟩

/-! ## Expressions -/

def Columns (l : Likeness) (e : Expr) : Prop :=
  ∀ scope, P.Steps P.Lists (columns l scope e) (columns l scope e)

section Expressions

variable {P} {l : Likeness} {scope : Select}

theorem Columns.whole {e : Expr} (h : P.Columns l e) (scope : Select) :
    P.Steps P.Texts (whole e (columns l scope e)) (whole e (columns l scope e)) := by
  have single : P.Steps P.Texts (do pure (joined "" (← columns l scope e)))
      (do pure (joined "" (← columns l scope e))) := by
    refine P.steps_bind (h scope) fun texts texts' met => P.steps_pure fun w lists => ?_
    simpa using lists.joined ""
  cases e with
  | tuple items t => exact P.steps_throw _
  | _ => exact single

theorem steps_list {es : List Expr} (h : ∀ e ∈ es, P.Columns l e) :
    P.Steps P.Lists (list l scope es) (list l scope es) := by
  induction es with
  | nil =>
      rw [list, list]
      exact P.steps_pure fun w => .nil
  | cons e es ih =>
      obtain ⟨he, hes⟩ := List.forall_mem_cons.mp h
      rw [list, list]
      refine P.steps_bind (he.whole scope) fun first first' met => ?_
      refine P.steps_bind (ih hes) fun rest rest' met' => P.steps_pure fun w rest first => ?_
      simpa using Lists.cons first rest

theorem steps_columnsOf {es : List Expr} (h : ∀ e ∈ es, P.Columns l e) :
    P.Steps P.Lists (columnsOf l scope es) (columnsOf l scope es) := by
  induction es with
  | nil =>
      rw [columnsOf, columnsOf]
      exact P.steps_pure fun w => .nil
  | cons e es ih =>
      obtain ⟨he, hes⟩ := List.forall_mem_cons.mp h
      rw [columnsOf, columnsOf]
      refine P.steps_bind (he scope) fun first first' met => ?_
      refine P.steps_bind (ih hes) fun rest rest' met' => P.steps_pure fun w rest first => ?_
      simpa using first.append rest

theorem steps_sortKeys {keys : List SortKey} (h : ∀ e ∈ keys.map SortKey.key, P.Columns l e) :
    P.Steps P.Lists (sortKeys l scope keys) (sortKeys l scope keys) := by
  induction keys with
  | nil =>
      rw [sortKeys, sortKeys]
      exact P.steps_pure fun w => .nil
  | cons key keys ih =>
      obtain ⟨key, direction⟩ := key
      obtain ⟨he, hes⟩ := List.forall_mem_cons.mp h
      rw [sortKeys, sortKeys]
      refine P.steps_bind (he.whole scope) fun first first' met => ?_
      refine P.steps_bind (ih hes) fun rest rest' met' => P.steps_pure fun w rest first => ?_
      simpa using Lists.cons (P.texts_append first (P.texts_ofText w _)) rest

theorem steps_argument {arg : Option Expr} (h : ∀ e ∈ arg, P.Columns l e) (s : Select) :
    P.Steps P.Texts (argument l scope arg s) (argument l scope arg s) := by
  cases arg with
  | none =>
      rw [argument, argument]
      refine P.steps_mono (P.steps_rootAlias s _) fun w met t t' plain => ?_
      obtain ⟨rfl, texts⟩ := plain
      exact texts
  | some e =>
      rw [argument, argument]
      exact (h e rfl).whole scope

/-- A column that is given is written side by side. -/
theorem steps_items {q : Query} (h : ∀ c ∈ q.current.clauses, P.Columns l c)
    {column? : Option (M T)} {column'? : Option (M' T')}
    (columns : Option.Rel (P.Steps P.Texts) column? column'?) :
    P.Steps P.Lists (items l q.current column?) (items l q.current column'?) := by
  cases columns with
  | some given =>
      refine P.steps_bind given fun t t' met => P.steps_pure fun w texts => ?_
      simpa using Lists.single texts
  | none =>
      unfold items
      cases projection : q.current.projection with
      | some e => exact h e (by simp [Select.clauses, projection]) q.current
      | none =>
          refine P.steps_bind (P.steps_rootAlias q.current _) fun t t' met => ?_
          refine P.steps_pure fun w plain => ?_
          obtain ⟨rfl, texts⟩ := plain
          exact .single texts

theorem steps_order {q : Query} (h : ∀ c ∈ q.current.clauses, P.Columns l c)
    {column? : Option (M T)} {column'? : Option (M' T')}
    (columns : Option.Rel (P.Steps P.Texts) column? column'?) :
    P.Steps P.Lists (order l q.current column?) (order l q.current column'?) := by
  cases columns with
  | some => exact P.steps_pure fun w => .nil
  | none =>
      refine steps_sortKeys fun e he => h e ?_
      simp only [Select.clauses, List.mem_append]
      exact .inr he

theorem steps_select {q : Query} (h : ∀ c ∈ q.current.clauses, P.Columns l c)
    {column? : Option (M T)} {column'? : Option (M' T')}
    (columns : Option.Rel (P.Steps P.Texts) column? column'?) :
    P.Steps P.Texts (select l q column?) (select l q column'?) := by
  have part {es : List Expr} (inside : ∀ e ∈ es, e ∈ q.current.clauses) :
      P.Steps P.Lists (list l q.current es) (list l q.current es) :=
    steps_list fun e he => h e (inside e he)
  have filters : ∀ e ∈ q.current.filters, e ∈ q.current.clauses := fun e he => by
    simp [Select.clauses, he]
  have groups : ∀ e ∈ q.current.groupBy, e ∈ q.current.clauses := fun e he => by
    simp [Select.clauses, he]
  have having : ∀ e ∈ q.current.having, e ∈ q.current.clauses := fun e he => by
    simp [Select.clauses, he]
  rw [select_eq, select_eq]
  refine P.steps_bind (P.steps_enter q.current.sources) fun _ _ met => ?_
  refine P.steps_bind (steps_items h columns) fun items items' metItems => ?_
  refine P.steps_bind (P.steps_sources true q.current.sources) fun froms froms' met' => ?_
  refine P.steps_bind (part filters) fun filters filters' metFilters => ?_
  refine P.steps_bind (part groups) fun groups groups' metGroups => ?_
  refine P.steps_bind (part having) fun having having' metHaving => ?_
  refine P.steps_bind (steps_order h columns) fun keys keys' metKeys => P.steps_pure fun w => ?_
  rintro keys having groups filters ⟨rfl, froms⟩ items rfl
  simpa using texts_selection q.current.distinct items froms filters groups having keys

/-- Every expression is written side by side. The induction is over all parts of an expression,
the clauses of its queries included. -/
theorem steps_columns (e : Expr) : P.Columns l e := by
  induction e using Expr.partsInduction true with
  | node e ih =>
      intro scope
      have children : ∀ c ∈ e.children, P.Columns l c := fun c hc =>
        ih c (Expr.mem_parts_true.mpr (.inl hc))
      have clauses : ∀ q ∈ e.query?, ∀ c ∈ q.current.clauses, P.Columns l c := fun q hq c hc =>
        ih c (Expr.mem_parts_true.mpr (.inr ⟨q, hq, hc⟩))
      cases e with
      | constant value t =>
          rw [columns, columns]
          exact P.steps_pure fun w => .single (P.texts_ofValue w value)
      | param capture t =>
          rw [columns, columns]
          refine P.steps_bind (P.steps_placeholder capture) fun t t' met => ?_
          exact P.steps_pure fun w texts => by simpa using Lists.single texts
      | row id t =>
          rw [columns, columns]
          refine P.steps_bind (P.steps_aliasOf id) fun t t' met => P.steps_pure fun w plain => ?_
          obtain ⟨rfl, texts⟩ := plain
          exact .single texts
      | element | component =>
          rw [columns, columns]
          exact P.steps_throw _
      | path base field t =>
          rw [columns, columns]
          refine P.steps_bind (P.steps_path _) fun t t' met => P.steps_pure fun w plain => ?_
          obtain ⟨rfl, texts⟩ := plain
          exact .single (texts_parenthesized texts)
      | unary op operand t =>
          simp only [Expr.children, List.forall_mem_cons] at children
          rw [columns, columns]
          refine P.steps_bind (children.1.whole scope) fun t t' met => P.steps_pure fun w texts => ?_
          simpa using Lists.single (texts_unary op texts)
      | binary op left right t =>
          simp only [Expr.children, List.forall_mem_cons] at children
          rw [columns, columns]
          refine P.steps_bind (children.1.whole scope) fun left left' met => ?_
          refine P.steps_bind (children.2.1.whole scope) fun right right' met' => ?_
          refine P.steps_pure fun w right left => ?_
          simpa using Lists.single (texts_binary op left right)
      | conditional test yes no t =>
          simp only [Expr.children, List.forall_mem_cons] at children
          rw [columns, columns]
          refine P.steps_bind (children.1.whole scope) fun test test' met => ?_
          refine P.steps_bind (children.2.1.whole scope) fun yes yes' met' => ?_
          refine P.steps_bind (children.2.2.1.whole scope) fun no no' met'' => ?_
          refine P.steps_pure fun w no yes test => ?_
          simpa using Lists.single (texts_choice test yes no)
      | tuple items t =>
          rw [columns, columns]
          exact steps_columnsOf children
      | call fn args t =>
          rw [columns, columns]
          refine P.steps_bind (steps_list children) fun args args' met => ?_
          exact P.steps_pure fun w texts => by simpa using Lists.single (texts.call fn.name)
      | aggregate fn arg q t =>
          have args : ∀ e ∈ arg, P.Columns l e := fun e he =>
            children e (by simpa [Expr.children] using he)
          have function (scope : Select) : P.Steps P.Texts
              (do pure (call fn.name [← argument l scope arg q.current]))
              (do pure (call fn.name [← argument l scope arg q.current])) := by
            refine P.steps_bind (steps_argument args q.current) fun t t' met => ?_
            exact P.steps_pure fun w texts => by simpa using (Lists.single texts).call fn.name
          rw [columns, columns]
          split
          · refine P.steps_bind (steps_argument args q.current) fun t t' met => ?_
            refine P.steps_pure fun w texts => ?_
            simpa using Lists.single ((Lists.single texts).call fn.name)
          · split
            · refine P.steps_bind (steps_select (clauses q rfl) (.some (function q.current)))
                fun t t' met => P.steps_pure fun w texts => ?_
              simpa using Lists.single (texts_parenthesized texts)
            · exact P.steps_throw _
      | subQuery q t =>
          rw [columns, columns]
          refine P.steps_bind (steps_select (clauses q rfl) .none) fun t t' met => ?_
          refine P.steps_pure fun w texts => ?_
          simpa using Lists.single (texts_parenthesized texts)

end Expressions

theorem steps_query (l : Likeness) (q : Query) :
    P.Steps P.Texts (select l q none) (select l q none) :=
  steps_select (fun c _ => steps_columns c) .none

end Parallel

end StreamQuery.Rendering
