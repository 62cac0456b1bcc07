import StreamQuery.Proofs.Parameters
import StreamQuery.Proofs.Reading
import StreamQuery.Proofs.Subselects

/-! # One text, one expression

The text of an expression over rows and captured variables is legible with the names of its
sources and parameters, so two expressions of one text are the same tree.
-/

namespace StreamQuery

/-! ## Expressions over rows and captured variables -/

namespace Expr

/-- A row, or a path from one. The names of its fields hold no mark that ends a name. -/
inductive RowPath : Expr → Prop
  | row (id : SourceId) (t : ValueType) : RowPath (.row id t)
  | path {base : Expr} {field : FieldRef} (h : RowPath base) (t : ValueType)
      (solid : '.' ∉ field.name.toList ∧ ')' ∉ field.name.toList) : RowPath (.path base field t)

/-- Constants other than doubles, captured variables, rows and paths from them, under
operators, conditionals and functions. -/
inductive Plain : Expr → Prop
  | constant {value : Value} (t : ValueType) (h : ∀ x, value ≠ .double x) :
      Plain (.constant value t)
  | param (capture : Capture) (t : ValueType) : Plain (.param capture t)
  | rowPath {e : Expr} (h : RowPath e) : Plain e
  | unary (op : UnaryOp) {operand : Expr} (t : ValueType) (h : Plain operand) :
      Plain (.unary op operand t)
  | binary (op : BinaryOp) {left right : Expr} (t : ValueType) (h : Plain left)
      (h' : Plain right) : Plain (.binary op left right t)
  | conditional {test yes no : Expr} (t : ValueType) (h : Plain test) (h' : Plain yes)
      (h'' : Plain no) : Plain (.conditional test yes no t)
  | call (fn : ScalarFn) {args : List Expr} (t : ValueType) (h : ∀ e ∈ args, Plain e) :
      Plain (.call fn args t)

end Expr

/-! ## The names of a rendering -/

/-- A word that is no name of a source. -/
def keywords : List String := ["NOT", "CASE", "NULL", "TRUE", "FALSE"]

namespace Aliases

variable {aliases : Aliases} {id : SourceId} {name : String}

def source? (aliases : Aliases) (name : String) : Option SourceId :=
  aliases.ids.find? fun id => aliases.alias? id == some name

theorem source?_of_alias? (h : aliases.alias? id = some name) : aliases.source? name = some id := by
  have mem : id ∈ aliases.ids := isSome_alias?.mp (by simp [h])
  cases found : aliases.source? name with
  | none =>
      have := List.find?_eq_none.mp found id mem
      simp [h] at this
  | some id' =>
      have same := List.find?_some found
      rw [alias?_inj h (by simpa using same)]

end Aliases

namespace Rendering

open Lexicon Wording Scribe

def lexicon (stem : String) (aliases : Aliases) (bindings : List Binding) : Lexicon where
  stem := stem
  capture? index := (bindings.map (·.capture.bare))[index]?
  source? := aliases.source?

/-- A captured variable is written as the stem and the number of a parameter for its slot
and cell. -/
def Bound (stem : String) (bindings : List Binding) (c : Capture) : Prop :=
  ∃ (index : Nat) (b : Binding), bindings[index]? = some b ∧ b.capture.bare = c.bare ∧
    Binding.nameFor bindings c = stem ++ toString index

theorem bound_write {stem : String} {phrase : Phrase} {c : Capture} (h : c ∈ phrase.captures) :
    Bound stem (phrase.write stem).bindings c := by
  have binds := bindsFirstUses_numbered stem phrase.captures
  rw [← Binding.allocateAll_eq_numbered, ← Phrase.bindings_write] at binds
  generalize (phrase.write stem).bindings = bindings at binds
  obtain ⟨b, ⟨mem, reads⟩, -⟩ := binds.unique c h
  cases found : bindings.find? (·.reads c) with
  | none => exact absurd reads (List.find?_eq_none.mp found b mem)
  | some b =>
      obtain ⟨index, at_index⟩ := List.getElem?_of_mem (List.mem_of_find?_eq_some found)
      have reads := List.find?_some found
      obtain ⟨slot, cell⟩ := Capture.shares_iff.mp reads
      refine ⟨index, b, at_index, by simp [Capture.bare, slot, cell], ?_⟩
      simp [Binding.nameFor, found, (binds.named index b at_index).2]

section

variable {stem : String} {aliases : Aliases} {l : Likeness} {scope : Select} {e : Expr}
  {phrase : Phrase} {α β : Type}

/-- A phrase is legible as an expression with the names of all parameters that it needs. -/
def Reveals (stem : String) (aliases : Aliases) (e : Expr) (phrase : Phrase) : Prop :=
  ∀ bindings, (∀ c ∈ phrase.captures, Bound stem bindings c) →
    (lexicon stem aliases bindings).Legible e (phrase.spelled bindings).toList

def Keeps (aliases : Aliases) (x : DraftM α) (P : α → Prop) : Prop :=
  ∀ a after, x.run aliases = .ok (a, after) → after = aliases ∧ P a

theorem keeps_pure {a : α} {P : α → Prop} (h : P a) : Keeps aliases (pure a) P := by
  intro b after ran
  cases ran
  exact ⟨rfl, h⟩

theorem Keeps.bind {x : DraftM α} {f : α → DraftM β} {P : α → Prop} {R : β → Prop}
    (hx : Keeps aliases x P) (hf : ∀ a, P a → Keeps aliases (f a) R) :
    Keeps aliases (x >>= f) R := by
  intro b after ran
  rw [StateT.run_bind] at ran
  cases first : x.run aliases with
  | error error =>
      rw [first] at ran
      cases ran
  | ok found =>
      obtain ⟨a, middle⟩ := found
      obtain ⟨rfl, ha⟩ := hx a middle first
      rw [first] at ran
      exact hf a ha b after ran

theorem keeps_aliasOf (id : SourceId) : Keeps aliases (aliasOf id)
    fun phrase => ∃ name, aliases.alias? id = some name ∧ phrase = ofText name := by
  intro phrase after ran
  cases found : aliases.alias? id with
  | none =>
      rw [run_aliasOf_draft_none found] at ran
      cases ran
  | some name =>
      rw [run_aliasOf_draft found] at ran
      cases ran
      exact ⟨rfl, name, rfl, rfl⟩

/-! ## Forms of expressions -/

theorem spelled_ofText (bindings : List Binding) (s : String) :
    Phrase.spelled bindings (ofText s) = s :=
  Phrase.spelled_singleton (.text s)

@[simp] theorem captures_ofText (s : String) : Phrase.captures (ofText s) = [] := rfl

theorem captures_binary (op : BinaryOp) (phrase phrase' : Phrase) :
    Phrase.captures (binary op phrase phrase') = phrase.captures ++ phrase'.captures := by
  cases op with
  | arith op => cases op <;> simp [binary, call, joined]
  | compare | and | or | like | concat => simp [binary, call, joined]

theorem reveals_constant {value : Value} {t : ValueType} (h : ∀ x, value ≠ .double x) :
    Reveals stem aliases (.constant value t) [.literal value] := by
  intro bindings _
  rw [Phrase.spelled_singleton, Fragment.spelled]
  cases value with
  | null =>
      exact legible_named (w := "NULL".toList) (List.all_eq_true.mp rfl) (by decide) (by decide)
        (by decide) rfl
  | bool b =>
      cases b
      · exact legible_named (w := "FALSE".toList) (List.all_eq_true.mp rfl) (by decide) (by decide)
          (by decide) rfl
      · exact legible_named (w := "TRUE".toList) (List.all_eq_true.mp rfl) (by decide) (by decide)
          (by decide) rfl
  | int i => exact legible_int i t
  | double x => exact absurd rfl (h x)
  | text s => exact legible_text s t

theorem reveals_param (capture : Capture) (t : ValueType) :
    Reveals stem aliases (.param capture t) [.placeholder capture] := by
  intro bindings bound
  obtain ⟨index, b, found, same, name⟩ := bound capture (List.mem_singleton_self _)
  have known : (lexicon stem aliases bindings).capture? index = some capture.bare := by
    simp [lexicon, found, same]
  rw [Phrase.spelled_singleton, Fragment.spelled, name, String.toList_append, String.toList_append]
  exact legible_param known

theorem reveals_unary (op : UnaryOp) {t : ValueType} (h : Reveals stem aliases e phrase) :
    Reveals stem aliases (.unary op e t) (unary op phrase) := by
  intro bindings bound
  have operand := h bindings fun c hc => bound c (by cases op <;> simp [unary, hc])
  cases op with
  | not =>
      simp only [unary, Phrase.spelled_append, spelled_ofText, String.toList_append,
        List.append_assoc]
      exact legible_negation operand
  | neg =>
      simp only [unary, Phrase.spelled_append, spelled_ofText, String.toList_append,
        List.append_assoc]
      exact legible_opposite operand

theorem reveals_binary (op : BinaryOp) {t : ValueType} {e' : Expr} {phrase' : Phrase}
    (h : Reveals stem aliases e phrase) (h' : Reveals stem aliases e' phrase') :
    Reveals stem aliases (.binary op e e' t) (binary op phrase phrase') := by
  intro bindings bound
  have left := h bindings fun c hc => bound c (by simp [captures_binary, hc])
  have right := h' bindings fun c hc => bound c (by simp [captures_binary, hc])
  have inner := legible_between (t := t) op left right
  have modulo := legible_pair (t := t) (w := "MOD".toList) (List.all_eq_true.mp rfl) (by decide)
    (by decide) (by decide) (.arith .rem) left right fun _ _ => rfl
  have chained := legible_pair (t := t) (w := "CONCAT".toList) (List.all_eq_true.mp rfl)
    (by decide) (by decide) (by decide) .concat left right fun _ _ => rfl
  cases op with
  | arith op =>
      cases op with
      | rem => simpa [binary, call, joined, Phrase.spelled_append, spelled_ofText] using modulo
      | add | sub | mul | div =>
          simpa [binary, Phrase.spelled_append, spelled_ofText, BinaryOp.symbol] using inner
  | concat => simpa [binary, call, joined, Phrase.spelled_append, spelled_ofText] using chained
  | compare | and | or | like =>
      simpa [binary, Phrase.spelled_append, spelled_ofText, BinaryOp.symbol] using inner

theorem reveals_conditional {t : ValueType} {e' e'' : Expr} {phrase' phrase'' : Phrase}
    (h : Reveals stem aliases e phrase) (h' : Reveals stem aliases e' phrase')
    (h'' : Reveals stem aliases e'' phrase'') : Reveals stem aliases (.conditional e e' e'' t)
      (choice phrase phrase' phrase'') := by
  intro bindings bound
  have test := h bindings fun c hc => bound c (by simp [choice, hc])
  have yes := h' bindings fun c hc => bound c (by simp [choice, hc])
  have no := h'' bindings fun c hc => bound c (by simp [choice, hc])
  simp only [choice, Phrase.spelled_append, spelled_ofText, String.toList_append, List.append_assoc]
  exact legible_conditional test yes no

theorem toList_spelled_joined (bindings : List Binding) (phrases : List Phrase) :
    (Phrase.spelled bindings (joined ", " phrases)).toList =
      List.intercalate ", ".toList
        (phrases.map fun phrase => (phrase.spelled bindings).toList) := by
  fun_induction joined ", " phrases with
  | case1 => rfl
  | case2 phrase => simp
  | case3 phrase rest nonempty ih =>
      obtain ⟨next, rest, rfl⟩ := List.exists_cons_of_ne_nil nonempty
      simp only [Phrase.spelled_append, spelled_ofText, String.toList_append, ih, List.map_cons,
        List.intercalate_cons_cons, List.append_assoc]

theorem captures_joined (phrases : List Phrase) :
    Phrase.captures (joined ", " phrases) = phrases.flatMap Phrase.captures := by
  fun_induction joined ", " phrases with
  | case1 => rfl
  | case2 phrase => simp
  | case3 phrase rest nonempty ih => simp [ih]

theorem reveals_call (fn : ScalarFn) {t : ValueType} {es : List Expr} {phrases : List Phrase}
    (h : List.Forall₂ (Reveals stem aliases) es phrases) : Reveals stem aliases (.call fn es t)
      (call fn.name phrases) := by
  intro bindings bound
  have args : List.Forall₂ (lexicon stem aliases bindings).Legible es
      (phrases.map fun phrase => (phrase.spelled bindings).toList) := by
    replace bound : ∀ phrase ∈ phrases, ∀ c ∈ phrase.captures, Bound stem bindings c :=
      fun phrase hp c hc => bound c (by simpa [call, captures_joined] using ⟨phrase, hp, hc⟩)
    induction h with
    | nil => exact .nil
    | cons he _ ih =>
        obtain ⟨first, rest⟩ := List.forall_mem_cons.mp bound
        exact .cons (he bindings first) (ih rest)
  simp only [call, Phrase.spelled_append, spelled_ofText, String.toList_append, List.append_assoc,
    toList_spelled_joined]
  exact legible_call fn args

/-- A path is written as the name of its row and the names of its fields. -/
theorem keeps_path (h : e.RowPath) : Keeps aliases (path e) fun phrase => phrase.captures = [] ∧
    ∃ id name fields, aliases.alias? id = some name ∧ e.bare = along (.row id .any) fields ∧
      (∀ f ∈ fields, '.' ∉ f ∧ ')' ∉ f) ∧
      ∀ bindings, (phrase.spelled bindings).toList = name.toList ++ fields.flatMap ('.' :: ·) := by
  induction h with
  | row id t =>
      rw [path]
      intro phrase after ran
      obtain ⟨rfl, name, named, rfl⟩ := keeps_aliasOf id phrase after ran
      exact ⟨rfl, rfl, id, name, [], named, rfl, by simp, fun bindings => by
        simp [spelled_ofText]⟩
  | @path base field _ t solid ih =>
      rw [path]
      refine ih.bind ?_
      rintro phrase ⟨fixed, id, name, fields, named, tree, inside, text⟩
      refine keeps_pure
        ⟨by simp [fixed], id, name, fields ++ [field.name.toList], named, ?_, ?_, ?_⟩
      · simp [Expr.bare, along, tree]
      · exact List.forall_mem_append.mpr ⟨inside, List.forall_mem_singleton.mpr solid⟩
      · intro bindings
        simp [Phrase.spelled_append, spelled_ofText, text]

theorem reveals_row {id : SourceId} {t : ValueType} {name : String}
    (h : aliases.alias? id = some name) (word : name ∉ keywords) :
    Reveals stem aliases (.row id t) (ofText name) := by
  intro bindings _
  obtain ⟨nonempty, upper⟩ := Aliases.isUpper_alias h
  have apart {k : String} (hk : k ∈ keywords) : name.toList ≠ k.toList := fun same =>
    word (String.toList_injective same ▸ hk)
  have meant : (lexicon stem aliases bindings).named name.toList = some (.row id .any) := by
    rw [named, if_neg (apart (by decide)), if_neg (apart (by decide)), if_neg (apart (by decide)),
      String.ofList_toList]
    exact congrArg (Option.map _) (Aliases.source?_of_alias? h)
  rw [spelled_ofText]
  exact legible_named upper nonempty (apart (by decide)) (apart (by decide)) meant

theorem reveals_path {id : SourceId} {name : String} {fields : List (List Char)}
    (h : aliases.alias? id = some name) (tree : e.bare = along (.row id .any) fields)
    (nonempty : fields ≠ []) (solid : ∀ f ∈ fields, '.' ∉ f ∧ ')' ∉ f)
    (text : ∀ bindings,
      (phrase.spelled bindings).toList = name.toList ++ fields.flatMap ('.' :: ·)) :
    Reveals stem aliases e (parenthesized phrase) := by
  intro bindings _
  obtain ⟨field, fields, rfl⟩ := List.exists_cons_of_ne_nil nonempty
  have source : (lexicon stem aliases bindings).source? (.ofList name.toList) = some id := by
    rw [String.ofList_toList]
    exact Aliases.source?_of_alias? h
  simp only [parenthesized, Phrase.spelled_append, spelled_ofText, String.toList_append,
    List.append_assoc, text]
  exact legible_path (Aliases.isUpper_alias h).2 source solid tree

theorem reveals_rowPath (h : e.RowPath) (words : ∀ id name, aliases.alias? id = some name →
    name ∉ keywords) : Keeps aliases (columns l scope e) fun phrases =>
      Reveals stem aliases e (joined "" phrases) := by
  cases h with
  | row id t =>
      rw [columns]
      refine (keeps_aliasOf id).bind ?_
      rintro phrase ⟨name, named, rfl⟩
      refine keeps_pure ?_
      exact reveals_row named (words id name named)
  | path h t solid =>
      rw [columns]
      refine (keeps_path (.path h t solid)).bind ?_
      rintro phrase ⟨-, id, name, fields, named, tree, inside, text⟩
      refine keeps_pure ?_
      refine reveals_path named tree ?_ inside text
      rintro rfl
      cases tree

/-- An expression that is no tuple is its one column. -/
theorem keeps_whole (h : e.Plain) (columns : Keeps aliases (columns l scope e) fun phrases =>
    Reveals stem aliases e (joined "" phrases)) : Keeps aliases (expr l scope e)
      (Reveals stem aliases e) := by
  have flat : (expr l scope e : DraftM Phrase) = (Rendering.columns l scope e >>= fun phrases =>
      pure (joined "" phrases)) := by
    cases h with
    | rowPath h => cases h <;> rfl
    | _ => rfl
  rw [flat]
  exact columns.bind fun phrases reveals => keeps_pure reveals

theorem keeps_list {es : List Expr}
    (h : ∀ e ∈ es, Keeps aliases (expr l scope e) (Reveals stem aliases e)) :
    Keeps aliases (list l scope es) (List.Forall₂ (Reveals stem aliases) es) := by
  induction es with
  | nil => exact keeps_pure .nil
  | cons e es ih =>
      obtain ⟨first, rest⟩ := List.forall_mem_cons.mp h
      exact first.bind fun phrase hphrase => (ih rest).bind fun phrases hphrases =>
        keeps_pure (.cons hphrase hphrases)

/-- Every plain expression is written as a phrase that reveals it. -/
theorem reveals_expr (h : e.Plain) (words : ∀ id name, aliases.alias? id = some name →
    name ∉ keywords) : Keeps aliases (expr l scope e) (Reveals stem aliases e) := by
  have single {e : Expr} {phrase : Phrase} (h : Reveals stem aliases e phrase) :
      Reveals stem aliases e (joined "" [phrase]) :=
    h
  induction h with
  | constant t h => exact keeps_pure (reveals_constant h)
  | param capture t => exact keeps_pure (reveals_param capture t)
  | rowPath h => exact keeps_whole (.rowPath h) (reveals_rowPath h words)
  | unary op t h ih =>
      exact keeps_whole (.unary op t h) (ih.bind fun operand hoperand =>
        keeps_pure (single (reveals_unary op hoperand)))
  | binary op t h h' ih ih' =>
      exact keeps_whole (.binary op t h h') (ih.bind fun left hleft => ih'.bind
        fun right hright => keeps_pure (single (reveals_binary op hleft hright)))
  | conditional t h h' h'' ih ih' ih'' =>
      exact keeps_whole (.conditional t h h' h'') (ih.bind fun test htest => ih'.bind
        fun yes hyes => ih''.bind fun no hno =>
          keeps_pure (single (reveals_conditional htest hyes hno)))
  | call fn t h ih =>
      exact keeps_whole (.call fn t h) ((keeps_list ih).bind fun args hargs =>
        keeps_pure (single (reveals_call fn hargs)))

/-! ## One text, one tree -/

/-- The text of a plain expression is legible with the names of its own parameters. -/
theorem legible_run {text : String} {after : Ledger} (plain : e.Plain)
    (words : ∀ id name, aliases.alias? id = some name → name ∉ keywords)
    (ran : (expr l scope e : RenderM String).run ⟨stem, aliases, []⟩ = .ok (text, after)) :
    (lexicon stem aliases after.bindings).Legible e text.toList := by
  have drafts : Drafts DraftOf (expr l scope e : DraftM Phrase) (expr l scope e) :=
    (drafted.steps_columns e).whole scope
  rw [drafts.run_eq_write] at ran
  obtain ⟨⟨phrase, names⟩, draft, written⟩ := Compile.map_eq_ok.mp ran
  cases written
  rw [Phrase.text_write stem phrase List.prefix_rfl]
  exact (reveals_expr plain words phrase names draft).2 _ fun c hc => bound_write hc

/-- Two plain expressions with one text, whose parameters agree in slots and cells, are the
same tree but for types, the closures of captured variables and the owners of fields. -/
theorem bare_eq_of_text_eq {l' : Likeness} {scope' : Select} {e' : Expr} {text : String}
    {after after' : Ledger} (plain : e.Plain) (plain' : e'.Plain)
    (words : ∀ id name, aliases.alias? id = some name → name ∉ keywords)
    (ran : (expr l scope e : RenderM String).run ⟨stem, aliases, []⟩ = .ok (text, after))
    (ran' : (expr l' scope' e' : RenderM String).run ⟨stem, aliases, []⟩ = .ok (text, after'))
    (agree : after.bindings.map (fun b => (b.capture.slot, b.capture.cell)) =
      after'.bindings.map fun b => (b.capture.slot, b.capture.cell)) :
    e.bare = e'.bare := by
  have legible := legible_run plain words ran
  have legible' := legible_run plain' words ran'
  have captures : after.bindings.map (·.capture.bare) = after'.bindings.map (·.capture.bare) := by
    have places := congrArg (List.map fun place => Capture.mk 0 place.1 .any place.2) agree
    rwa [List.map_map, List.map_map] at places
  rw [lexicon, ← captures] at legible'
  -- One reader takes the text for both.
  let fuel := max (sizeOf e) (sizeOf e')
  have ends : Reader.Ends [] := by simp [Reader.Ends]
  have reads := legible.reads fuel (Nat.le_max_left ..) [] ends
  have reads' := legible'.reads fuel (Nat.le_max_right ..) [] ends
  exact (Prod.mk.inj (Option.some.inj (reads.symm.trans reads'))).1

end

/-- A choice by the name of a row, between a difference of negative numbers and a captured
variable. Its text constant holds marks of the language. -/
def quotedChoice (t : ValueType) (closure : ClosureId) : Expr :=
  .conditional
    (.binary (.compare .eq) (.path (.row 0 t) ⟨"Customer", "name", t⟩ t)
      (.constant (.text "' THEN (A.name) = :p0") t) t)
    (.binary (.arith .sub) (.constant (.int (-1)) t) (.unary .neg (.constant (.int (-1)) t) t) t)
    (.param ⟨closure, 2, t, ⟨7⟩⟩ t) t

theorem plain_quotedChoice (t : ValueType) (closure : ClosureId) :
    (quotedChoice t closure).Plain := by
  have number : (Expr.constant (.int (-1)) t).Plain := .constant t (by simp)
  have name : (Expr.path (.row 0 t) ⟨"Customer", "name", t⟩ t).Plain :=
    .rowPath (.path (.row 0 t) t (by simp))
  exact .conditional t (.binary _ t name (.constant t (by simp)))
    (.binary _ t number (.unary _ t number)) (.param _ t)

def outline (e : Expr) : Except RenderError (String × List (Nat × Cell)) :=
  ((expr rowsAlike (Query.ofEntity "Customer").current e : RenderM String).run
      ⟨"p", Aliases.empty.add 0, []⟩).map fun (text, after) =>
    (text, after.bindings.map fun b => (b.capture.slot, b.capture.cell))

theorem outline_quotedChoice :
    outline (quotedChoice .int 0) = .ok
      ("(CASE WHEN ((A.name) = ''' THEN (A.name) = :p0') THEN (-1 - (--1)) ELSE :p0 END)",
        [(2, ⟨7⟩)]) ∧
      outline (quotedChoice .any 1) = outline (quotedChoice .int 0) := by
  constructor <;> decide +kernel

/-- One source has the name `A`. -/
theorem keywords_single (id : SourceId) (name : String)
    (h : (Aliases.empty.add 0).alias? id = some name) : name ∉ keywords := by
  obtain ⟨n, found, rfl⟩ := Aliases.exists_getElem?_of_alias? h
  obtain ⟨lt, -⟩ := List.getElem?_eq_some_iff.mp found
  obtain rfl : n = 0 := Nat.lt_one_iff.mp lt
  have letter : aliasName 0 = "A" := by decide +kernel
  rw [letter]
  decide

theorem bare_eq_of_text_eq_quotedChoice :
    outline (quotedChoice .any 1) = outline (quotedChoice .int 0) ∧
      (quotedChoice .int 0).bare = (quotedChoice .any 1).bare := by
  obtain ⟨first, same⟩ := outline_quotedChoice
  obtain ⟨⟨text, after⟩, ran, outlined⟩ := Compile.map_eq_ok.mp first
  obtain ⟨⟨text', after'⟩, ran', outlined'⟩ := Compile.map_eq_ok.mp (same.trans first)
  obtain ⟨rfl, agree⟩ := Prod.mk.inj (outlined.trans outlined'.symm)
  exact ⟨same, bare_eq_of_text_eq (plain_quotedChoice _ _) (plain_quotedChoice _ _)
    keywords_single ran ran' agree⟩

def nameOf (owner : String) : Expr :=
  .path (.row 0 (.entity "Customer")) ⟨owner, "name", .text⟩ .text

/-- The owner of a field is not written: two paths that differ in it alone have one text. -/
theorem outline_nameOf : ((nameOf "Bank").Plain ∧ (nameOf "Customer").Plain) ∧
    outline (nameOf "Customer") = .ok ("(A.name)", []) ∧
    outline (nameOf "Bank") = outline (nameOf "Customer") ∧ nameOf "Bank" ≠ nameOf "Customer" := by
  have plain (owner : String) : (nameOf owner).Plain := .rowPath (.path (.row 0 _) _ (by simp))
  refine ⟨⟨plain _, plain _⟩, by decide +kernel, by decide +kernel, ?_⟩
  simp [nameOf]

end Rendering

end StreamQuery
