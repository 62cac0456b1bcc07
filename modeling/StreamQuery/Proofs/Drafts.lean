import StreamQuery.Proofs.Writing

/-! # Drafts

A query can also be written in two phases: first a draft, in which the variables stand as such,
and then its text, in which they have become parameters by first use. Writing with parameters at
once comes to the same, because variables are met in the order in which they stand in the text.
What holds of drafts then holds of what is rendered.
-/

namespace StreamQuery

/-- A piece of a draft. -/
inductive Fragment where
  | text (s : String)
  | literal (value : Value)
  | placeholder (capture : Capture)

abbrev Phrase := List Fragment

/-- Drafting names sources as it goes, and no variables. -/
abbrev DraftM := StateT Aliases (Except RenderError)

instance : Wording Phrase where
  nothing := []
  ofText s := [.text s]
  ofValue v := [.literal v]

instance : Scribe DraftM Phrase where
  enter sources := modify (·.addAll sources)
  aliasOf id := do
    match (← get).alias? id with
    | some name => pure [.text name]
    | none => throw (.noAlias id)
  placeholder capture := pure [.placeholder capture]

/-! ## Parameters for variables -/

namespace Binding

variable {stem : String} {bindings later : List Binding} {capture : Capture}

def allocateAll (stem : String) (bindings : List Binding) (captures : List Capture) :
    List Binding :=
  captures.foldl (fun bindings capture => (allocate stem bindings capture).2) bindings

def nameFor (bindings : List Binding) (capture : Capture) : String :=
  ((bindings.find? (·.reads capture)).map Binding.name).getD ""

theorem prefix_allocate (stem : String) (bindings : List Binding) (capture : Capture) :
    bindings <+: (allocate stem bindings capture).2 := by
  unfold allocate
  split
  · exact List.prefix_rfl
  · exact List.prefix_append ..

theorem allocateAll_append (stem : String) (bindings : List Binding) (captures more : List Capture) :
    allocateAll stem bindings (captures ++ more) =
      allocateAll stem (allocateAll stem bindings captures) more :=
  List.foldl_append ..

theorem prefix_allocateAll (stem : String) (bindings : List Binding) (captures : List Capture) :
    bindings <+: allocateAll stem bindings captures := by
  induction captures generalizing bindings with
  | nil => exact List.prefix_rfl
  | cons capture captures ih => exact (prefix_allocate stem bindings capture).trans (ih _)

/-- The parameter that is given out reads the slot and cell of its variable, first of all. -/
theorem find?_allocate (stem : String) (bindings : List Binding) (capture : Capture) :
    (allocate stem bindings capture).2.find? (·.reads capture) =
      some (allocate stem bindings capture).1 := by
  unfold allocate
  split
  · next found => exact found
  · next missing =>
      rw [List.find?_append, missing, Option.none_or]
      simp [reads]

/-- A parameter keeps its name when more are added. -/
theorem nameFor_of_prefix (kept : (allocate stem bindings capture).2 <+: later) :
    nameFor later capture = (allocate stem bindings capture).1.name := by
  obtain ⟨more, rfl⟩ := kept
  rw [nameFor, List.find?_append, find?_allocate]
  rfl

end Binding

/-! ## Texts of drafts -/

namespace Fragment

def capture? : Fragment → Option Capture
  | placeholder capture => some capture
  | _ => none

def spelled (bindings : List Binding) : Fragment → String
  | text s => s
  | literal value => value.literal
  | placeholder capture => ":" ++ Binding.nameFor bindings capture

end Fragment

/-- Text with the parameters used in it, in the order of first use. -/
structure Written where
  text : String
  bindings : List Binding

def Written.add (stem : String) (written : Written) : Fragment → Written
  | .text s => { written with text := written.text ++ s }
  | .literal value => { written with text := written.text ++ value.literal }
  | .placeholder capture =>
    let (binding, bindings) := Binding.allocate stem written.bindings capture
    ⟨written.text ++ (":" ++ binding.name), bindings⟩

namespace Phrase

def captures (phrase : Phrase) : List Capture := phrase.filterMap Fragment.capture?

def spelled (bindings : List Binding) : Phrase → String
  | [] => ""
  | fragment :: rest => fragment.spelled bindings ++ spelled bindings rest

/-- Writes a phrase out, with parameters named by a stem and a number. -/
def write (stem : String) (phrase : Phrase) : Written :=
  phrase.foldl (Written.add stem) ⟨"", []⟩

variable {stem : String} {phrase phrase' : Phrase} {bindings : List Binding}

@[simp] theorem captures_append :
    captures (phrase ++ phrase') = phrase.captures ++ phrase'.captures :=
  List.filterMap_append

theorem spelled_append :
    spelled bindings (phrase ++ phrase') = phrase.spelled bindings ++ phrase'.spelled bindings := by
  induction phrase with
  | nil => simp [spelled]
  | cons fragment phrase ih => simp [spelled, ih, String.append_assoc]

theorem spelled_singleton (fragment : Fragment) :
    spelled bindings [fragment] = fragment.spelled bindings := by
  simp [spelled]

theorem write_concat (phrase : Phrase) (fragment : Fragment) :
    write stem (phrase ++ [fragment]) = (phrase.write stem).add stem fragment := by
  simp [write]

/-- The parameters of a phrase are those for its variables, in their order. -/
theorem bindings_write (stem : String) (phrase : Phrase) :
    (phrase.write stem).bindings = Binding.allocateAll stem [] phrase.captures := by
  induction phrase using List.reverseRecOn with
  | nil => rfl
  | append_singleton phrase fragment ih =>
      rw [write_concat, captures_append, Binding.allocateAll_append, ← ih]
      cases fragment <;> rfl

/-- The text of a phrase has the names of its parameters in the places of variables, also when
more parameters are added. -/
theorem text_write (stem : String) (phrase : Phrase) {later : List Binding}
    (kept : (phrase.write stem).bindings <+: later) :
    (phrase.write stem).text = phrase.spelled later := by
  induction phrase using List.reverseRecOn with
  | nil => rfl
  | append_singleton phrase fragment ih =>
      rw [write_concat] at kept ⊢
      rw [spelled_append, spelled_singleton]
      cases fragment with
      | text s | literal value =>
          rw [← ih kept]
          rfl
      | placeholder capture =>
          rw [← ih ((Binding.prefix_allocate stem _ capture).trans kept), Fragment.spelled,
            Binding.nameFor_of_prefix kept]
          rfl

end Phrase

/-! ## Writing at once -/

namespace Rendering

open Binding Wording

theorem run_aliasOf_draft {id : SourceId} {aliases : Aliases} {name : String}
    (named : aliases.alias? id = some name) :
    (Scribe.aliasOf id : DraftM Phrase).run aliases = .ok ([.text name], aliases) := by
  simp only [Scribe.aliasOf, StateT.run_bind, StateT.run_get, pure_bind, named]
  rfl

theorem run_aliasOf_draft_none {id : SourceId} {aliases : Aliases}
    (unnamed : aliases.alias? id = none) :
    (Scribe.aliasOf id : DraftM Phrase).run aliases = .error (.noAlias id) := by
  simp only [Scribe.aliasOf, StateT.run_bind, StateT.run_get, pure_bind, unnamed]
  rfl

theorem run_aliasOf {id : SourceId} {ledger : Ledger} {name : String}
    (named : ledger.aliases.alias? id = some name) :
    (Scribe.aliasOf id : RenderM String).run ledger = .ok (name, ledger) := by
  simp only [Scribe.aliasOf, StateT.run_bind, StateT.run_get, pure_bind, named]
  rfl

theorem run_aliasOf_none {id : SourceId} {ledger : Ledger}
    (unnamed : ledger.aliases.alias? id = none) :
    (Scribe.aliasOf id : RenderM String).run ledger = .error (.noAlias id) := by
  simp only [Scribe.aliasOf, StateT.run_bind, StateT.run_get, pure_bind, unnamed]
  rfl

section Drafted

variable {α β γ δ : Type} {R S : List Binding → List Capture → α → β → Prop} {x : DraftM α}
  {y : RenderM β}

/-- What comes of a draft beside what comes of writing at once: the same error, or results that
are related whatever parameters are added to those for the variables met. -/
inductive Fulfils (R : List Binding → List Capture → α → β → Prop) (ledger : Ledger) :
    Except RenderError (α × Aliases) → Except RenderError (β × Ledger) → Prop where
  | error (error : RenderError) : Fulfils R ledger (.error error) (.error error)
  | ok {a : α} {b : β} (aliases : Aliases) (met : List Capture)
      (related : ∀ later, allocateAll ledger.stem ledger.bindings met <+: later → R later met a b) :
      Fulfils R ledger (.ok (a, aliases))
        (.ok (b, ⟨ledger.stem, aliases, allocateAll ledger.stem ledger.bindings met⟩))

/-- A draft beside writing at once, from the same names. -/
def Drafts (R : List Binding → List Capture → α → β → Prop) (x : DraftM α) (y : RenderM β) : Prop :=
  ∀ ledger, Fulfils R ledger (x.run ledger.aliases) (y.run ledger)

theorem Drafts.mono (h : Drafts R x y) (imp : ∀ later met a b, R later met a b → S later met a b) :
    Drafts S x y := by
  intro ledger
  have ran := h ledger
  generalize x.run ledger.aliases = draft, y.run ledger = written at ran ⊢
  cases ran with
  | error error => exact .error error
  | ok aliases met related =>
      exact .ok aliases met fun later kept => imp later met _ _ (related later kept)

theorem drafts_pure {a : α} {b : β} (h : ∀ later, R later [] a b) :
    Drafts R (pure a) (pure b) := fun ledger =>
  .ok ledger.aliases [] fun later _ => h later

theorem Drafts.bind {S : List Binding → List Capture → γ → δ → Prop} {f : α → DraftM γ}
    {g : β → RenderM δ} (first : Drafts R x y)
    (rest : ∀ a b met, Drafts (fun later more c d => R later met a b → S later (met ++ more) c d)
      (f a) (g b)) : Drafts S (x >>= f) (y >>= g) := by
  intro ledger
  have ran := first ledger
  rw [StateT.run_bind, StateT.run_bind]
  generalize x.run ledger.aliases = draft, y.run ledger = written at ran ⊢
  cases ran with
  | error error => exact .error error
  | @ok a b aliases met related =>
      have onward := rest a b met
        ⟨ledger.stem, aliases, allocateAll ledger.stem ledger.bindings met⟩
      change Fulfils S ledger ((f a).run aliases) ((g b).run _)
      generalize (f a).run aliases = draft, (g b).run _ = written at onward ⊢
      cases onward with
      | error error => exact .error error
      | ok aliases more holds =>
          have both := allocateAll_append ledger.stem ledger.bindings met more
          rw [← both] at holds ⊢
          refine .ok aliases (met ++ more) fun later kept => holds later kept (related later ?_)
          rw [both] at kept
          exact (prefix_allocateAll ..).trans kept

/-- The texts of a draft: what is written at once, by the names of parameters. -/
def DraftOf (later : List Binding) (met : List Capture) (phrase : Phrase) (text : String) : Prop :=
  phrase.captures = met ∧ text = phrase.spelled later

theorem drafts_aliasOf (id : SourceId) :
    Drafts (fun later met phrase text => met = [] ∧ DraftOf later [] phrase text)
      (Scribe.aliasOf id : DraftM Phrase) (Scribe.aliasOf id : RenderM String) := by
  intro ledger
  cases named : ledger.aliases.alias? id with
  | some name =>
      rw [run_aliasOf_draft named, run_aliasOf named]
      refine .ok ledger.aliases [] fun later _ => ⟨rfl, rfl, ?_⟩
      simp [Phrase.spelled, Fragment.spelled]
  | none =>
      rw [run_aliasOf_draft_none named, run_aliasOf_none named]
      exact .error _

theorem drafts_placeholder (capture : Capture) :
    Drafts DraftOf (Scribe.placeholder capture : DraftM Phrase)
      (Scribe.placeholder capture : RenderM String) := by
  intro ledger
  refine .ok ledger.aliases [capture] fun later kept => ⟨rfl, ?_⟩
  rw [Phrase.spelled_singleton, Fragment.spelled, nameFor_of_prefix kept]
  rfl

def drafted : Parallel DraftM RenderM Phrase String (List Binding) where
  Steps := Drafts
  Texts := DraftOf
  steps_mono := Drafts.mono
  steps_pure := drafts_pure
  steps_bind := Drafts.bind
  steps_throw error _ := .error error
  steps_enter sources ledger := .ok (ledger.aliases.addAll sources) [] fun _ _ => rfl
  steps_aliasOf := drafts_aliasOf
  steps_placeholder := drafts_placeholder
  texts_nothing _ := ⟨rfl, rfl⟩
  texts_ofText _ s := ⟨rfl, by simp [ofText, Phrase.spelled, Fragment.spelled]⟩
  texts_ofValue _ v := ⟨rfl, by simp [ofValue, Phrase.spelled, Fragment.spelled]⟩
  texts_append := by
    rintro later _ _ t u _ _ ⟨rfl, rfl⟩ ⟨rfl, rfl⟩
    exact ⟨Phrase.captures_append, Phrase.spelled_append.symm⟩

/-- Writing at once is drafting, and then writing the draft out. -/
theorem Drafts.run_eq_write {x : DraftM Phrase} {y : RenderM String} (h : Drafts DraftOf x y)
    (stem : String) (aliases : Aliases) :
    y.run ⟨stem, aliases, []⟩ = (x.run aliases).map fun draft =>
      ((draft.1.write stem).text, ⟨stem, draft.2, (draft.1.write stem).bindings⟩) := by
  have ran := h ⟨stem, aliases, []⟩
  generalize x.run aliases = draft, y.run _ = written at ran ⊢
  cases ran with
  | error error => rfl
  | @ok phrase text aliases met related =>
      obtain ⟨rfl, rfl⟩ := related _ List.prefix_rfl
      have bindings := Phrase.bindings_write stem phrase
      have text := Phrase.text_write stem phrase List.prefix_rfl
      simp [Except.map, text, bindings]

end Drafted

/-- A query is written at once as its draft is written out. -/
theorem run_select (l : Likeness) (q : Query) (stem : String) (aliases : Aliases) :
    (select l q none : RenderM String).run ⟨stem, aliases, []⟩ =
      ((select l q none : DraftM Phrase).run aliases).map fun draft =>
        ((draft.1.write stem).text, ⟨stem, draft.2, (draft.1.write stem).bindings⟩) :=
  Drafts.run_eq_write (drafted.steps_query l q) stem aliases

end Rendering

namespace Query

open Rendering

/-- Rendering in two phases: a draft of the normal form, written out. -/
theorem render_eq_write (q : Query) (settings : Settings) : q.render settings =
    ((select rowsAlike q.normalize none : DraftM Phrase).run .empty).map fun draft =>
      ⟨(draft.1.write settings.paramStem).text, (draft.1.write settings.paramStem).bindings,
        q.normalize.current.skip, q.normalize.current.limit⟩ := by
  simp only [Query.render, run_select]
  cases (select rowsAlike q.normalize none : DraftM Phrase).run .empty <;> rfl

/-- What is rendered is a draft of the normal form, written out. -/
theorem exists_draft_of_render {q : Query} {settings : Settings} {r : Rendered}
    (h : q.render settings = .ok r) : ∃ phrase aliases,
      (select rowsAlike q.normalize none : DraftM Phrase).run .empty = .ok (phrase, aliases) ∧
        r.text = phrase.spelled r.bindings ∧
        r.bindings = Binding.allocateAll settings.paramStem [] phrase.captures := by
  rw [render_eq_write] at h
  cases ran : (select rowsAlike q.normalize none : DraftM Phrase).run .empty with
  | error error =>
      rw [ran] at h
      cases h
  | ok draft =>
      rw [ran] at h
      cases h
      exact ⟨draft.1, draft.2, rfl, Phrase.text_write _ _ List.prefix_rfl, Phrase.bindings_write ..⟩

end Query

end StreamQuery
