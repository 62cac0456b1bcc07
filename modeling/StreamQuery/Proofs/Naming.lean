import StreamQuery.Proofs.Aliases
import StreamQuery.Proofs.Explain

/-! # Sources named along a rendering

Rendering is followed through the selections that it enters, also where it fails. Each is recorded
with the table of names that it finds. The tables only grow from one selection to the next, so
different sources have different names at any time, and a source has its name from then on.
-/

namespace StreamQuery.Rendering

open Scribe

variable {α β γ δ : Type}

/-! ## Rendering with a record -/

/-- A selection that is entered, with the names that there are before. -/
structure Entry where
  before : Aliases
  sources : List Source

namespace Entry

def tables (entry : Entry) : List Aliases := entry.before.addingAll entry.sources

def after (entry : Entry) : Aliases := entry.before.addAll entry.sources

end Entry

/-- Rendering with a record of the selections that are entered, which is kept when it fails. -/
abbrev RecordM := StateT Ledger (ExceptT RenderError (StateM (List Entry)))

def unrecorded (x : RenderM α) : RecordM α := fun ledger => ExceptT.mk (pure (x.run ledger))

instance : Scribe RecordM String where
  enter sources := do
    let before := (← get).aliases
    modifyThe (List Entry) (· ++ [⟨before, sources⟩])
    unrecorded (enter sources)
  aliasOf id := unrecorded (aliasOf id)
  placeholder capture := unrecorded (placeholder capture)

def RecordM.outcome (x : RecordM α) (ledger : Ledger) (entries : List Entry) :
    Except RenderError (α × Ledger) × List Entry :=
  (x.run ledger).run.run entries

theorem RecordM.outcome_bind_ok {x : RecordM α} {ledger after : Ledger} {before entries : List Entry}
    {a : α} (ran : x.outcome ledger before = (.ok (a, after), entries)) (f : α → RecordM β) :
    (x >>= f).outcome ledger before = (f a).outcome after entries := by
  unfold outcome at ran ⊢
  rw [StateT.run_bind, ExceptT.run_bind, StateT.run_bind, ran]
  rfl

theorem RecordM.outcome_bind_error {x : RecordM α} {ledger : Ledger} {before entries : List Entry}
    {error : RenderError} (ran : x.outcome ledger before = (.error error, entries))
    (f : α → RecordM β) : (x >>= f).outcome ledger before = (.error error, entries) := by
  unfold outcome at ran ⊢
  rw [StateT.run_bind, ExceptT.run_bind, StateT.run_bind, ran]
  rfl

/-! ## The record beside the rendering -/

/-- Entries that lead from one table to another, each from where the one before it ends. -/
inductive Leads : Aliases → List Entry → Aliases → Prop where
  | nil (t : Aliases) : Leads t [] t
  | cons {t last : Aliases} {entries : List Entry} (sources : List Source)
      (h : Leads (t.addAll sources) entries last) : Leads t (⟨t, sources⟩ :: entries) last

namespace Leads

variable {t t' t'' : Aliases} {entries entries' : List Entry}

theorem append (h : Leads t entries t') (h' : Leads t' entries' t'') :
    Leads t (entries ++ entries') t'' := by
  induction h with
  | nil t => exact h'
  | cons sources h ih => exact .cons sources (ih h')

theorem grows (h : Leads t entries t') : Aliases.Grows t (entries.flatMap Entry.tables) t' := by
  induction h with
  | nil t => exact .still t
  | cons sources h ih => exact (Aliases.grows_addingAll _ sources).append ih

/-- The table after an entry is one of those on the way, and names all sources of the entry. -/
theorem after_spec (h : Leads t entries t') {entry : Entry} (mem : entry ∈ entries) :
    entry.after ∈ t :: entries.flatMap Entry.tables ∧
      ∀ source ∈ entry.sources, ∃ name, entry.after.alias? source.id = some name := by
  induction h with
  | nil t => cases mem
  | @cons t last entries sources h ih =>
      have steps := (t.grows_addingAll sources).getLast?
      rcases List.mem_cons.mp mem with rfl | mem
      · refine ⟨?_, fun source here => ?_⟩
        · have inside := List.mem_of_getLast? steps
          exact List.mem_append_left _ inside
        · have named : source.id ∈ (t.addAll sources).ids :=
            Aliases.mem_ids_addAll.mpr (.inr (List.mem_map_of_mem here))
          exact Option.isSome_iff_exists.mp (Aliases.isSome_alias?.mpr named)
      · obtain ⟨inside, named⟩ := ih mem
        refine ⟨?_, named⟩
        rcases List.mem_cons.mp inside with last | inside
        · rw [last]
          exact List.mem_append_left _ (List.mem_of_getLast? steps)
        · exact List.mem_cons_of_mem _ (List.mem_append_right _ inside)

end Leads

section Records

variable {R S : Unit → List Capture → α → β → Prop} {x : RecordM α} {y : RenderM β}

/-- What comes of steps with a record beside what comes of them without one. The entries that are
added lead on from the table of names. -/
inductive Recorded (R : Unit → List Capture → α → β → Prop) (ledger : Ledger)
    (before : List Entry) :
    Except RenderError (α × Ledger) × List Entry → Except RenderError (β × Ledger) → Prop where
  | error (error : RenderError) {entries : List Entry} {last : Aliases}
      (leads : Leads ledger.aliases entries last) :
      Recorded R ledger before (.error error, before ++ entries) (.error error)
  | ok {a : α} {b : β} {entries : List Entry} (after : Ledger) (met : List Capture)
      (leads : Leads ledger.aliases entries after.aliases) (related : R () met a b) :
      Recorded R ledger before (.ok (a, after), before ++ entries) (.ok (b, after))

def Records (R : Unit → List Capture → α → β → Prop) (x : RecordM α) (y : RenderM β) : Prop :=
  ∀ ledger before, Recorded R ledger before (x.outcome ledger before) (y.run ledger)

theorem Records.mono (h : Records R x y) (imp : ∀ w met a b, R w met a b → S w met a b) :
    Records S x y := by
  intro ledger before
  have ran := h ledger before
  generalize x.outcome ledger before = record, y.run ledger = rendered at ran ⊢
  cases ran with
  | error error leads => exact .error error leads
  | ok after met leads related => exact .ok after met leads (imp _ _ _ _ related)

theorem Recorded.of_still {ledger after : Ledger} {before : List Entry} {a : α} {b : β}
    (still : after.aliases = ledger.aliases) (met : List Capture) (related : R () met a b) :
    Recorded R ledger before (.ok (a, after), before) (.ok (b, after)) := by
  have leads : Leads ledger.aliases [] after.aliases := still ▸ .nil _
  have recorded : Recorded R ledger before (.ok (a, after), before ++ []) (.ok (b, after)) :=
    .ok after met leads related
  rwa [List.append_nil] at recorded

theorem Recorded.of_error {ledger : Ledger} {before : List Entry} (error : RenderError) :
    Recorded R ledger before (.error error, before) (.error error) := by
  have recorded : Recorded R ledger before (.error error, before ++ []) (.error error) :=
    .error error (.nil ledger.aliases)
  rwa [List.append_nil] at recorded

theorem Records.bind {S : Unit → List Capture → γ → δ → Prop} {f : α → RecordM γ}
    {g : β → RenderM δ} (first : Records R x y)
    (rest : ∀ a b met, Records (fun w more c d => R w met a b → S w (met ++ more) c d)
      (f a) (g b)) : Records S (x >>= f) (y >>= g) := by
  intro ledger before
  have ran := first ledger before
  rw [StateT.run_bind]
  generalize record : x.outcome ledger before = outcome, y.run ledger = rendered at ran ⊢
  cases ran with
  | error error leads =>
      rw [RecordM.outcome_bind_error record]
      exact .error error leads
  | @ok a b entries after met leads related =>
      have onward := rest a b met after (before ++ entries)
      rw [RecordM.outcome_bind_ok record]
      change Recorded S ledger before _ ((g b).run after)
      generalize (f a).outcome after _ = outcome, (g b).run after = rendered at onward ⊢
      cases onward with
      | error error leads' =>
          rw [List.append_assoc]
          exact .error error (leads.append leads')
      | ok last more leads' holds =>
          rw [List.append_assoc]
          exact .ok last (met ++ more) (leads.append leads') (holds related)

theorem records_enter (sources : List Source) :
    Records (fun _ met _ _ => met = []) (enter sources : RecordM Unit)
      (enter sources : RenderM Unit) := fun ledger _ =>
  .ok { ledger with aliases := ledger.aliases.addAll sources } [] (.cons sources (.nil _)) rfl

theorem records_aliasOf (id : SourceId) :
    Records (fun _ met t t' => met = [] ∧ t = t') (aliasOf id : RecordM String)
      (aliasOf id : RenderM String) := by
  intro ledger before
  change Recorded _ ledger before ((aliasOf id : RenderM String).run ledger, before) _
  cases named : ledger.aliases.alias? id with
  | some name =>
      rw [run_aliasOf named]
      exact .of_still rfl [] ⟨rfl, rfl⟩
  | none =>
      rw [run_aliasOf_none named]
      exact .of_error _

end Records

def recorded : Parallel RecordM RenderM String String Unit where
  Steps := Records
  Texts _ _ text text' := text = text'
  steps_mono := Records.mono
  steps_pure h _ _ := .of_still rfl [] (h ())
  steps_bind := Records.bind
  steps_throw error _ _ := .of_error error
  steps_enter := records_enter
  steps_aliasOf := records_aliasOf
  steps_placeholder capture _ _ := .of_still rfl [capture] rfl
  texts_nothing _ := rfl
  texts_ofText _ _ := rfl
  texts_ofValue _ _ := rfl
  texts_append := by
    rintro _ _ _ _ _ _ _ rfl rfl
    rfl

/-! ## Names -/

def record (l : Likeness) (q : Query) (ledger : Ledger) :
    Except RenderError (String × Ledger) × List Entry :=
  (select l q none : RecordM String).outcome ledger []

def tables (l : Likeness) (q : Query) (ledger : Ledger) : List Aliases :=
  ledger.aliases :: (record l q ledger).2.flatMap Entry.tables

/-- The record of a rendering leads to the names that it ends with. -/
theorem record_spec (l : Likeness) (q : Query) (ledger : Ledger) :
    (record l q ledger).1 = (select l q none : RenderM String).run ledger ∧
    ∃ last, Leads ledger.aliases (record l q ledger).2 last ∧
      ∀ text after, (select l q none : RenderM String).run ledger = .ok (text, after) →
        after.aliases = last := by
  have ran := recorded.steps_query l q ledger []
  unfold record
  generalize (select l q none : RecordM String).outcome ledger [] = outcome,
    (select l q none : RenderM String).run ledger = rendered at ran ⊢
  cases ran with
  | @error error entries last leads =>
      refine ⟨rfl, last, leads, ?_⟩
      rintro _ _ ⟨⟩
  | ok after met leads related =>
      obtain rfl := related
      refine ⟨rfl, after.aliases, leads, ?_⟩
      rintro _ _ ⟨⟩
      rfl

/-- Names are the words over the alphabet, each once, by length and then as in a dictionary. At
any time while a query is rendered, whether that succeeds or not, different sources have
different names, and a source that has a name has it ever after. A selection that is entered has
names for all its sources then. -/
theorem names_distinct_and_kept :
    Set.BijOn aliasName Set.univ {name | name.toList ≠ [] ∧ IsWord name.toList} ∧
    (∀ m n, List.Shortlex (· < ·) (aliasName m).toList (aliasName n).toList ↔ m < n) ∧
    ∀ (l : Likeness) (q : Query) (ledger : Ledger),
      (record l q ledger).1 = (select l q none : RenderM String).run ledger ∧
      (∀ text after, (select l q none : RenderM String).run ledger = .ok (text, after) →
        (tables l q ledger).getLast? = some after.aliases) ∧
      (∀ table ∈ tables l q ledger, ∀ id id' name, table.alias? id = some name →
        table.alias? id' = some name → id = id') ∧
      (tables l q ledger).Pairwise Aliases.KeptIn ∧
      ∀ entry ∈ (record l q ledger).2, entry.after ∈ tables l q ledger ∧
        ∀ source ∈ entry.sources, ∃ name, entry.after.alias? source.id = some name := by
  refine ⟨bijOn_aliasName, fun m n => shortlex_aliasName, fun l q ledger => ?_⟩
  obtain ⟨same, last, leads, ends⟩ := record_spec l q ledger
  refine ⟨same, fun text after ran => ?_, fun table _ id id' name => Aliases.alias?_inj,
    leads.grows.pairwise, fun entry here => leads.after_spec here⟩
  rw [ends text after ran]
  exact leads.grows.getLast?

/-- The accounts of a customer are counted in a selection of their own, within that of the
customers. -/
theorem names_distinct_and_kept_domesticAccounts :
    ∃ q, Reached.customers.chain "Customer" [.select Reached.domesticAccounts] = .ok q ∧
      let ledger : Ledger := ⟨"p", .empty, []⟩
      ((record rowsAlike q.normalize ledger).2.map fun entry =>
          (entry.before.names, entry.after.names)) =
        [([], [(0, "A")]), ([(0, "A")], [(0, "A"), (1, "B")])] ∧
      (tables rowsAlike q.normalize ledger).Pairwise Aliases.KeptIn ∧
      ∀ entry ∈ (record rowsAlike q.normalize ledger).2,
        ∀ source ∈ entry.sources, ∃ name, entry.after.alias? source.id = some name := by
  have ran : (Reached.customers.chain "Customer" [.select Reached.domesticAccounts]).map (fun q =>
      (record rowsAlike q.normalize ⟨"p", .empty, []⟩).2.map fun entry =>
        (entry.before.names, entry.after.names)) =
      .ok [([], [(0, "A")]), ([(0, "A")], [(0, "A"), (1, "B")])] := by
    decide +kernel
  obtain ⟨q, folds, entries⟩ := Compile.map_eq_ok.mp ran
  obtain ⟨-, -, names⟩ := names_distinct_and_kept
  obtain ⟨-, -, -, kept, named⟩ := names rowsAlike q.normalize ⟨"p", .empty, []⟩
  exact ⟨q, folds, entries, kept, fun entry here => (named entry here).2⟩

end StreamQuery.Rendering
