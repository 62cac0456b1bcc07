import StreamQuery.Proofs.Explain
import StreamQuery.Proofs.Phrases

/-! # Parameters of a query

A query is written place by place, and each captured variable that is met is written
as a placeholder. `Place.shown` lists the variables in the order of the places. A
variable becomes a parameter where it is met first, under the next number, and every
placeholder has the name of the one parameter that reads its own slot and cell.
-/

namespace StreamQuery

/-! ## Variables in the order of the text -/

namespace Rendering.Place

variable {l : Likeness} {p c : Place}

/-- The captured variables that are read at the places visited for a place, in the order of
the places: a variable once for each time that it is written. -/
def shown (l : Likeness) (p : Place) : List Capture :=
  match p.expr with
  | .param capture _ => [capture]
  | _ => (p.leads l).attach.flatMap fun c => c.1.shown l
termination_by sizeOf p.expr
decreasing_by exact Expr.sizeOf_lt_of_mem_parts (expr_mem_parts c.2)

theorem shown_param {around : List Select} {single : Bool} {capture : Capture} {t : ValueType} :
    shown l ⟨around, single, .param capture t⟩ = [capture] := by
  rw [shown]

theorem shown_eq_leads (other : ∀ capture t, p.expr ≠ .param capture t) :
    p.shown l = (p.leads l).flatMap (shown l) := by
  rw [shown]
  split
  · next found => exact absurd found (other _ _)
  · simp

end Rendering.Place

/-! ## What is written -/

theorem Rendering.Place.shown_eq_contents {l : Likeness} (p : Place) :
    p.shown l = (p.contents l).filterMap Fragment.capture? := by
  obtain ⟨around, single, e⟩ := p
  induction e using Expr.partsInduction true generalizing around single with
  | node e ih =>
      cases e with
      | constant value t =>
          rw [shown_eq_leads (by simp), contents_constant]
          rfl
      | param capture t =>
          rw [shown_param, contents_param]
          rfl
      | _ =>
          rw [shown_eq_leads (by simp), contents_eq_leads (by simp) (by simp),
            List.filterMap_flatMap]
          exact List.flatMap_congr fun c hc => ih c.expr (expr_mem_parts hc) c.around c.single

theorem Phrase.Frames.captures {ok : Char → Prop} {contents : List Fragment} {phrase : Phrase}
    (h : phrase.Frames ok contents) : phrase.captures = contents.filterMap Fragment.capture? := by
  induction h with
  | nil => rfl
  | text _ _ ih => exact ih
  | content _ _ _ ih =>
      rw [List.filterMap_cons, ← ih]
      rfl

/-! ## Parameters by first use -/

def Capture.shares (a b : Capture) : Bool := a.slot == b.slot && a.cell == b.cell

namespace Capture

theorem shares_iff {a b : Capture} : a.shares b = true ↔ a.slot = b.slot ∧ a.cell = b.cell := by
  simp [shares]

theorem shares_refl (a : Capture) : a.shares a = true := shares_iff.mpr ⟨rfl, rfl⟩

theorem shares_right {a b c : Capture} (h : a.shares b = true) : b.shares c = a.shares c := by
  obtain ⟨slot, cell⟩ := shares_iff.mp h
  simp [shares, slot, cell]

/-- Variables without those whose slot and cell an earlier one has. -/
def firstUses : List Capture → List Capture
  | [] => []
  | c :: cs => c :: (firstUses cs).filter fun later => !c.shares later

theorem firstUses_subset (cs : List Capture) : firstUses cs ⊆ cs := by
  induction cs with
  | nil => exact List.Subset.refl _
  | cons c cs ih =>
      exact List.cons_subset_cons c fun x hx => ih (List.mem_of_mem_filter hx)

theorem exists_firstUse {cs : List Capture} {c : Capture} (h : c ∈ cs) :
    ∃ first ∈ firstUses cs, first.shares c = true := by
  induction cs with
  | nil => cases h
  | cons d cs ih =>
      by_cases same : d.shares c = true
      · exact ⟨d, List.mem_cons_self, same⟩
      · rcases List.mem_cons.mp h with rfl | later
        · exact absurd c.shares_refl same
        · obtain ⟨first, mem, shares⟩ := ih later
          have kept : d.shares first = false := by
            refine Bool.eq_false_iff.mpr fun again => same ?_
            rw [← shares_right again]
            exact shares
          exact ⟨first, List.mem_cons_of_mem _ (List.mem_filter.mpr ⟨mem, by simp [kept]⟩), shares⟩

theorem firstUses_pairwise (cs : List Capture) :
    (firstUses cs).Pairwise fun a b => a.shares b = false := by
  induction cs with
  | nil => exact .nil
  | cons c cs ih =>
      refine .cons (fun b hb => ?_) (ih.filter _)
      simpa using (List.mem_filter.mp hb).2

/-- A variable that comes last is a first use, unless an earlier one has its slot and
cell. -/
theorem firstUses_concat (cs : List Capture) (c : Capture) :
    firstUses (cs ++ [c]) =
      if (firstUses cs).any (·.shares c) then firstUses cs else firstUses cs ++ [c] := by
  induction cs with
  | nil => rfl
  | cons d cs ih =>
      have used : (firstUses (d :: cs)).any (·.shares c) =
          (d.shares c || (firstUses cs).any (·.shares c)) := by
        by_cases same : d.shares c = true
        · simp [firstUses, same]
        · have kept (x : Capture) : (!d.shares x && x.shares c) = x.shares c := by
            by_cases again : d.shares x = true
            · simp [shares_right again, same]
            · simp [again]
          simp [firstUses, List.any_filter, kept]
      rw [used, List.cons_append, firstUses, firstUses, ih]
      by_cases same : d.shares c = true
      · split <;> simp [same]
      · split <;> simp_all

end Capture

def Binding.numbered (stem : String) (cs : List Capture) : List Binding :=
  cs.mapIdx fun index capture => ⟨index, stem ++ toString index, capture⟩

namespace Binding

theorem map_capture_numbered (stem : String) (cs : List Capture) :
    (numbered stem cs).map capture = cs := by
  refine List.ext_getElem? fun i => ?_
  simp [numbered, List.getElem?_mapIdx, Function.comp_def]

theorem numbered_concat (stem : String) (cs : List Capture) (c : Capture) :
    numbered stem (cs ++ [c]) =
      numbered stem cs ++ [⟨cs.length, stem ++ toString cs.length, c⟩] := by
  simp [numbered, List.mapIdx_append]

theorem length_numbered (stem : String) (cs : List Capture) :
    (numbered stem cs).length = cs.length :=
  List.length_mapIdx

theorem find?_numbered_eq_none {stem : String} {cs : List Capture} {c : Capture} :
    (numbered stem cs).find? (·.reads c) = none ↔ cs.any (·.shares c) = false := by
  rw [← Option.isNone_iff_eq_none, ← Option.isSome_eq_false_iff, List.isSome_find?]
  conv_rhs => rw [← map_capture_numbered stem cs, List.any_map]
  rfl

/-- Parameters are given out to variables by first use. -/
theorem allocateAll_eq_numbered (stem : String) (cs : List Capture) :
    allocateAll stem [] cs = numbered stem (Capture.firstUses cs) := by
  induction cs using List.reverseRecOn with
  | nil => rfl
  | append_singleton cs c ih =>
      rw [allocateAll_append, ih, Capture.firstUses_concat]
      change (allocate stem (numbered stem (Capture.firstUses cs)) c).2 = _
      unfold allocate
      cases found : (numbered stem (Capture.firstUses cs)).find? (·.reads c) with
      | some binding =>
          have used : (Capture.firstUses cs).any (·.shares c) = true := by
            refine Bool.not_eq_false _ ▸ fun unused => ?_
            rw [find?_numbered_eq_none.mpr unused] at found
            cases found
          rw [if_pos used]
      | none =>
          have unused := find?_numbered_eq_none.mp found
          rw [if_neg (by simp [unused]), numbered_concat, length_numbered]

end Binding

/-! ## Parameters of a rendering -/

/-- Parameters stand for the variables of a list by first use: numbered and named in
order, no two of one name, and exactly one for the slot and cell of each variable. -/
structure BindsFirstUses (stem : String) (shown : List Capture) (bindings : List Binding) :
    Prop where
  captures : bindings.map Binding.capture = Capture.firstUses shown
  named : ∀ (i : Nat) (b : Binding), bindings[i]? = some b →
    b.index = i ∧ b.name = stem ++ toString i
  names : (bindings.map Binding.name).Nodup
  unique : ∀ c ∈ shown, ∃! b, b ∈ bindings ∧ b.reads c = true
  used : ∀ b ∈ bindings, b.capture ∈ shown

theorem bindsFirstUses_numbered (stem : String) (shown : List Capture) :
    BindsFirstUses stem shown (Binding.numbered stem (Capture.firstUses shown)) := by
  have captures := Binding.map_capture_numbered stem (Capture.firstUses shown)
  have named : ∀ (i : Nat) (b : Binding),
      (Binding.numbered stem (Capture.firstUses shown))[i]? = some b →
      b.index = i ∧ b.name = stem ++ toString i := by
    intro i b found
    rw [Binding.numbered, List.getElem?_mapIdx] at found
    obtain ⟨c, -, rfl⟩ := Option.map_eq_some_iff.mp found
    exact ⟨rfl, rfl⟩
  generalize Binding.numbered stem (Capture.firstUses shown) = bindings at captures named
  have apart (i j : Nat) (hi : i < bindings.length) (hj : j < bindings.length) (lt : i < j) :
      bindings[i].capture.shares bindings[j].capture = false := by
    have pairwise := Capture.firstUses_pairwise shown
    rw [← captures, List.pairwise_map] at pairwise
    exact List.pairwise_iff_getElem.mp pairwise i j hi hj lt
  refine ⟨captures, named, ?_, fun c hc => ?_, fun b hb => ?_⟩
  · refine List.pairwise_map.mpr (List.pairwise_iff_getElem.mpr fun i j hi hj lt same => ?_)
    rw [(named i _ (List.getElem?_eq_getElem hi)).2, (named j _ (List.getElem?_eq_getElem hj)).2,
      String.append_right_inj] at same
    exact absurd (Nat.repr_injective same) (Nat.ne_of_lt lt)
  · obtain ⟨first, mem, shares⟩ := Capture.exists_firstUse hc
    rw [← captures] at mem
    obtain ⟨b, hb, rfl⟩ := List.mem_map.mp mem
    refine ⟨b, ⟨hb, shares⟩, fun b' ⟨hb', shares'⟩ => ?_⟩
    -- Two parameters for one slot and cell would be one.
    obtain ⟨i, hi, rfl⟩ := List.getElem_of_mem hb
    obtain ⟨j, hj, rfl⟩ := List.getElem_of_mem hb'
    have joint {a b : Capture} (ha : a.shares c = true) (hb : b.shares c = true) :
        a.shares b = true := by
      obtain ⟨slot, cell⟩ := Capture.shares_iff.mp ha
      obtain ⟨slot', cell'⟩ := Capture.shares_iff.mp hb
      exact Capture.shares_iff.mpr ⟨slot.trans slot'.symm, cell.trans cell'.symm⟩
    rcases Nat.lt_trichotomy i j with lt | rfl | lt
    · exact absurd (joint shares shares') (by simp [apart i j hi hj lt])
    · rfl
    · exact absurd (joint shares' shares) (by simp [apart j i hj hi lt])
  · exact Capture.firstUses_subset shown (captures ▸ List.mem_map_of_mem hb)

namespace Query

open Rendering

variable {q : Query} {settings : Settings} {r : Rendered}

/-- The parameters of a rendering are the captured variables of its text in the order of
first use, and the text has the name of its own parameter in the place of each. -/
theorem render_parameters (h : q.render settings = .ok r) :
    BindsFirstUses settings.paramStem (q.place.shown rowsAlike) r.bindings ∧
      ∃ phrase aliases,
        (select rowsAlike q.normalize none : DraftM Phrase).run .empty = .ok (phrase, aliases) ∧
          phrase.captures = q.place.shown rowsAlike ∧ r.text = phrase.spelled r.bindings := by
  obtain ⟨phrase, aliases, ran, text, bindings⟩ := exists_draft_of_render h
  have shown : phrase.captures = q.place.shown rowsAlike := by
    rw [Place.shown_eq_contents]
    exact (frames_query (fun _ _ => trivial) (Select.named_any _) ran).captures
  refine ⟨?_, phrase, aliases, ran, shown, text⟩
  rw [bindings, Binding.allocateAll_eq_numbered, shown]
  exact bindsFirstUses_numbered _ _

def accountsIn : Closure where
  body := ⟨1, [.entity "Customer"], [.text], .any,
    [.loadParam 0, .invoke ⟨"Customer", "getAccounts", 0, false⟩,
      .invoke ⟨"JinqStream", "from", 1, true⟩,
      .makeClosure ⟨2, [.entity "Account"], [.text], .bool,
        [.loadParam 0, .invoke ⟨"Account", "getCountry", 0, false⟩, .loadCapture 0,
          .invoke ⟨"String", "equals", 1, false⟩, .ret]⟩ [.capture 0],
      .invoke ⟨"JinqStream", "where", 1, false⟩, .invoke ⟨"JinqStream", "count", 0, false⟩,
      .loadCapture 0, .newTuple 2, .ret]⟩
  captured := [⟨7⟩]

/-- The country is read twice and is one parameter. -/
theorem text_accountsIn : (Reached.customers.chain "Customer" [.select accountsIn]).map
    (fun q => (q.render {}).map (·.text)) = .ok (.ok
      ("SELECT (SELECT COUNT(B) FROM A.accounts B WHERE ((B.country) = :param0)), :param0 " ++
        "FROM Customer A")) := by
  decide +kernel

theorem render_parameters_accountsIn :
    ∃ q r, Reached.customers.chain "Customer" [.select accountsIn] = .ok q ∧
      q.render {} = .ok r ∧
      BindsFirstUses "param" (q.place.shown rowsAlike) r.bindings ∧
      ∃ phrase aliases,
        (select rowsAlike q.normalize none : DraftM Phrase).run .empty = .ok (phrase, aliases) ∧
          phrase.captures = q.place.shown rowsAlike ∧ r.text = phrase.spelled r.bindings := by
  obtain ⟨q, folds, rendered⟩ := Compile.map_eq_ok.mp text_accountsIn
  obtain ⟨r, renders, -⟩ := Compile.map_eq_ok.mp rendered
  exact ⟨q, r, folds, renders, render_parameters renders⟩

end Query

end StreamQuery
