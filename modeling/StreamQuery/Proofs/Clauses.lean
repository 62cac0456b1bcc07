import StreamQuery.Expr.Parts
import StreamQuery.Proofs.Revision

/-! # Clauses of a selection

A selection is its clauses, the expressions that it holds, in a skeleton of
everything else. Functions that go over the tree of an expression treat a nested
query clause by clause, so what they do to a selection is what they do to a list
of expressions. Induction over a tree then needs no more than the clauses of its
nested queries.
-/

namespace StreamQuery

def Source.path? : Source → Option Expr
  | entity .. => none
  | navigation _ path _ => some path

def Source.skeleton : Source → Source
  | entity id name => entity id name
  | navigation id _ rowType => navigation id default rowType

def SortKey.skeleton (k : SortKey) : SortKey := ⟨default, k.direction⟩

namespace Select

def clauses (s : Select) : List Expr :=
  s.sources.filterMap Source.path? ++ s.filters ++ s.projection.toList ++ s.groupBy ++ s.having ++
    s.orderBy.map SortKey.key

/-- A selection without its expressions and its mark. -/
def skeleton (s : Select) : Select :=
  { s with
    sources := s.sources.map Source.skeleton
    filters := s.filters.map fun _ => default
    projection := s.projection.map fun _ => default
    groupBy := s.groupBy.map fun _ => default
    having := s.having.map fun _ => default
    orderBy := s.orderBy.map SortKey.skeleton
    mark := 0 }

end Select

/-! ## Induction -/

theorem Select.sizeOf_lt_of_mem_clauses {s : Select} {c : Expr} (h : c ∈ s.clauses) :
    sizeOf c < sizeOf s := by
  obtain ⟨sources, filters, projection, groupBy, having, orderBy, shape, distinct, skip, limit,
    nextSource, mark⟩ := s
  simp only [clauses, List.mem_append, List.mem_filterMap, List.mem_map, Option.mem_toList] at h
  simp only [Select.mk.sizeOf_spec]
  rcases h with ((((⟨source, hs, path⟩ | h) | h) | h) | h) | ⟨key, hk, rfl⟩
  · have inside := List.sizeOf_lt_of_mem hs
    cases source with
    | entity id name => cases path
    | navigation id base rowType =>
        cases path
        simp only [Source.navigation.sizeOf_spec] at inside
        omega
  · have inside := List.sizeOf_lt_of_mem h
    omega
  · obtain rfl := h
    simp only [Option.some.sizeOf_spec]
    omega
  · have inside := List.sizeOf_lt_of_mem h
    omega
  · have inside := List.sizeOf_lt_of_mem h
    omega
  · have inside := List.sizeOf_lt_of_mem hk
    cases key
    simp only [SortKey.mk.sizeOf_spec] at inside ⊢
    omega

namespace Expr

/-- The children of a node and, for a deep pass, the clauses of its query: what a
pass revises before the node. -/
def parts (deep : Bool) (e : Expr) : List Expr :=
  e.children ++ if deep then (e.query?.map fun q => q.current.clauses).getD [] else []

theorem mem_parts_true {e c : Expr} :
    c ∈ e.parts true ↔ c ∈ e.children ∨ ∃ q ∈ e.query?, c ∈ q.current.clauses := by
  cases h : e.query? <;> simp [parts, h]

theorem mem_parts_true_of_mem {deep : Bool} {e c : Expr} (h : c ∈ e.parts deep) :
    c ∈ e.parts true := by
  cases deep with
  | true => exact h
  | false => exact mem_parts_true.mpr (.inl (by simpa [parts] using h))

theorem sizeOf_lt_of_mem_parts {deep : Bool} {e c : Expr} (h : c ∈ e.parts deep) :
    sizeOf c < sizeOf e := by
  rcases mem_parts_true.mp (mem_parts_true_of_mem h) with h | ⟨q, hq, h⟩
  · cases e with
    | constant | param | row | element | subQuery => cases h
    | path base field t | component base index t | unary op operand t =>
        obtain rfl := List.mem_singleton.mp h
        simp
        omega
    | binary op left right t =>
        simp only [children, List.mem_cons, List.not_mem_nil, or_false] at h
        rcases h with rfl | rfl <;> simp <;> omega
    | conditional test yes no t =>
        simp only [children, List.mem_cons, List.not_mem_nil, or_false] at h
        rcases h with rfl | rfl | rfl <;> simp <;> omega
    | tuple items t | call fn items t =>
        have inside : sizeOf c < sizeOf items := List.sizeOf_lt_of_mem h
        simp
        omega
    | aggregate fn arg q t =>
        obtain rfl : arg = some c := Option.mem_toList.mp h
        simp
        omega
  · have inside : sizeOf c < sizeOf q.current := Select.sizeOf_lt_of_mem_clauses h
    have within : sizeOf q.current < sizeOf q := by
      cases q
      simp
      omega
    cases e <;> cases hq
    all_goals
      simp
      omega

theorem partsInduction {motive : Expr → Prop} (deep : Bool)
    (node : ∀ e : Expr, (∀ c ∈ e.parts deep, motive c) → motive e) (e : Expr) : motive e :=
  node e fun c _ => partsInduction deep node c
termination_by sizeOf e
decreasing_by exact sizeOf_lt_of_mem_parts ‹_›

/-- Induction over a tree and the clauses of its nested queries, a case for each node. -/
@[elab_as_elim]
theorem treeInduction {motive : Expr → Prop}
    (constant : ∀ value t, motive (.constant value t))
    (param : ∀ capture t, motive (.param capture t))
    (row : ∀ source t, motive (.row source t))
    (element : ∀ scope t, motive (.element scope t))
    (path : ∀ base field t, motive base → motive (.path base field t))
    (component : ∀ base index t, motive base → motive (.component base index t))
    (unary : ∀ op operand t, motive operand → motive (.unary op operand t))
    (binary : ∀ op left right t, motive left → motive right → motive (.binary op left right t))
    (conditional : ∀ test yes no t, motive test → motive yes → motive no →
      motive (.conditional test yes no t))
    (tuple : ∀ items t, (∀ e ∈ items, motive e) → motive (.tuple items t))
    (call : ∀ fn args t, (∀ e ∈ args, motive e) → motive (.call fn args t))
    (aggregate : ∀ fn arg query t, (∀ e ∈ arg, motive e) →
      (∀ e ∈ query.current.clauses, motive e) → motive (.aggregate fn arg query t))
    (subQuery : ∀ query t, (∀ e ∈ query.current.clauses, motive e) → motive (.subQuery query t))
    (e : Expr) : motive e := by
  induction e using partsInduction true with
  | node e ih =>
      have child : ∀ c ∈ e.children, motive c := fun c hc => ih c (mem_parts_true.mpr (.inl hc))
      have clause : ∀ q ∈ e.query?, ∀ c ∈ q.current.clauses, motive c := fun q hq c hc =>
        ih c (mem_parts_true.mpr (.inr ⟨q, hq, hc⟩))
      cases e with
      | constant value t => exact constant value t
      | param capture t => exact param capture t
      | row source t => exact row source t
      | element scope t => exact element scope t
      | path base field t => exact path base field t (child base (by simp [children]))
      | component base index t => exact component base index t (child base (by simp [children]))
      | unary op operand t => exact unary op operand t (child operand (by simp [children]))
      | binary op left right t =>
          exact binary op left right t (child left (by simp [children]))
            (child right (by simp [children]))
      | conditional test yes no t =>
          exact conditional test yes no t (child test (by simp [children]))
            (child yes (by simp [children])) (child no (by simp [children]))
      | tuple items t => exact tuple items t child
      | call fn args t => exact call fn args t child
      | aggregate fn arg query t =>
          exact aggregate fn arg query t (fun e he => child e (Option.mem_toList.mpr he))
            (clause query rfl)
      | subQuery query t => exact subQuery query t (clause query rfl)

end Expr

/-! ## A selection from its skeleton and clauses -/

namespace Source

/-- Two lists of sources with one skeleton start alike. -/
theorem cons_of_skeleton {s : Source} {ss ts : List Source}
    (h : (s :: ss).map skeleton = ts.map skeleton) :
    ∃ t rest, ts = t :: rest ∧ s.skeleton = t.skeleton ∧ ss.map skeleton = rest.map skeleton := by
  cases ts with
  | nil => simp at h
  | cons t rest =>
      rw [List.map_cons, List.map_cons, List.cons.injEq] at h
      exact ⟨t, rest, rfl, h.1, h.2⟩

theorem eq_of_skeleton {ss ts : List Source} (hs : ss.map skeleton = ts.map skeleton)
    (hp : ss.filterMap path? = ts.filterMap path?) : ss = ts := by
  induction ss generalizing ts with
  | nil => simpa using hs.symm
  | cons s ss ih =>
      obtain ⟨t, rest, rfl, head, tail⟩ := cons_of_skeleton hs
      cases s <;> cases t <;> simp only [skeleton, reduceCtorEq, entity.injEq,
        navigation.injEq] at head
      · have same := ih tail (by simpa [path?, List.filterMap_cons] using hp)
        rw [head.1, head.2, same]
      · simp only [path?, List.filterMap_cons, List.cons.injEq] at hp
        rw [head.1, head.2.2, hp.1, ih tail hp.2]

theorem length_paths {ss ts : List Source} (hs : ss.map skeleton = ts.map skeleton) :
    (ss.filterMap path?).length = (ts.filterMap path?).length := by
  induction ss generalizing ts with
  | nil =>
      have : ts = [] := by simpa using hs.symm
      rw [this]
  | cons s ss ih =>
      obtain ⟨t, rest, rfl, head, tail⟩ := cons_of_skeleton hs
      have same := ih tail
      cases s <;> cases t <;> simp only [skeleton, reduceCtorEq] at head <;>
        simpa [path?, List.filterMap_cons] using same

end Source

theorem SortKey.eq_of_skeleton {ks ms : List SortKey} (hd : ks.map skeleton = ms.map skeleton)
    (hk : ks.map key = ms.map key) : ks = ms := by
  induction ks generalizing ms with
  | nil => simpa using hk.symm
  | cons k ks ih =>
      cases ms with
      | nil => simp at hk
      | cons m ms =>
          obtain ⟨key, direction⟩ := k
          obtain ⟨key', direction'⟩ := m
          simp only [List.map_cons, List.cons.injEq, skeleton, SortKey.mk.injEq, true_and] at hd hk
          rw [hd.1, hk.1, ih hd.2 hk.2]

namespace Select

/-- Lengths of the parts of two clause lists with one skeleton. -/
theorem lengths_of_skeleton {s t : Select} (h : s.skeleton = t.skeleton) :
    (s.sources.filterMap Source.path?).length = (t.sources.filterMap Source.path?).length ∧
      s.filters.length = t.filters.length ∧
      s.projection.toList.length = t.projection.toList.length ∧
      s.groupBy.length = t.groupBy.length ∧ s.having.length = t.having.length := by
  simp only [skeleton, Select.mk.injEq] at h
  obtain ⟨hs, hf, hp, hg, hh, -⟩ := h
  refine ⟨Source.length_paths hs, by simpa using congrArg List.length hf, ?_,
    by simpa using congrArg List.length hg, by simpa using congrArg List.length hh⟩
  cases hp' : s.projection <;> cases hq : t.projection <;> simp_all

theorem eq_of_clauses {s t : Select} (h : s.skeleton = t.skeleton) (hm : s.mark = t.mark)
    (hc : s.clauses = t.clauses) : s = t := by
  obtain ⟨ls, lf, lp, lg, lh⟩ := lengths_of_skeleton h
  simp only [clauses] at hc
  obtain ⟨hc, hk⟩ := List.append_inj hc (by simp [ls, lf, lp, lg, lh])
  obtain ⟨hc, hh⟩ := List.append_inj hc (by simp [ls, lf, lp, lg])
  obtain ⟨hc, hg⟩ := List.append_inj hc (by simp [ls, lf, lp])
  obtain ⟨hc, hp⟩ := List.append_inj hc (by simp [ls, lf])
  obtain ⟨hs, hf⟩ := List.append_inj hc ls
  have hp : s.projection = t.projection := by simpa using congrArg List.head? hp
  simp only [skeleton, Select.mk.injEq] at h
  obtain ⟨es, -, -, -, -, ek, e₁, e₂, e₃, e₄, e₅, -⟩ := h
  obtain ⟨sources, filters, projection, groupBy, having, orderBy⟩ := s
  obtain ⟨sources', filters', projection', groupBy', having', orderBy'⟩ := t
  simp only at *
  rw [Source.eq_of_skeleton es hs, SortKey.eq_of_skeleton ek hk, hp, hf, hg, hh,
    e₁, e₂, e₃, e₄, e₅, hm]

end Select

/-! ## Reaching, comparing and revising clause by clause -/

namespace Expr

theorem reachAll_append {stop : Expr → Bool} (as bs : List Expr) :
    reachAll stop (as ++ bs) = reachAll stop as ++ reachAll stop bs := by
  induction as with
  | nil => rfl
  | cons a as ih => rw [List.cons_append, reachAll, ih, reachAll, List.append_assoc]

theorem reachOption_eq {stop : Expr → Bool} (arg : Option Expr) :
    reachOption stop arg = reachAll stop arg.toList := by
  cases arg <;> simp [reachOption, reachAll]

theorem likeAll_append {l : Likeness} {as bs cs ds : List Expr} (h : as.length = bs.length) :
    likeAll l (as ++ cs) (bs ++ ds) = (likeAll l as bs && likeAll l cs ds) := by
  induction as generalizing bs with
  | nil =>
      cases bs with
      | nil => simp [likeAll]
      | cons b bs => simp at h
  | cons a as ih =>
      cases bs with
      | nil => simp at h
      | cons b bs =>
          rw [List.cons_append, List.cons_append, likeAll, likeAll, ih (by simpa using h),
            Bool.and_assoc]

theorem length_eq_of_likeAll {l : Likeness} {as bs : List Expr} (h : likeAll l as bs = true) :
    as.length = bs.length := by
  induction as generalizing bs with
  | nil => cases bs <;> simp_all [likeAll]
  | cons a as ih =>
      cases bs with
      | nil => simp [likeAll] at h
      | cons b bs =>
          rw [likeAll, Bool.and_eq_true] at h
          rw [List.length_cons, List.length_cons, ih h.2]

theorem likeOption_eq {l : Likeness} (a b : Option Expr) :
    likeOption l a b = likeAll l a.toList b.toList := by
  cases a <;> cases b <;> simp [likeOption, likeAll]

end Expr

theorem Source.reachAll_eq {stop : Expr → Bool} (ss : List Source) :
    Source.reachAll stop ss = Expr.reachAll stop (ss.filterMap path?) := by
  induction ss with
  | nil => rfl
  | cons s ss ih =>
      cases s <;> simp [Source.reachAll, ih, path?, List.filterMap_cons, Expr.reachAll]

theorem SortKey.reachAll_eq {stop : Expr → Bool} (ks : List SortKey) :
    SortKey.reachAll stop ks = Expr.reachAll stop (ks.map key) := by
  induction ks with
  | nil => rfl
  | cons k ks ih =>
      obtain ⟨key, direction⟩ := k
      rw [SortKey.reachAll, ih, List.map_cons, Expr.reachAll]

theorem Query.reach_eq {stop : Expr → Bool} (q : Query) :
    q.reach stop = Expr.reachAll stop q.current.clauses := by
  obtain ⟨⟨⟩, past⟩ := q
  simp only [Query.reach, Select.reach, Select.clauses, Expr.reachAll_append, Source.reachAll_eq,
    SortKey.reachAll_eq, Expr.reachOption_eq]

theorem Source.likeAll_iff {l : Likeness} {ss ts : List Source} :
    Source.likeAll l ss ts = true ↔ ss.map skeleton = ts.map skeleton ∧
      Expr.likeAll l (ss.filterMap path?) (ts.filterMap path?) = true := by
  induction ss generalizing ts with
  | nil => cases ts <;> simp [Source.likeAll, Expr.likeAll]
  | cons s ss ih =>
      cases ts with
      | nil => simp [Source.likeAll]
      | cons t ts =>
          cases s <;> cases t <;>
            simp [Source.likeAll, ih, skeleton, path?, List.filterMap_cons, Expr.likeAll,
              and_assoc, and_left_comm]

theorem SortKey.likeAll_iff {l : Likeness} {ks ms : List SortKey} :
    SortKey.likeAll l ks ms = true ↔ ks.map skeleton = ms.map skeleton ∧
      Expr.likeAll l (ks.map key) (ms.map key) = true := by
  induction ks generalizing ms with
  | nil => cases ms <;> simp [SortKey.likeAll, Expr.likeAll]
  | cons k ks ih =>
      cases ms with
      | nil => simp [SortKey.likeAll.eq_def]
      | cons m ms =>
          obtain ⟨key, direction⟩ := k
          obtain ⟨key', direction'⟩ := m
          simp [SortKey.likeAll, skeleton, ih, Expr.likeAll, and_assoc, and_left_comm]

/-- Selections are alike if they have one skeleton and clauses that are alike. -/
theorem Select.like_iff {l : Likeness} {s t : Select} : Select.like l s t = true ↔
    l.mark s.mark t.mark = true ∧ s.skeleton = t.skeleton ∧
      Expr.likeAll l s.clauses t.clauses = true := by
  -- The lists of two skeletons are equal if they are equally long.
  have blank : ∀ {as bs : List Expr}, Expr.likeAll l as bs = true →
      as.map (fun _ => (default : Expr)) = bs.map fun _ => default := by
    intro as bs h
    rw [List.map_const', List.map_const', Expr.length_eq_of_likeAll h]
  constructor
  · intro h
    obtain ⟨sources, filters, projection, groupBy, having, orderBy⟩ := s
    simp only [Select.like, Bool.and_eq_true, decide_eq_true_eq, beq_iff_eq, Source.likeAll_iff,
      SortKey.likeAll_iff, Expr.likeOption_eq] at h
    obtain ⟨⟨⟨⟨⟨⟨⟨⟨⟨⟨⟨h₁, h₂⟩, h₃⟩, h₄⟩, h₅⟩, hm⟩, es, hs⟩, hf⟩, hp⟩, hg⟩, hh⟩, ek, hk⟩ := h
    have ep : projection.map (fun _ => (default : Expr)) = t.projection.map fun _ => default := by
      have := Expr.length_eq_of_likeAll hp
      cases projection <;> cases ht : t.projection <;> simp_all
    refine ⟨hm, ?_, ?_⟩
    · simp only [skeleton, Select.mk.injEq]
      exact ⟨es, blank hf, ep, blank hg, blank hh, ek, h₁, h₂, h₃, h₄, h₅, trivial⟩
    · have ls := Expr.length_eq_of_likeAll hs
      have lf := Expr.length_eq_of_likeAll hf
      have lp := Expr.length_eq_of_likeAll hp
      have lg := Expr.length_eq_of_likeAll hg
      have lh := Expr.length_eq_of_likeAll hh
      simp only [clauses]
      rw [Expr.likeAll_append (by simp [ls, lf, lp, lg, lh]),
        Expr.likeAll_append (by simp [ls, lf, lp, lg]), Expr.likeAll_append (by simp [ls, lf, lp]),
        Expr.likeAll_append (by simp [ls, lf]), Expr.likeAll_append ls, hs, hf, hp, hg, hh, hk]
      rfl
  · rintro ⟨hm, h, hc⟩
    obtain ⟨ls, lf, lp, lg, lh⟩ := lengths_of_skeleton h
    simp only [clauses] at hc
    rw [Expr.likeAll_append (by simp [ls, lf, lp, lg, lh]),
      Expr.likeAll_append (by simp [ls, lf, lp, lg]), Expr.likeAll_append (by simp [ls, lf, lp]),
      Expr.likeAll_append (by simp [ls, lf]), Expr.likeAll_append ls] at hc
    simp only [Bool.and_eq_true] at hc
    obtain ⟨⟨⟨⟨⟨hs, hf⟩, hp⟩, hg⟩, hh⟩, hk⟩ := hc
    simp only [skeleton, Select.mk.injEq] at h
    obtain ⟨es, -, -, -, -, ek, h₁, h₂, h₃, h₄, h₅, -⟩ := h
    obtain ⟨sources, filters, projection, groupBy, having, orderBy⟩ := s
    simp only [Select.like, Bool.and_eq_true, decide_eq_true_eq, beq_iff_eq, Source.likeAll_iff,
      SortKey.likeAll_iff, Expr.likeOption_eq]
    exact ⟨⟨⟨⟨⟨⟨⟨⟨⟨⟨⟨h₁, h₂⟩, h₃⟩, h₄⟩, h₅⟩, hm⟩, es, hs⟩, hf⟩, hp⟩, hg⟩, hh⟩, ek, hk⟩

theorem Query.like_iff {l : Likeness} {q r : Query} : Query.like l q r = true ↔
    Select.like l q.current r.current = true ∧
      Select.likeEach l.ofPast q.past r.past = true := by
  obtain ⟨current, past⟩ := q
  rw [Query.like, Bool.and_eq_true]

/-! ## Revising clause by clause -/

namespace Pass

variable {pass : Pass}

theorem isSome_revised {α β γ : Type} {join : α → β → γ} {a : α} {a' : Option α} {b : β}
    {b' : Option β} : (revised join a a' b b').isSome = (a'.isSome || b'.isSome) := by
  cases a' <;> cases b' <;> rfl

theorem isSome_reviseAll {es : List Expr} :
    (Expr.reviseAll pass es).isSome = es.any fun e => (e.revise pass).isSome := by
  induction es with
  | nil => rfl
  | cons e es ih => rw [Expr.reviseAll, isSome_revised, ih, List.any_cons]

theorem isSome_reviseOption {arg : Option Expr} :
    (Expr.reviseOption pass arg).isSome = arg.toList.any fun e => (e.revise pass).isSome := by
  cases arg <;> simp [Expr.reviseOption]

theorem isSome_reviseSources {ss : List Source} : (Source.reviseAll pass ss).isSome =
    (ss.filterMap Source.path?).any fun e => (e.revise pass).isSome := by
  induction ss with
  | nil => rfl
  | cons s ss ih =>
      cases s <;> simp [Source.reviseAll, isSome_revised, ih, Source.path?, List.filterMap_cons]

theorem reviseSources_getD (ss : List Source) :
    ((Source.reviseAll pass ss).getD ss).map Source.skeleton = ss.map Source.skeleton ∧
      ((Source.reviseAll pass ss).getD ss).filterMap Source.path? =
        (ss.filterMap Source.path?).map pass.result := by
  induction ss with
  | nil => exact ⟨rfl, rfl⟩
  | cons s ss ih =>
      cases s with
      | entity id name =>
          have whole : (Source.reviseAll pass (.entity id name :: ss)).getD (.entity id name :: ss) =
              .entity id name :: (Source.reviseAll pass ss).getD ss := by
            rw [Source.reviseAll]
            cases Source.reviseAll pass ss <;> rfl
          rw [whole]
          exact ⟨congrArg (Source.entity id name :: ·) ih.1, ih.2⟩
      | navigation id path rowType =>
          rw [Source.reviseAll,
            revised_getD fun path rest => Source.navigation id path rowType :: rest]
          exact ⟨congrArg (Source.navigation id default rowType :: ·) ih.1,
            congrArg (pass.result path :: ·) ih.2⟩

theorem isSome_reviseKeys {ks : List SortKey} : (SortKey.reviseAll pass ks).isSome =
    (ks.map SortKey.key).any fun e => (e.revise pass).isSome := by
  induction ks with
  | nil => rfl
  | cons k ks ih =>
      obtain ⟨key, direction⟩ := k
      rw [SortKey.reviseAll, isSome_revised, ih, List.map_cons, List.any_cons]

theorem reviseKeys_getD (ks : List SortKey) :
    ((SortKey.reviseAll pass ks).getD ks).map SortKey.skeleton = ks.map SortKey.skeleton ∧
      ((SortKey.reviseAll pass ks).getD ks).map SortKey.key =
        (ks.map SortKey.key).map pass.result := by
  induction ks with
  | nil => exact ⟨rfl, rfl⟩
  | cons k ks ih =>
      obtain ⟨key, direction⟩ := k
      rw [SortKey.reviseAll, revised_getD fun key rest => SortKey.mk key direction :: rest]
      exact ⟨congrArg (SortKey.mk default direction :: ·) ih.1,
        congrArg (pass.result key :: ·) ih.2⟩

def resultSelect (pass : Pass) (s : Select) : Select := (Select.revise pass s).getD s

theorem isSome_reviseSelect {s : Select} :
    (Select.revise pass s).isSome = s.clauses.any fun e => (e.revise pass).isSome := by
  obtain ⟨sources, filters, projection, groupBy, having, orderBy⟩ := s
  simp only [Select.revise, Select.clauses, List.any_append, isSome_reviseSources,
    isSome_reviseKeys, isSome_reviseAll, isSome_reviseOption]
  split
  · next h => rw [Option.isSome_some, h]
  · next h => rw [Option.isSome_none, (Bool.not_eq_true _).mp h]

theorem resultSelect_eq (s : Select) : pass.resultSelect s =
    { s with
      sources := (Source.reviseAll pass s.sources).getD s.sources
      filters := (Expr.reviseAll pass s.filters).getD s.filters
      projection := (Expr.reviseOption pass s.projection).getD s.projection
      groupBy := (Expr.reviseAll pass s.groupBy).getD s.groupBy
      having := (Expr.reviseAll pass s.having).getD s.having
      orderBy := (SortKey.reviseAll pass s.orderBy).getD s.orderBy } := by
  obtain ⟨sources, filters, projection, groupBy, having, orderBy⟩ := s
  simp only [resultSelect, Select.revise]
  split
  · rfl
  · next h =>
      simp only [Bool.or_eq_true, not_or, Bool.not_eq_true, Option.isSome_eq_false_iff,
        Option.isNone_iff_eq_none] at h
      simp [h]

theorem clauses_resultSelect (s : Select) :
    (pass.resultSelect s).clauses = s.clauses.map pass.result := by
  rw [resultSelect_eq]
  simp only [Select.clauses, reviseSources_getD, reviseKeys_getD, reviseAll_getD,
    reviseOption_getD, List.map_append, Option.toList_map]

theorem skeleton_resultSelect (s : Select) :
    (pass.resultSelect s).skeleton = s.skeleton := by
  rw [resultSelect_eq]
  simp only [Select.skeleton, reviseSources_getD, reviseKeys_getD, reviseAll_getD,
    reviseOption_getD, List.map_map, Option.map_map]
  rfl

theorem mark_resultSelect (s : Select) : (pass.resultSelect s).mark = s.mark := by
  rw [resultSelect_eq]

end Pass

/-! ## Parts of a node -/

/-- The type that its parts give to a node that is built anew. -/
def Expr.rebuiltType : Expr → ValueType
  | tuple items _ => .tuple (items.map type)
  | subQuery query _ => .stream query.rowType
  | e => e.type

namespace Pass

variable {pass : Pass}

theorem isSome_reviseQuery {q : Query} : (Query.revise pass q).isSome =
    (if pass.deep then q.current.clauses else []).any fun e => (e.revise pass).isSome := by
  obtain ⟨current, past⟩ := q
  rw [Query.revise]
  split
  · rw [Option.isSome_map, isSome_reviseSelect]
  · rfl

theorem resultQuery_eq (q : Query) : pass.resultQuery q =
    if pass.deep then ⟨pass.resultSelect q.current, q.past⟩ else q := by
  obtain ⟨current, past⟩ := q
  rw [resultQuery, Query.revise, resultSelect]
  split
  · cases Select.revise pass current <;> rfl
  · rfl

theorem clauses_resultQuery (q : Query) :
    (if pass.deep then (pass.resultQuery q).current.clauses else []) =
      (if pass.deep then q.current.clauses else []).map pass.result := by
  rw [resultQuery_eq]
  split
  · exact clauses_resultSelect q.current
  · rfl

/-- A node is rebuilt if one of its parts was revised. -/
theorem isSome_rebuilt {e : Expr} : (pass.rebuilt e).isSome =
    (e.parts pass.deep).any fun c => (c.revise pass).isSome := by
  cases e with
  | aggregate fn arg query t =>
      simp only [rebuilt, Expr.parts, Expr.children, Expr.query?, List.any_append, isSome_revised,
        isSome_reviseOption, isSome_reviseQuery, Option.map_some, Option.getD_some]
  | subQuery query t =>
      simp only [rebuilt, Expr.parts, Expr.children, Expr.query?, Option.isSome_map,
        isSome_reviseQuery, Option.map_some, Option.getD_some, List.nil_append]
  | _ =>
      simp [rebuilt, Expr.parts, Expr.children, Expr.query?, isSome_revised, isSome_reviseAll]

/-- The parts of a rebuilt node are the revised parts. -/
theorem parts_rebuild (e : Expr) :
    (pass.rebuild e).parts pass.deep = (e.parts pass.deep).map pass.result := by
  cases e with
  | aggregate fn arg query t =>
      simp only [rebuild_aggregate, Expr.parts, Expr.children, Expr.query?, Option.map_some,
        Option.getD_some, clauses_resultQuery, List.map_append, Option.toList_map]
  | subQuery query t =>
      simp only [rebuild_subQuery, Expr.parts, Expr.children, Expr.query?, Option.map_some,
        Option.getD_some, clauses_resultQuery, List.nil_append]
  | _ => simp [Expr.parts, Expr.children, Expr.query?]

/-- A node that was rebuilt has the type that its new parts give it. -/
theorem type_rebuild {e : Expr} (h : (pass.rebuilt e).isSome = true) :
    (pass.rebuild e).type = (pass.rebuild e).rebuiltType := by
  cases e with
  | tuple items t =>
      rw [rebuilt, Option.isSome_map] at h
      rw [rebuild_tuple, if_pos h]
      rfl
  | subQuery query t =>
      rw [rebuilt, Option.isSome_map] at h
      rw [rebuild_subQuery, if_pos h]
      rfl
  | _ => simp [Expr.rebuiltType]

theorem map_result_eq_self {es : List Expr} (h : ∀ c ∈ es, pass.result c = c) :
    es.map pass.result = es := by
  rw [List.map_congr_left h, List.map_id']

theorem resultQuery_eq_self {q : Query}
    (h : ∀ c ∈ if pass.deep then q.current.clauses else [], pass.result c = c) :
    pass.resultQuery q = q := by
  obtain ⟨current, past⟩ := q
  rw [resultQuery_eq]
  split
  · next deep =>
      rw [if_pos deep] at h
      have same : pass.resultSelect current = current :=
        Select.eq_of_clauses (skeleton_resultSelect _) (mark_resultSelect _)
          ((clauses_resultSelect _).trans (map_result_eq_self h))
      rw [same]
  · rfl

/-- A node over parts that a pass leaves is left, but for its type. -/
theorem rebuild_eq_self {e : Expr} (h : ∀ c ∈ e.parts pass.deep, pass.result c = c)
    (ht : (pass.rebuilt e).isSome = true → e.type = e.rebuiltType) : pass.rebuild e = e := by
  cases e with
  | constant | param | row | element => rfl
  | tuple items t =>
      have same : items.map pass.result = items :=
        map_result_eq_self fun c hc => h c (List.mem_append_left _ hc)
      rw [rebuilt, Option.isSome_map] at ht
      rw [rebuild_tuple, same]
      split
      · next revised => exact congrArg (Expr.tuple items) (ht revised).symm
      · rfl
  | call fn args t =>
      have same : args.map pass.result = args :=
        map_result_eq_self fun c hc => h c (List.mem_append_left _ hc)
      rw [rebuild_call, same]
  | aggregate fn arg query t =>
      have sameArg : arg.map pass.result = arg := by
        cases arg with
        | none => rfl
        | some e => exact congrArg some (h e (by simp [Expr.parts, Expr.children]))
      have sameQuery : pass.resultQuery query = query :=
        resultQuery_eq_self fun c hc => h c (List.mem_append_right _ hc)
      rw [rebuild_aggregate, sameArg, sameQuery]
  | subQuery query t =>
      have same : pass.resultQuery query = query := resultQuery_eq_self h
      rw [rebuilt, Option.isSome_map] at ht
      rw [rebuild_subQuery, same]
      split
      · next revised => exact congrArg (Expr.subQuery query) (ht revised).symm
      · rfl
  | _ => simpa [Expr.parts, Expr.children, Expr.query?] using h

end Pass

end StreamQuery
