import StreamQuery.Proofs.Relabel
import StreamQuery.Proofs.Substitution

/-! # Expressions up to marks

Marks matter only to queries that hold constants that are not numbers. In trees
without them, how two expressions compare depends neither on marks nor on which
queries were held, and so does being in normal form. Such a tree, once in normal
form, stays what it is through every later pass.
-/

namespace StreamQuery

/-- All marks are the same; what queries were derived from is left. -/
def Relabel.unmark : Relabel where
  element s := s
  mark _ := 0
  enters _ := false

theorem Likeness.plain_agrees : Likeness.plain.Agrees .unmark .plain where
  value := rfl
  element _ _ := Iff.rfl
  mark _ _ := rfl
  query _ _ := by simp [plain, kept, Query.isKept]
  same := rfl
  within _ := nofun

namespace Expr

def NoNaN (e : Expr) : Prop :=
  e.Everywhere fun node => ∀ x t, node = .constant (.double x) t → x.isNaN = false

def isNumeric : Expr → Bool
  | constant (.double x) _ => !x.isNaN
  | _ => true

instance : DecidablePred NoNaN := fun e =>
  decidable_of_iff ((e.reach fun _ => false).all isNumeric = true) <| by
    rw [NoNaN, Everywhere, List.all_eq_true]
    refine forall₂_congr fun node _ => ?_
    unfold isNumeric
    split
    · simp
    · next other => exact iff_of_true rfl fun x t same => absurd same (other x t)

/-- Two trees that differ in marks only. -/
def Marking (a b : Expr) : Prop := a.relabel .unmark = b.relabel .unmark

theorem NoNaN.part {e c : Expr} (h : e.NoNaN) (hc : c ∈ e.parts true) : c.NoNaN :=
  (everywhere_iff.mp h).2 c hc

theorem compositional_noNaN : Compositional NoNaN where
  compound {e} holdsNone nonempty := by
    rw [NoNaN, everywhere_iff]
    simp only [mem_parts_true, holdsNone]
    cases e <;> simp_all [NoNaN, children]
  constant v t number := everywhere_constant.mpr (by simp [number])

theorem everywhere_relabel {r : Relabel} {p : Expr → Prop}
    (h : ∀ node : Expr, p (node.relabel r) ↔ p node) {e : Expr} :
    (e.relabel r).Everywhere p ↔ e.Everywhere p := by
  induction e using partsInduction true with
  | node e ih =>
      rw [everywhere_iff, everywhere_iff, parts_relabel, List.forall_mem_map]
      exact and_congr (h e) (forall₂_congr ih)

theorem noNaN_relabel {r : Relabel} {e : Expr} : (e.relabel r).NoNaN ↔ e.NoNaN :=
  everywhere_relabel fun node => by cases node <;> simp [relabel]

theorem Marking.symm {a b : Expr} (h : Marking a b) : Marking b a := Eq.symm h

theorem Marking.trans {a b c : Expr} (h : Marking a b) (h' : Marking b c) : Marking a c :=
  Eq.trans h h'

theorem Marking.noNaN {a b : Expr} (h : Marking a b) (number : b.NoNaN) : a.NoNaN := by
  rw [← noNaN_relabel, h]
  exact noNaN_relabel.mpr number

/-! ## Comparing -/

theorem same_self {v : Value} (number : ∀ x, v = .double x → x.isNaN = false) :
    Value.same v v = true := by
  cases v with
  | double x => simp [Value.same, Double.same, number x rfl]
  | _ => simp [Value.same]

theorem likeNode_self {e : Expr} (number : e.NoNaN) : likeNode .plain e e = true := by
  cases e with
  | constant v t =>
      have here := (everywhere_iff.mp number).1
      have same : Value.same v v = true := same_self fun x hx => here x t (hx ▸ rfl)
      simpa [likeNode, Likeness.plain, Likeness.kept, Likeness.usual] using same
  | _ => simp [likeNode]

theorem likeAll_self_of {l : Likeness} {es : List Expr} (h : ∀ e ∈ es, e.like l e = true) :
    likeAll l es es = true := by
  induction es with
  | nil => rfl
  | cons e es ih =>
      rw [likeAll, h e List.mem_cons_self, ih fun c hc => h c (List.mem_cons_of_mem e hc)]
      rfl

theorem likeAll_congr {l l' : Likeness} {as : List Expr}
    (h : ∀ a ∈ as, ∀ b, like l a b = like l' a b) (bs : List Expr) :
    likeAll l as bs = likeAll l' as bs := by
  induction as generalizing bs with
  | nil => cases bs <;> rfl
  | cons a as ih =>
      cases bs with
      | nil => rfl
      | cons b bs =>
          rw [likeAll, likeAll, h a List.mem_cons_self,
            ih fun c hc => h c (List.mem_cons_of_mem a hc)]

end Expr

namespace Query

theorem like_self_of {q : Query} (h : ∀ c ∈ q.current.clauses, c.like .plain c = true) :
    q.like .plain q = true := by
  refine Query.like_iff.mpr ⟨Select.like_iff.mpr ⟨rfl, rfl, Expr.likeAll_self_of h⟩, ?_⟩
  cases q.past with
  | nil => rfl
  | cons s ss =>
      simp [Select.likeEach, Likeness.ofPast, Likeness.plain, Likeness.kept, Likeness.usual]

theorem like_congr {l : Likeness} (sight : l.AtSight) {q : Query}
    (h : ∀ c ∈ q.current.clauses, ∀ b, c.like l b = c.like .plain b) (q' : Query) :
    q.like l q' = q.like .plain q' := by
  rw [Bool.eq_iff_iff, Query.like_iff, Query.like_iff, Select.like_iff, Select.like_iff,
    sight.ofPast, Expr.likeAll_congr h, sight.mark]
  rfl

end Query

namespace Expr

theorem like_self_of_noNaN {e : Expr} (number : e.NoNaN) : e.like .plain e = true := by
  induction e using partsInduction true with
  | node e ih =>
      have part : ∀ c ∈ e.parts true, c.like .plain c = true :=
        fun c hc => ih c hc (number.part hc)
      rw [like_eq, likeNode_self number,
        likeAll_self_of fun c hc => part c (mem_parts_true.mpr (.inl hc))]
      cases hq : e.query? with
      | none => rfl
      | some q =>
          have same : q.like .plain q = true :=
            Query.like_self_of fun c hc => part c (mem_parts_true.mpr (.inr ⟨q, hq, hc⟩))
          simp [likeQuery, same]

/-- What is alike at sight is alike by its clauses. -/
theorem like_eq_plain {l : Likeness} (sight : l.AtSight) {a : Expr} (number : a.NoNaN)
    (b : Expr) : a.like l b = a.like .plain b := by
  induction a using partsInduction true generalizing b with
  | node a ih =>
      have part : ∀ c ∈ a.parts true, ∀ b, c.like l b = c.like .plain b :=
        fun c hc => ih c hc (number.part hc)
      have nodes : likeNode l a b = likeNode .plain a b := by
        cases a <;> cases b <;> simp only [likeNode, sight.value]
        rfl
      have children : likeAll l a.children b.children = likeAll .plain a.children b.children :=
        likeAll_congr (fun c hc => part c (mem_parts_true.mpr (.inl hc))) _
      have queries : likeQuery l a.query? b.query? = likeQuery .plain a.query? b.query? := by
        cases hq : a.query? with
        | none => cases b.query? <;> rfl
        | some q =>
            cases b.query? with
            | none => rfl
            | some q' =>
                have clauses : ∀ c ∈ q.current.clauses, c ∈ a.parts true :=
                  fun c hc => mem_parts_true.mpr (.inr ⟨q, hq, hc⟩)
                have alike := Query.like_congr sight (fun c hc => part c (clauses c hc)) q'
                simp only [likeQuery, alike]
                cases seen : l.query q q' with
                | false => simp [Likeness.plain, Likeness.kept, Query.isKept]
                | true =>
                    obtain rfl := sight.query q q' seen
                    have same : q.like .plain q = true := Query.like_self_of fun c hc =>
                      like_self_of_noNaN (number.part (clauses c hc))
                    simp [same]
      rw [like_eq, like_eq, nodes, children, queries]

theorem like_of_marking {l : Likeness} (sight : l.AtSight) {a b : Expr} (number : a.NoNaN)
    (same : Marking a b) : a.like l b = true := by
  rw [like_eq_plain sight number, ← like_relabel Likeness.plain_agrees, same,
    like_relabel Likeness.plain_agrees]
  exact like_self_of_noNaN (same.symm.noNaN number)

/-! ## Normal form -/

theorem restless_relabel {r : Relabel} {deep : Bool} {e : Expr} :
    Restless deep (e.relabel r) ↔ Restless deep e := by
  induction e using partsInduction deep with
  | node e ih =>
      constructor
      · intro h
        generalize he : e.relabel r = e' at h
        cases h with
        | here operand t =>
            cases e <;> simp only [relabel, reduceCtorEq, unary.injEq] at he
            obtain ⟨rfl, -, rfl⟩ := he
            exact .here _ _
        | within hc h =>
            rw [← he, parts_relabel] at hc
            obtain ⟨part, hpart, rfl⟩ := List.mem_map.mp hc
            exact .within hpart ((ih part hpart).mp h)
      · intro h
        cases h with
        | here operand t => exact .here _ _
        | within hc h =>
            refine .within ?_ ((ih _ hc).mpr h)
            rw [parts_relabel]
            exact List.mem_map_of_mem hc

/-- Being in normal form depends on no mark and on no query that was held. -/
theorem normal_unmark_iff {l : Likeness} (sight : l.AtSight) {e : Expr} (number : e.NoNaN) :
    Normal .plain true (e.relabel .unmark) ↔ Normal l true e := by
  induction e using partsInduction true with
  | node e ih =>
      have arms : ∀ test yes no t, e = .conditional test yes no t →
          (yes.relabel .unmark).like .plain (no.relabel .unmark) = yes.like l no := by
        rintro test yes no t rfl
        rw [like_relabel Likeness.plain_agrees,
          like_eq_plain sight (number.part (by simp [parts, children]))]
      have reduces := reduce?_relabel arms
      have parts : (∀ c ∈ (e.relabel .unmark).parts true, Normal .plain true c) ↔
          ∀ c ∈ e.parts true, Normal l true c := by
        rw [parts_relabel, List.forall_mem_map]
        exact forall₂_congr fun c hc => ih c hc (number.part hc)
      have restless : (∃ c ∈ (e.relabel .unmark).parts true, Restless true c) ↔
          ∃ c ∈ e.parts true, Restless true c := by
        simp [restless_relabel]
      constructor
      · rintro ⟨below, settled, typed⟩
        refine ⟨parts.mp below, ?_, fun negates => ?_⟩
        · rcases settled with none | ⟨atom, same, isAtom⟩
          · rw [reduces] at none
            exact .inl (Option.map_eq_none_iff.mp none)
          · cases e <;> simp only [relabel, Expr.not, reduceCtorEq, unary.injEq] at same
            obtain ⟨rfl, rfl, rfl⟩ := same
            exact .inr ⟨_, rfl, (isAtom_relabel _).symm.trans isAtom⟩
        · have typed := typed (restless.mpr negates)
          rwa [type_relabel, rebuiltType_relabel] at typed
      · rintro ⟨below, settled, typed⟩
        refine ⟨parts.mpr below, ?_, fun negates => ?_⟩
        · rcases settled with none | ⟨atom, rfl, isAtom⟩
          · rw [reduces, none]
            exact .inl rfl
          · exact .inr ⟨_, rfl, (isAtom_relabel _).trans isAtom⟩
        · rw [type_relabel, rebuiltType_relabel]
          exact typed (restless.mp negates)

/-! ## Marks -/

theorem map_markedAll {kept : Query → Bool} {es : List Expr}
    (h : ∀ e ∈ es, ∀ m, Marking (e.marked kept m) e) (m : Nat) :
    (markedAll kept m es).map (relabel .unmark) = es.map (relabel .unmark) := by
  induction es generalizing m with
  | nil => rfl
  | cons e es ih =>
      rw [markedAll, List.map_cons, List.map_cons, h e List.mem_cons_self m,
        ih fun c hc => h c (List.mem_cons_of_mem e hc)]

end Expr

theorem Select.relabel_unmark_eq {s s' : Select} (skeleton : s'.skeleton = s.skeleton)
    (clauses : s'.clauses.map (Expr.relabel .unmark) = s.clauses.map (Expr.relabel .unmark)) :
    s'.relabel .unmark = s.relabel .unmark := by
  refine Select.eq_of_clauses ?_ (by simp [Relabel.unmark]) ?_
  · rw [skeleton_relabel, skeleton_relabel, skeleton]
  · rw [clauses_relabel, clauses_relabel, clauses]

theorem Query.relabel_fresh {kept : Query → Bool} {q : Query}
    (h : ∀ c ∈ q.current.clauses, ∀ m, Expr.Marking (c.marked kept m) c) (m : Nat) :
    ((q.fresh kept).run m).1.relabel .unmark = q.relabel .unmark := by
  obtain ⟨s, run, skeleton, -, -, clauses⟩ := q.fresh_run kept m
  have same : s.relabel .unmark = q.current.relabel .unmark :=
    Select.relabel_unmark_eq skeleton (by rw [clauses, Expr.map_markedAll h])
  rw [run]
  cases q
  simp [Query.relabel, Relabel.unmark] at same ⊢
  exact same

theorem Query.relabel_marked {kept : Query → Bool} {q : Query}
    (h : ∀ c ∈ q.current.clauses, ∀ m, Expr.Marking (c.marked kept m) c) (m : Nat) :
    (q.marked kept m).relabel .unmark = q.relabel .unmark := by
  rw [Query.marked]
  split
  · rfl
  · exact Query.relabel_fresh h m

namespace Expr

/-- Marking changes marks only. -/
theorem marking_marked (kept : Query → Bool) (m : Nat) (e : Expr) : Marking (e.marked kept m) e := by
  induction e using partsInduction true generalizing m with
  | node e ih =>
      have children : ∀ c ∈ e.children, ∀ m, Marking (c.marked kept m) c :=
        fun c hc m => ih c (mem_parts_true.mpr (.inl hc)) m
      have query : ∀ q ∈ e.query?, ∀ m, (q.marked kept m).relabel .unmark = q.relabel .unmark :=
        fun q hq m => Query.relabel_marked
          (fun c hc m => ih c (mem_parts_true.mpr (.inr ⟨q, hq, hc⟩)) m) m
      cases e with
      | tuple items t | call fn items t =>
          have same := map_markedAll children m
          simpa [Marking, relabel, Expr.children] using same
      | aggregate fn arg q t =>
          have same := query q rfl
          cases arg with
          | none => simp [Marking, relabel, same]
          | some arg =>
              have inner : (arg.marked kept m).relabel .unmark = arg.relabel .unmark :=
                children arg (by simp [Expr.children]) m
              simp [Marking, relabel, same, inner]
      | subQuery q t =>
          have same := query q rfl
          simp [Marking, relabel, same]
      | _ =>
          simp only [Expr.children, List.forall_mem_cons, Marking] at children
          simp [Marking, relabel, children]

/-! ## Settled trees -/

/-- A tree in normal form that no later pass changes, however it is marked. -/
structure Settled (e : Expr) : Prop where
  number : e.NoNaN
  normal : Normal .plain true (e.relabel .unmark)

theorem Settled.of_normal {l : Likeness} (sight : l.AtSight) {e : Expr} (number : e.NoNaN)
    (normal : Normal l true e) : e.Settled :=
  ⟨number, (normal_unmark_iff sight number).mpr normal⟩

theorem Settled.marking {a b : Expr} (h : b.Settled) (same : Marking a b) : a.Settled :=
  ⟨same.noNaN h.number, same ▸ h.normal⟩

theorem Settled.toNormal {l : Likeness} (sight : l.AtSight) {e : Expr} (h : e.Settled) :
    Normal l true e :=
  (normal_unmark_iff sight h.number).mp h.normal

theorem Settled.part {e c : Expr} (h : e.Settled) (hc : c ∈ e.parts true) : c.Settled := by
  refine ⟨h.number.part hc, h.normal.parts_normal _ ?_⟩
  rw [parts_relabel]
  exact List.mem_map_of_mem hc

theorem Settled.result_eq {e : Expr} (h : e.Settled) (held : Query → Bool) :
    (rules (.kept held) true).result e = e :=
  (h.toNormal (.kept held)).result_eq.1

/-- A row in the place of an element ends in normal form, marks aside. -/
theorem inlined_normal (e row : Expr) (scope : ElementScope) (m : Nat) :
    ∃ (held : Query → Bool) (normal : Expr), Normal (.kept held) true normal ∧
      Marking ((e.inlined scope row).run m).1 normal :=
  ⟨e.heldBeside scope row, e.placed (e.heldBeside scope row) scope row, normal_result _,
    marking_marked _ m _⟩

theorem settled_inlined {e row : Expr} {scope : ElementScope} {m : Nat}
    (number : ((e.inlined scope row).run m).1.NoNaN) :
    ((e.inlined scope row).run m).1.Settled := by
  obtain ⟨held, normal, isNormal, same⟩ := inlined_normal e row scope m
  exact (Settled.of_normal (.kept held) (same.symm.noNaN number) isNormal).marking same

theorem settled_part_inlined {e row c : Expr} {scope : ElementScope} {m : Nat}
    (hc : c ∈ ((e.inlined scope row).run m).1.parts true) (number : c.NoNaN) : c.Settled := by
  obtain ⟨held, normal, isNormal, same⟩ := inlined_normal e row scope m
  have parts := congrArg (Expr.parts true) same
  rw [parts_relabel, parts_relabel] at parts
  obtain ⟨part, hpart, equal⟩ := List.mem_map.mp (parts ▸ List.mem_map_of_mem hc)
  have settled : part.Settled := .of_normal (.kept held) (Marking.noNaN equal number)
    (isNormal.parts_normal part hpart)
  exact settled.marking equal.symm

end Expr

end StreamQuery
