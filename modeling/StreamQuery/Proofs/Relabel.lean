import StreamQuery.Proofs.Scoping

/-! # Relabelling expressions

The numbers of elements and the marks of queries are names. A relabelling changes
them throughout a tree and leaves everything else. What queries were derived from is
relabelled with them, or for queries over some sources it is left.

Trees that are alike stay alike, so a relabelling that is injective commutes with all
that is done to expressions.
-/

namespace StreamQuery

/-- How elements and marks are renamed. -/
structure Relabel where
  element : ElementScope → ElementScope
  mark : Nat → Nat
  /-- Whether what a query over these sources was derived from is relabelled. -/
  enters : List SourceId → Bool

/-- The relabelling of what queries were derived from. -/
def Relabel.within (r : Relabel) : Relabel := { r with enters := fun _ => true }

mutual

def Expr.relabel (r : Relabel) : Expr → Expr
  | .constant value t => .constant value t
  | .param capture t => .param capture t
  | .row source t => .row source t
  | .element scope t => .element (r.element scope) t
  | .path base field t => .path (Expr.relabel r base) field t
  | .component base index t => .component (Expr.relabel r base) index t
  | .unary op operand t => .unary op (Expr.relabel r operand) t
  | .binary op left right t => .binary op (Expr.relabel r left) (Expr.relabel r right) t
  | .conditional test yes no t =>
    .conditional (Expr.relabel r test) (Expr.relabel r yes) (Expr.relabel r no) t
  | .tuple items t => .tuple (Expr.relabelAll r items) t
  | .call fn args t => .call fn (Expr.relabelAll r args) t
  | .aggregate fn arg query t => .aggregate fn (Expr.relabelOption r arg) (Query.relabel r query) t
  | .subQuery query t => .subQuery (Query.relabel r query) t
termination_by structural tree => tree

def Expr.relabelAll (r : Relabel) : List Expr → List Expr
  | [] => []
  | e :: es => Expr.relabel r e :: Expr.relabelAll r es
termination_by structural tree => tree

def Expr.relabelOption (r : Relabel) : Option Expr → Option Expr
  | none => none
  | some e => some (Expr.relabel r e)
termination_by structural tree => tree

def Source.relabelAll (r : Relabel) : List Source → List Source
  | [] => []
  | .entity id name :: rest => .entity id name :: Source.relabelAll r rest
  | .navigation id path rowType :: rest =>
    .navigation id (Expr.relabel r path) rowType :: Source.relabelAll r rest
termination_by structural tree => tree

def SortKey.relabelAll (r : Relabel) : List SortKey → List SortKey
  | [] => []
  | ⟨key, direction⟩ :: rest => ⟨Expr.relabel r key, direction⟩ :: SortKey.relabelAll r rest
termination_by structural tree => tree

def Select.relabel (r : Relabel) : Select → Select
  | ⟨sources, filters, projection, groupBy, having, orderBy, shape, distinct, skip, limit,
      nextSource, mark⟩ =>
    ⟨Source.relabelAll r sources, Expr.relabelAll r filters, Expr.relabelOption r projection,
      Expr.relabelAll r groupBy, Expr.relabelAll r having, SortKey.relabelAll r orderBy, shape,
      distinct, skip, limit, nextSource, r.mark mark⟩
termination_by structural tree => tree

def Select.relabelEach (r : Relabel) : List Select → List Select
  | [] => []
  | s :: ss => Select.relabel r s :: Select.relabelEach r ss
termination_by structural tree => tree

def Query.relabel (r : Relabel) : Query → Query
  | ⟨current, past⟩ =>
    ⟨Select.relabel r current, if r.enters current.ids then Select.relabelEach r.within past else past⟩
termination_by structural tree => tree

end

variable {r : Relabel}

/-! ## Clause by clause -/

@[simp] theorem Expr.relabelAll_eq (es : List Expr) :
    Expr.relabelAll r es = es.map (Expr.relabel r) := by
  induction es with
  | nil => rfl
  | cons e es ih => rw [Expr.relabelAll, ih, List.map_cons]

@[simp] theorem Expr.relabelOption_eq (arg : Option Expr) :
    Expr.relabelOption r arg = arg.map (Expr.relabel r) := by
  cases arg <;> rfl

theorem Source.relabelAll_spec (ss : List Source) :
    (Source.relabelAll r ss).map skeleton = ss.map skeleton ∧
      (Source.relabelAll r ss).filterMap path? = (ss.filterMap path?).map (Expr.relabel r) := by
  induction ss with
  | nil => exact ⟨rfl, rfl⟩
  | cons s ss ih =>
      cases s <;> simp [Source.relabelAll, ih, skeleton, path?, List.filterMap_cons]

theorem SortKey.relabelAll_spec (ks : List SortKey) :
    (SortKey.relabelAll r ks).map skeleton = ks.map skeleton ∧
      (SortKey.relabelAll r ks).map key = (ks.map key).map (Expr.relabel r) := by
  induction ks with
  | nil => exact ⟨rfl, rfl⟩
  | cons k ks ih =>
      obtain ⟨key, direction⟩ := k
      simp [SortKey.relabelAll, ih, skeleton]

namespace Select

@[simp] theorem skeleton_relabel (s : Select) : (s.relabel r).skeleton = s.skeleton := by
  obtain ⟨sources, filters, projection, groupBy, having, orderBy⟩ := s
  simp [relabel, skeleton, Source.relabelAll_spec, SortKey.relabelAll_spec, Function.comp_def]

@[simp] theorem clauses_relabel (s : Select) :
    (s.relabel r).clauses = s.clauses.map (Expr.relabel r) := by
  obtain ⟨sources, filters, projection, groupBy, having, orderBy⟩ := s
  simp [relabel, clauses, Source.relabelAll_spec, SortKey.relabelAll_spec, Option.toList_map]

@[simp] theorem mark_relabel (s : Select) : (s.relabel r).mark = r.mark s.mark := by
  cases s
  rfl

end Select

@[simp] theorem Expr.type_relabel (e : Expr) : (e.relabel r).type = e.type := by
  cases e <;> simp [relabel, type]

@[simp] theorem Select.rowType_relabel (s : Select) : (s.relabel r).rowType = s.rowType := by
  obtain ⟨sources, filters, projection⟩ := s
  cases projection with
  | some projection => simp [relabel, rowType]
  | none => rcases sources with _ | ⟨_ | _, rest⟩ <;> rfl

namespace Query

@[simp] theorem rowType_relabel (q : Query) : (q.relabel r).rowType = q.rowType := by
  cases q
  exact Select.rowType_relabel _

@[simp] theorem current_relabel (q : Query) : (q.relabel r).current = q.current.relabel r := by
  cases q
  rfl

end Query

namespace Expr

@[simp] theorem asConstant_relabel (e : Expr) : (e.relabel r).asConstant = e.asConstant := by
  cases e <;> simp [relabel, asConstant]

@[simp] theorem asBool_relabel (e : Expr) : (e.relabel r).asBool = e.asBool := by
  rw [asBool, asConstant_relabel, asBool]

@[simp] theorem asText_relabel (e : Expr) : (e.relabel r).asText = e.asText := by
  rw [asText, asConstant_relabel, asText]

@[simp] theorem query?_relabel (e : Expr) : (e.relabel r).query? = e.query?.map (Query.relabel r) := by
  cases e <;> simp [relabel, query?]

@[simp] theorem children_relabel (e : Expr) :
    (e.relabel r).children = e.children.map (Expr.relabel r) := by
  cases e <;> simp [relabel, children, Option.toList_map]

@[simp] theorem parts_relabel (deep : Bool) (e : Expr) :
    (e.relabel r).parts deep = (e.parts deep).map (Expr.relabel r) := by
  cases deep <;> cases h : e.query? <;> simp [parts, h]

end Expr

/-! ## Likeness -/

/-- Two ways of comparing that agree before and after a relabelling, nested queries
compared at sight. -/
structure Likeness.Follows (r : Relabel) (l l' : Likeness) : Prop where
  value : l'.value = l.value
  element : ∀ s s', r.element s = r.element s' ↔ s = s'
  mark : ∀ m n, l'.mark (r.mark m) (r.mark n) = l.mark m n
  query : ∀ q q', l'.query (q.relabel r) (q'.relabel r) = l.query q q'

/-- The same where what queries were derived from is compared too. -/
structure Likeness.Agrees (r : Relabel) (l l' : Likeness) : Prop extends Follows r l l' where
  same : l'.ofPast = l.ofPast
  within : ∀ ids, r.enters ids = true → Follows r.within l.ofPast l'.ofPast ∧
    ∀ p p', l'.past (Select.relabelEach r.within p) (Select.relabelEach r.within p') = l.past p p'

theorem Likeness.Agrees.ofPast {l l' : Likeness} (h : Agrees r l l') {ids : List SourceId}
    (enters : r.enters ids = true) : Agrees r.within l.ofPast l'.ofPast where
  toFollows := (h.within ids enters).1
  same := congrArg Likeness.ofPast h.same
  within _ _ := h.within ids enters

mutual

theorem Expr.like_relabel {r : Relabel} {l l' : Likeness} (h : l.Agrees r l') :
    ∀ a b : Expr, Expr.like l' (a.relabel r) (b.relabel r) = Expr.like l a b
  | .constant .., b => by
      cases b with
      | constant => rw [Expr.relabel, Expr.relabel, Expr.like, Expr.like, h.value]
      | _ => rfl
  | .param .., b => by cases b <;> rfl
  | .row .., b => by cases b <;> rfl
  | .element s _, b => by
      cases b with
      | element s' _ =>
          rw [Expr.relabel, Expr.relabel, Expr.like, Expr.like, decide_eq_decide.mpr (h.element s s')]
      | _ => rfl
  | .path base _ _, b => by
      cases b with
      | path => rw [Expr.relabel, Expr.relabel, Expr.like, Expr.like, Expr.like_relabel h base]
      | _ => rfl
  | .component base _ _, b => by
      cases b with
      | component => rw [Expr.relabel, Expr.relabel, Expr.like, Expr.like, Expr.like_relabel h base]
      | _ => rfl
  | .unary _ operand _, b => by
      cases b with
      | unary => rw [Expr.relabel, Expr.relabel, Expr.like, Expr.like, Expr.like_relabel h operand]
      | _ => rfl
  | .binary _ left right _, b => by
      cases b with
      | binary => rw [Expr.relabel, Expr.relabel, Expr.like, Expr.like, Expr.like_relabel h left,
          Expr.like_relabel h right]
      | _ => rfl
  | .conditional test yes no _, b => by
      cases b with
      | conditional => rw [Expr.relabel, Expr.relabel, Expr.like, Expr.like,
          Expr.like_relabel h test, Expr.like_relabel h yes, Expr.like_relabel h no]
      | _ => rfl
  | .tuple items _, b => by
      cases b with
      | tuple => rw [Expr.relabel, Expr.relabel, Expr.like, Expr.like, Expr.relabelAll_eq,
          Expr.relabelAll_eq, Expr.likeAll_relabel h items]
      | _ => rfl
  | .call _ args _, b => by
      cases b with
      | call => rw [Expr.relabel, Expr.relabel, Expr.like, Expr.like, Expr.relabelAll_eq,
          Expr.relabelAll_eq, Expr.likeAll_relabel h args]
      | _ => rfl
  | .aggregate _ arg query _, b => by
      cases b with
      | aggregate => rw [Expr.relabel, Expr.relabel, Expr.like, Expr.like, Expr.relabelOption_eq,
          Expr.relabelOption_eq, Expr.likeOption_relabel h arg, h.query, Query.like_relabel h query]
      | _ => rfl
  | .subQuery query _, b => by
      cases b with
      | subQuery => rw [Expr.relabel, Expr.relabel, Expr.like, Expr.like, h.query,
          Query.like_relabel h query]
      | _ => rfl
termination_by structural tree => tree

theorem Expr.likeAll_relabel {r : Relabel} {l l' : Likeness} (h : l.Agrees r l') :
    ∀ as bs : List Expr, Expr.likeAll l' (as.map (Expr.relabel r)) (bs.map (Expr.relabel r)) =
      Expr.likeAll l as bs
  | [], bs => by cases bs <;> rfl
  | a :: as, bs => by
      cases bs <;> simp only [List.map_cons, List.map_nil, Expr.likeAll, Expr.like_relabel h a,
        Expr.likeAll_relabel h as]
termination_by structural tree => tree

theorem Expr.likeOption_relabel {r : Relabel} {l l' : Likeness} (h : l.Agrees r l') :
    ∀ a b : Option Expr, Expr.likeOption l' (a.map (Expr.relabel r)) (b.map (Expr.relabel r)) =
      Expr.likeOption l a b
  | none, b => by cases b <;> rfl
  | some a, b => by
      cases b <;> simp only [Option.map_some, Option.map_none, Expr.likeOption,
        Expr.like_relabel h a]
termination_by structural tree => tree

theorem Source.likeAll_relabel {r : Relabel} {l l' : Likeness} (h : l.Agrees r l') :
    ∀ as bs : List Source,
      Source.likeAll l' (Source.relabelAll r as) (Source.relabelAll r bs) = Source.likeAll l as bs
  | [], bs => by rcases bs with _ | ⟨_ | _, bs⟩ <;> rfl
  | .entity _ _ :: as, bs => by
      rcases bs with _ | ⟨_ | _, bs⟩ <;>
        simp only [Source.relabelAll, Source.likeAll, Source.likeAll_relabel h as]
  | .navigation _ path _ :: as, bs => by
      rcases bs with _ | ⟨_ | _, bs⟩ <;>
        simp only [Source.relabelAll, Source.likeAll, Expr.like_relabel h path,
          Source.likeAll_relabel h as]
termination_by structural tree => tree

theorem SortKey.likeAll_relabel {r : Relabel} {l l' : Likeness} (h : l.Agrees r l') :
    ∀ as bs : List SortKey,
      SortKey.likeAll l' (SortKey.relabelAll r as) (SortKey.relabelAll r bs) =
        SortKey.likeAll l as bs
  | [], bs => by rcases bs with _ | ⟨⟨_, _⟩, bs⟩ <;> rfl
  | ⟨key, _⟩ :: as, bs => by
      rcases bs with _ | ⟨⟨_, _⟩, bs⟩
      · rfl
      · simp only [SortKey.relabelAll, SortKey.likeAll, Expr.like_relabel h key,
          SortKey.likeAll_relabel h as]
termination_by structural tree => tree

theorem Select.like_relabel {r : Relabel} {l l' : Likeness} (h : l.Agrees r l') :
    ∀ s t : Select, Select.like l' (s.relabel r) (t.relabel r) = Select.like l s t
  | ⟨sources, filters, projection, groupBy, having, orderBy, _, _, _, _, _, _⟩, t => by
      cases t
      simp only [Select.relabel, Select.like, Expr.relabelAll_eq, Expr.relabelOption_eq, h.mark,
        Source.likeAll_relabel h sources, Expr.likeAll_relabel h filters,
        Expr.likeOption_relabel h projection, Expr.likeAll_relabel h groupBy,
        Expr.likeAll_relabel h having, SortKey.likeAll_relabel h orderBy]
termination_by structural tree => tree

theorem Select.likeEach_relabel {r : Relabel} {l l' : Likeness} (h : l.Agrees r l')
    (past : ∀ p p', l'.past (Select.relabelEach r p) (Select.relabelEach r p') = l.past p p') :
    ∀ ss ts : List Select, Select.likeEach l' (Select.relabelEach r ss) (Select.relabelEach r ts) =
      Select.likeEach l ss ts
  | [], ts => by cases ts <;> rfl
  | s :: ss, ts => by
      cases ts with
      | nil => rfl
      | cons t ts =>
          have sight := past (s :: ss) (t :: ts)
          simp only [Select.relabelEach] at sight
          simp only [Select.relabelEach, Select.likeEach, sight, Select.like_relabel h s,
            Select.likeEach_relabel h past ss]
termination_by structural tree => tree

theorem Query.like_relabel {r : Relabel} {l l' : Likeness} (h : l.Agrees r l') :
    ∀ q q' : Query, Query.like l' (q.relabel r) (q'.relabel r) = Query.like l q q'
  | ⟨s, past⟩, q' => by
      obtain ⟨t, past'⟩ := q'
      have current := Select.like_relabel h s t
      simp only [Query.relabel, Query.like, current]
      cases alike : Select.like l s t with
      | false => rfl
      | true =>
          -- Selections that are alike have the same sources, so both or neither are entered.
          have ids := Expr.ids_of_skeleton (Select.like_iff.mp alike).2.1
          rw [ids]
          cases enters : r.enters t.ids with
          | true => simp [Select.likeEach_relabel (h.ofPast enters) (h.within _ enters).2 past]
          | false => simp [h.same]
termination_by structural tree => tree

end

/-! ## Rules -/

namespace Expr

@[simp] theorem relabel_bool (b : Bool) : (bool b).relabel r = bool b := rfl

theorem conj?_relabel (left right : Expr) :
    conj? (left.relabel r) (right.relabel r) = (conj? left right).map (Expr.relabel r) := by
  simp only [conj?, asBool_relabel]
  split <;> rfl

theorem disj?_relabel (left right : Expr) :
    disj? (left.relabel r) (right.relabel r) = (disj? left right).map (Expr.relabel r) := by
  simp only [disj?, asBool_relabel]
  split <;> rfl

@[simp] theorem relabel_conj (left right : Expr) :
    (conj left right).relabel r = conj (left.relabel r) (right.relabel r) := by
  rw [conj, conj, conj?_relabel]
  cases conj? left right <;> rfl

@[simp] theorem relabel_disj (left right : Expr) :
    (disj left right).relabel r = disj (left.relabel r) (right.relabel r) := by
  rw [disj, disj, disj?_relabel]
  cases disj? left right <;> rfl

theorem isAtom_relabel (e : Expr) : (e.relabel r).isAtom = e.isAtom := by
  cases e with
  | constant value t => rfl
  | unary op operand t => cases op <;> rfl
  | binary op left right t => cases op <;> rfl
  | _ => simp [relabel, isAtom]

@[simp] theorem relabel_negate (e : Expr) : (negate e).relabel r = negate (e.relabel r) := by
  fun_induction negate e with
  | case1 b t => rfl
  | case2 inner t => simp [relabel, negate]
  | case3 op left right t => simp [relabel, negate, compare, apply]
  | case4 left right t ihl ihr => simp [relabel, negate, ihl, ihr]
  | case5 left right t ihl ihr => simp [relabel, negate, ihl, ihr]
  | case6 e h₁ h₂ h₃ h₄ h₅ =>
      have atom : e.isAtom = true := by
        unfold isAtom
        split
        · exact absurd rfl (h₁ _ _)
        · exact absurd rfl (h₂ _ _)
        · exact absurd rfl (h₃ _ _ _ _)
        · exact absurd rfl (h₄ _ _ _)
        · exact absurd rfl (h₅ _ _ _)
        · rfl
      rw [negate_of_isAtom ((isAtom_relabel e).trans atom)]
      rfl

theorem choice?_relabel {l l' : Likeness} {test yes no : Expr} {t : ValueType}
    (alike : (yes.relabel r).like l' (no.relabel r) = yes.like l no) :
    choice? l' (test.relabel r) (yes.relabel r) (no.relabel r) t =
      (choice? l test yes no t).map (Expr.relabel r) := by
  simp only [choice?, asBool_relabel, alike]
  split
  · rfl
  · rfl
  · split
    · rfl
    · split <;> simp

/-- Rules look at no name, if arms are compared the same way before and after. -/
theorem reduce?_relabel {l l' : Likeness} {e : Expr}
    (alike : ∀ test yes no t, e = .conditional test yes no t →
      (yes.relabel r).like l' (no.relabel r) = yes.like l no) :
    reduce? l' (e.relabel r) = (reduce? l e).map (Expr.relabel r) := by
  cases e with
  | unary op operand t =>
      cases op with
      | not => simp [relabel, reduce?]
      | neg =>
          simp only [relabel, reduce?, asConstant_relabel, Option.map_map]
          rfl
  | binary op left right t =>
      cases op with
      | and => exact conj?_relabel left right
      | or => exact disj?_relabel left right
      | compare op =>
          simp only [relabel, reduce?, compare?, asConstant_relabel]
          cases left.asConstant <;> cases right.asConstant <;> simp
          cases Value.order? _ _ <;> simp
      | arith op =>
          simp only [relabel, reduce?, arith?, asConstant_relabel]
          cases left.asConstant <;> cases right.asConstant <;> simp
          cases Value.arith? _ _ _ <;> simp [relabel]
      | concat =>
          simp only [relabel, reduce?, concat?, asText_relabel]
          cases left.asText <;> cases right.asText <;> simp [relabel, literal]
      | like => rfl
  | conditional test yes no t => exact choice?_relabel (alike test yes no t rfl)
  | component base index t =>
      cases base with
      | tuple items s => simp [relabel, reduce?, component?]
      | _ => rfl
  | _ => simp [relabel, reduce?]

theorem rebuiltType_relabel (e : Expr) : (e.relabel r).rebuiltType = e.rebuiltType := by
  cases e with
  | tuple items t | subQuery query t => simp [relabel, rebuiltType]
  | _ => rfl

end Expr

/-! ## Relabellings that agree -/

/-- Two relabellings that do the same at what a node refers to. -/
def Relabel.AgreesAt (r r' : Relabel) : Referent → Prop
  | .element scope => r.element scope = r'.element scope
  | .query own => r.enters own = r'.enters own ∧ (r.enters own = true → r.within = r'.within)
  | _ => True

section Agreement

variable {r r' : Relabel}

theorem Query.relabel_congr {q : Query} (mark : r.mark = r'.mark)
    (here : r.AgreesAt r' (.query q.current.ids))
    (clauses : ∀ c ∈ q.current.clauses, c.relabel r = c.relabel r') :
    q.relabel r = q.relabel r' := by
  obtain ⟨s, past⟩ := q
  obtain ⟨enters, within⟩ := here
  have current : s.relabel r = s.relabel r' := by
    refine Select.eq_of_clauses ?_ ?_ ?_
    · rw [Select.skeleton_relabel, Select.skeleton_relabel]
    · rw [Select.mark_relabel, Select.mark_relabel, mark]
    · rw [Select.clauses_relabel, Select.clauses_relabel]
      exact List.map_congr_left clauses
  simp only [Query.relabel, current, ← enters]
  congr 1
  split
  · next entered => rw [within entered]
  · rfl

theorem Expr.relabel_congr {e : Expr} {ids : List SourceId} (mark : r.mark = r'.mark)
    (h : e.Within (fun _ => r.AgreesAt r') ids) : e.relabel r = e.relabel r' := by
  induction h with
  | @node ids e here below ih =>
      have child : ∀ c ∈ e.children, c.relabel r = c.relabel r' :=
        fun c hc => ih c (mem_parts_true.mpr (.inl hc))
      have query : ∀ q ∈ e.query?, q.relabel r = q.relabel r' := by
        intro q hq
        refine Query.relabel_congr mark ?_ fun c hc => ih c (mem_parts_true.mpr (.inr ⟨q, hq, hc⟩))
        cases e <;> cases hq <;> exact here
      cases e with
      | aggregate fn arg q t =>
          have args : arg.map (relabel r) = arg.map (relabel r') :=
            Option.map_congr fun c hc => child c (by simpa [children] using hc)
          simp only [relabel, relabelOption_eq, args, query q rfl]
      | subQuery q t => simp only [relabel, query q rfl]
      | element scope t => exact congrArg (element · t) here
      | _ => simp_all [relabel, children]

def Relabel.none : Relabel := ⟨id, id, fun _ => false⟩

theorem Expr.relabel_none (e : Expr) : e.relabel .none = e := by
  have all {es : List Expr} (h : ∀ c ∈ es, c.relabel .none = c) : es.map (relabel .none) = es :=
    (List.map_congr_left h).trans (List.map_id' es)
  induction e using partsInduction true with
  | node e ih =>
      have child : ∀ c ∈ e.children, c.relabel .none = c :=
        fun c hc => ih c (mem_parts_true.mpr (.inl hc))
      have query : ∀ q ∈ e.query?, q.relabel .none = q := by
        intro q hq
        have clauses : ∀ c ∈ q.current.clauses, c.relabel .none = c :=
          fun c hc => ih c (mem_parts_true.mpr (.inr ⟨q, hq, hc⟩))
        obtain ⟨s, past⟩ := q
        have current : s.relabel .none = s := by
          refine Select.eq_of_clauses (Select.skeleton_relabel s) (Select.mark_relabel s) ?_
          rw [Select.clauses_relabel, all clauses]
        rw [Query.relabel, current]
        rfl
      cases e with
      | aggregate fn arg q t =>
          have args : arg.map (relabel .none) = arg := by
            cases arg with
            | none => rfl
            | some c => exact congrArg some (child c (by simp [children]))
          simp only [relabel, relabelOption_eq, args, query q rfl]
      | subQuery q t => simp only [relabel, query q rfl]
      | tuple items t => exact congrArg (tuple · t) ((relabelAll_eq items).trans (all child))
      | call fn args t => exact congrArg (call fn · t) ((relabelAll_eq args).trans (all child))
      | element scope t => rfl
      | _ => simp_all [relabel, children]

theorem Query.relabel_none (q : Query) : q.relabel .none = q := by
  simpa [Expr.relabel] using Expr.relabel_none (.subQuery q .any)

theorem Relabel.agreesAt_none {own : List SourceId} (h : r.enters own = false) :
    r.AgreesAt .none (.query own) :=
  ⟨h, fun entered => absurd entered (by simp [h])⟩

end Agreement

end StreamQuery
