import StreamQuery.Expr.Basic

/-! # Equality of expressions and queries

Trees are compared node by node, types included, and queries with all they
were derived from. How constants are compared, and when two nested queries
need no comparison, is a parameter. Compared bit by bit and with no short cut,
two trees are alike exactly if they are equal, which makes equality decidable.

The equality that expressions have in this library compares doubles as
numbers, so an expression that is not a number differs from itself. A query is
the same as itself whatever constants it holds; marks tell it from others that
are written alike.
-/

namespace StreamQuery

/-- When parts of two trees are taken to be alike. -/
structure Likeness where
  value : Value → Value → Bool
  mark : Nat → Nat → Bool
  /-- Nested queries that are alike at sight; others are compared by clauses. -/
  query : Query → Query → Bool
  /-- What two queries were derived from, if it is alike at sight. -/
  past : List Select → List Select → Bool
  /-- Nested queries that are alike at sight in what two queries were derived from. -/
  pastQuery : Query → Query → Bool

/-- The likeness of what two queries were derived from. -/
def Likeness.ofPast (l : Likeness) : Likeness := { l with query := l.pastQuery }

def Likeness.exact : Likeness where
  value a b := decide (a = b)
  mark m n := m == n
  query _ _ := false
  past _ _ := false
  pastQuery _ _ := false

mutual

def Expr.like (l : Likeness) : Expr → Expr → Bool
  | .constant a s, .constant b t => l.value a b && decide (s = t)
  | .param a s, .param b t => decide (a = b) && decide (s = t)
  | .row a s, .row b t => decide (a = b) && decide (s = t)
  | .element a s, .element b t => decide (a = b) && decide (s = t)
  | .path a f s, .path b g t => decide (f = g) && decide (s = t) && Expr.like l a b
  | .component a i s, .component b j t => decide (i = j) && decide (s = t) && Expr.like l a b
  | .unary o a s, .unary p b t => decide (o = p) && decide (s = t) && Expr.like l a b
  | .binary o a c s, .binary p b d t =>
    decide (o = p) && decide (s = t) && Expr.like l a b && Expr.like l c d
  | .conditional a c x s, .conditional b d y t =>
    decide (s = t) && Expr.like l a b && Expr.like l c d && Expr.like l x y
  | .tuple as s, .tuple bs t => decide (s = t) && Expr.likeAll l as bs
  | .call f as s, .call g bs t => decide (f = g) && decide (s = t) && Expr.likeAll l as bs
  | .aggregate f a q s, .aggregate g b r t =>
    decide (f = g) && decide (s = t) && Expr.likeOption l a b &&
      (l.query q r || Query.like l q r)
  | .subQuery q s, .subQuery r t => decide (s = t) && (l.query q r || Query.like l q r)
  | _, _ => false
termination_by structural tree => tree

def Expr.likeAll (l : Likeness) : List Expr → List Expr → Bool
  | [], [] => true
  | a :: as, b :: bs => Expr.like l a b && Expr.likeAll l as bs
  | _, _ => false
termination_by structural tree => tree

def Expr.likeOption (l : Likeness) : Option Expr → Option Expr → Bool
  | none, none => true
  | some a, some b => Expr.like l a b
  | _, _ => false
termination_by structural tree => tree

def Source.likeAll (l : Likeness) : List Source → List Source → Bool
  | [], [] => true
  | .entity i m :: as, .entity j n :: bs => i == j && m == n && Source.likeAll l as bs
  | .navigation i p s :: as, .navigation j q t :: bs =>
    i == j && decide (s = t) && Expr.like l p q && Source.likeAll l as bs
  | _, _ => false
termination_by structural tree => tree

def SortKey.likeAll (l : Likeness) : List SortKey → List SortKey → Bool
  | [], [] => true
  | ⟨k, d⟩ :: as, ⟨m, e⟩ :: bs => decide (d = e) && Expr.like l k m && SortKey.likeAll l as bs
  | _, _ => false
termination_by structural tree => tree

def Select.like (l : Likeness) : Select → Select → Bool
  | ⟨sources, filters, projection, groupBy, having, orderBy, shape, distinct, skip, limit,
      nextSource, mark⟩, t =>
    decide (shape = t.shape) && distinct == t.distinct && skip == t.skip && limit == t.limit &&
      nextSource == t.nextSource && l.mark mark t.mark && Source.likeAll l sources t.sources &&
      Expr.likeAll l filters t.filters && Expr.likeOption l projection t.projection &&
      Expr.likeAll l groupBy t.groupBy && Expr.likeAll l having t.having &&
      SortKey.likeAll l orderBy t.orderBy
termination_by structural tree => tree

def Select.likeEach (l : Likeness) : List Select → List Select → Bool
  | [], [] => true
  | s :: ss, t :: ts => l.past (s :: ss) (t :: ts) || (Select.like l s t && Select.likeEach l ss ts)
  | _, _ => false
termination_by structural tree => tree

def Query.like (l : Likeness) : Query → Query → Bool
  | ⟨s, past⟩, r => Select.like l s r.current && Select.likeEach l.ofPast past r.past
termination_by structural tree => tree

end

/-! ## Decidable equality -/

theorem Likeness.exact_mark (m n : Nat) : Likeness.exact.mark m n = (m == n) := rfl

theorem Likeness.exact_ofPast : Likeness.exact.ofPast = .exact := rfl

mutual

theorem Expr.like_self : ∀ e : Expr, Expr.like .exact e e = true
  | .constant .. | .param .. | .row .. | .element .. => by simp [Expr.like, Likeness.exact]
  | .path base _ _ => by simp [Expr.like, base.like_self]
  | .component base _ _ => by simp [Expr.like, base.like_self]
  | .unary _ operand _ => by simp [Expr.like, operand.like_self]
  | .binary _ left right _ => by simp [Expr.like, left.like_self, right.like_self]
  | .conditional test yes no _ => by
      simp [Expr.like, test.like_self, yes.like_self, no.like_self]
  | .tuple items _ => by simp [Expr.like, Expr.likeAll_self items]
  | .call _ args _ => by simp [Expr.like, Expr.likeAll_self args]
  | .aggregate _ arg query _ => by simp [Expr.like, Expr.likeOption_self arg, query.like_self]
  | .subQuery query _ => by simp [Expr.like, query.like_self]

theorem Expr.likeAll_self : ∀ es : List Expr, Expr.likeAll .exact es es = true
  | [] => by simp [Expr.likeAll]
  | e :: es => by simp [Expr.likeAll, e.like_self, Expr.likeAll_self es]

theorem Expr.likeOption_self : ∀ e : Option Expr, Expr.likeOption .exact e e = true
  | none => by simp [Expr.likeOption]
  | some e => by simp [Expr.likeOption, e.like_self]

theorem Source.likeAll_self : ∀ ss : List Source, Source.likeAll .exact ss ss = true
  | [] => by simp [Source.likeAll]
  | .entity _ _ :: rest => by simp [Source.likeAll, Source.likeAll_self rest]
  | .navigation _ path _ :: rest => by
      simp [Source.likeAll, path.like_self, Source.likeAll_self rest]

theorem SortKey.likeAll_self : ∀ ks : List SortKey, SortKey.likeAll .exact ks ks = true
  | [] => by simp [SortKey.likeAll]
  | ⟨key, _⟩ :: rest => by simp [SortKey.likeAll, key.like_self, SortKey.likeAll_self rest]

theorem Select.like_self : ∀ s : Select, Select.like .exact s s = true
  | ⟨sources, filters, projection, groupBy, having, orderBy, _, _, _, _, _, _⟩ => by
      simp [Select.like, Likeness.exact_mark, Source.likeAll_self sources, Expr.likeAll_self filters,
        Expr.likeOption_self projection, Expr.likeAll_self groupBy, Expr.likeAll_self having,
        SortKey.likeAll_self orderBy]

theorem Select.likeEach_self : ∀ ss : List Select, Select.likeEach .exact ss ss = true
  | [] => by simp [Select.likeEach]
  | s :: ss => by simp [Select.likeEach, s.like_self, Select.likeEach_self ss]

theorem Query.like_self : ∀ q : Query, Query.like .exact q q = true
  | ⟨s, past⟩ => by
      simp [Query.like, Likeness.exact_ofPast, s.like_self, Select.likeEach_self past]

end

mutual

theorem Expr.eq_of_like : ∀ {a b : Expr}, Expr.like .exact a b = true → a = b
  | .constant .., b, h => by
      cases b <;> simp only [Expr.like, Likeness.exact, Bool.and_eq_true, decide_eq_true_eq,
        Bool.false_eq_true] at h
      obtain ⟨rfl, rfl⟩ := h
      rfl
  | .param .., b, h => by
      cases b <;> simp only [Expr.like, Bool.and_eq_true, decide_eq_true_eq,
        Bool.false_eq_true] at h
      obtain ⟨rfl, rfl⟩ := h
      rfl
  | .row .., b, h => by
      cases b <;> simp only [Expr.like, Bool.and_eq_true, decide_eq_true_eq,
        Bool.false_eq_true] at h
      obtain ⟨rfl, rfl⟩ := h
      rfl
  | .element .., b, h => by
      cases b <;> simp only [Expr.like, Bool.and_eq_true, decide_eq_true_eq,
        Bool.false_eq_true] at h
      obtain ⟨rfl, rfl⟩ := h
      rfl
  | .path base _ _, b, h => by
      cases b <;> simp only [Expr.like, Bool.and_eq_true, decide_eq_true_eq,
        Bool.false_eq_true] at h
      obtain ⟨⟨rfl, rfl⟩, inner⟩ := h
      rw [Expr.eq_of_like inner]
  | .component base _ _, b, h => by
      cases b <;> simp only [Expr.like, Bool.and_eq_true, decide_eq_true_eq,
        Bool.false_eq_true] at h
      obtain ⟨⟨rfl, rfl⟩, inner⟩ := h
      rw [Expr.eq_of_like inner]
  | .unary _ operand _, b, h => by
      cases b <;> simp only [Expr.like, Bool.and_eq_true, decide_eq_true_eq,
        Bool.false_eq_true] at h
      obtain ⟨⟨rfl, rfl⟩, inner⟩ := h
      rw [Expr.eq_of_like inner]
  | .binary _ left right _, b, h => by
      cases b <;> simp only [Expr.like, Bool.and_eq_true, decide_eq_true_eq,
        Bool.false_eq_true] at h
      obtain ⟨⟨⟨rfl, rfl⟩, first⟩, second⟩ := h
      rw [Expr.eq_of_like first, Expr.eq_of_like second]
  | .conditional test yes no _, b, h => by
      cases b <;> simp only [Expr.like, Bool.and_eq_true, decide_eq_true_eq,
        Bool.false_eq_true] at h
      obtain ⟨⟨⟨rfl, first⟩, second⟩, third⟩ := h
      rw [Expr.eq_of_like first, Expr.eq_of_like second, Expr.eq_of_like third]
  | .tuple items _, b, h => by
      cases b <;> simp only [Expr.like, Bool.and_eq_true, decide_eq_true_eq,
        Bool.false_eq_true] at h
      obtain ⟨rfl, inner⟩ := h
      rw [Expr.eq_of_likeAll inner]
  | .call _ args _, b, h => by
      cases b <;> simp only [Expr.like, Bool.and_eq_true, decide_eq_true_eq,
        Bool.false_eq_true] at h
      obtain ⟨⟨rfl, rfl⟩, inner⟩ := h
      rw [Expr.eq_of_likeAll inner]
  | .aggregate _ arg query _, b, h => by
      cases b <;> simp only [Expr.like, Likeness.exact, Bool.false_or, Bool.and_eq_true,
        decide_eq_true_eq, Bool.false_eq_true] at h
      obtain ⟨⟨⟨rfl, rfl⟩, first⟩, second⟩ := h
      rw [Expr.eq_of_likeOption first, Query.eq_of_like second]
  | .subQuery query _, b, h => by
      cases b <;> simp only [Expr.like, Likeness.exact, Bool.false_or, Bool.and_eq_true,
        decide_eq_true_eq, Bool.false_eq_true] at h
      obtain ⟨rfl, inner⟩ := h
      rw [Query.eq_of_like inner]

theorem Expr.eq_of_likeAll : ∀ {as bs : List Expr}, Expr.likeAll .exact as bs = true → as = bs
  | [], bs, h => by cases bs <;> simp_all [Expr.likeAll]
  | a :: as, bs, h => by
      cases bs <;> simp_all [Expr.likeAll]
      exact ⟨Expr.eq_of_like h.1, Expr.eq_of_likeAll h.2⟩

theorem Expr.eq_of_likeOption :
    ∀ {a b : Option Expr}, Expr.likeOption .exact a b = true → a = b
  | none, b, h => by cases b <;> simp_all [Expr.likeOption]
  | some a, b, h => by
      cases b <;> simp_all [Expr.likeOption]
      exact Expr.eq_of_like h

theorem Source.eq_of_likeAll :
    ∀ {as bs : List Source}, Source.likeAll .exact as bs = true → as = bs
  | [], bs, h => by cases bs <;> simp_all [Source.likeAll]
  | .entity _ _ :: as, bs, h => by
      rcases bs with _ | ⟨_ | _, bs⟩ <;> simp_all [Source.likeAll]
      exact Source.eq_of_likeAll h.2
  | .navigation _ path _ :: as, bs, h => by
      rcases bs with _ | ⟨_ | _, bs⟩ <;> simp_all [Source.likeAll]
      exact ⟨Expr.eq_of_like h.1.2, Source.eq_of_likeAll h.2⟩

theorem SortKey.eq_of_likeAll :
    ∀ {as bs : List SortKey}, SortKey.likeAll .exact as bs = true → as = bs
  | [], bs, h => by cases bs <;> simp_all [SortKey.likeAll]
  | ⟨key, _⟩ :: as, bs, h => by
      rcases bs with _ | ⟨⟨_, _⟩, bs⟩ <;> simp_all [SortKey.likeAll]
      exact ⟨Expr.eq_of_like h.1.2, SortKey.eq_of_likeAll h.2⟩

theorem Select.eq_of_like : ∀ {s t : Select}, Select.like .exact s t = true → s = t
  | ⟨sources, filters, projection, groupBy, having, orderBy, _, _, _, _, _, _⟩, t, h => by
      cases t
      simp only [Select.like, Likeness.exact_mark, Bool.and_eq_true, decide_eq_true_eq,
        beq_iff_eq] at h
      obtain ⟨⟨⟨⟨⟨⟨⟨⟨⟨⟨⟨rfl, rfl⟩, rfl⟩, rfl⟩, rfl⟩, rfl⟩, h₁⟩, h₂⟩, h₃⟩, h₄⟩, h₅⟩, h₆⟩ := h
      rw [Source.eq_of_likeAll h₁, Expr.eq_of_likeAll h₂, Expr.eq_of_likeOption h₃,
        Expr.eq_of_likeAll h₄, Expr.eq_of_likeAll h₅, SortKey.eq_of_likeAll h₆]

theorem Select.eq_of_likeEach :
    ∀ {ss ts : List Select}, Select.likeEach .exact ss ts = true → ss = ts
  | [], ts, h => by cases ts <;> simp_all [Select.likeEach]
  | s :: ss, ts, h => by
      cases ts <;> simp_all [Select.likeEach, Likeness.exact]
      exact ⟨Select.eq_of_like h.1, Select.eq_of_likeEach h.2⟩

theorem Query.eq_of_like : ∀ {q r : Query}, Query.like .exact q r = true → q = r
  | ⟨s, past⟩, r, h => by
      cases r
      simp only [Query.like, Likeness.exact_ofPast, Bool.and_eq_true] at h
      rw [Select.eq_of_like h.1, Select.eq_of_likeEach h.2]

end

theorem Expr.like_exact_iff {a b : Expr} : Expr.like .exact a b = true ↔ a = b :=
  ⟨Expr.eq_of_like, fun h => h ▸ a.like_self⟩

theorem Query.like_exact_iff {q r : Query} : Query.like .exact q r = true ↔ q = r :=
  ⟨Query.eq_of_like, fun h => h ▸ q.like_self⟩

theorem Select.like_exact_iff {s t : Select} : Select.like .exact s t = true ↔ s = t :=
  ⟨Select.eq_of_like, fun h => h ▸ s.like_self⟩

instance : DecidableEq Expr := fun _ _ => decidable_of_iff _ Expr.like_exact_iff

instance : DecidableEq Query := fun _ _ => decidable_of_iff _ Query.like_exact_iff

instance : DecidableEq Select := fun _ _ => decidable_of_iff _ Select.like_exact_iff

/-! ## Equality as values -/

/-- Doubles are compared as numbers, and a query is the same as itself. -/
def Likeness.usual : Likeness where
  value := Value.same
  mark _ _ := true
  query q r := decide (q = r)
  past s t := decide (s = t)
  pastQuery q r := decide (q = r)

/-- Equality of expressions. It differs from `=` in double constants and marks only. -/
def Expr.same (a b : Expr) : Bool := Expr.like .usual a b

def Query.same (q r : Query) : Bool := Query.like .usual q r

/-- Whether two selections range over the same rows: they have the same sources
and filters, whatever they project. -/
def Select.sameScope (s : Select) (l : Likeness) (t : Select) : Bool :=
  Source.likeAll l s.sources t.sources && Expr.likeAll l s.filters t.filters

end StreamQuery
