import Mathlib.Data.List.Infix
import StreamQuery.Compile.Call

/-! # Patterns

What `LIKE` takes a pattern for, and what the patterns mean that are built for a search in a
text. A literal without wildcards stands for itself wherever it stands in a pattern, so a text
matches just if it starts with, ends with or contains the literal.
-/

namespace StreamQuery

namespace Pattern

/-- A text matches a pattern: `%` stands for any text, `_` for any one character, and every
other character for itself. There is no escape. -/
inductive Matches : (pattern text : List Char) → Prop where
  | done : Matches [] []
  | any {pattern text : List Char} (skipped : List Char) (h : Matches pattern text) :
      Matches ('%' :: pattern) (skipped ++ text)
  | one {pattern text : List Char} (c : Char) (h : Matches pattern text) :
      Matches ('_' :: pattern) (c :: text)
  | same {pattern text : List Char} {c : Char} (many : c ≠ '%') (single : c ≠ '_')
      (h : Matches pattern text) : Matches (c :: pattern) (c :: text)

/-- Tries every place where the text of a `%` can end. -/
def fits : (pattern text : List Char) → Bool
  | [], text => text.isEmpty
  | c :: pattern, text =>
    if c = '%' then text.tails.any (fits pattern)
    else match text with
      | [] => false
      | d :: text => (c == '_' || c == d) && fits pattern text

variable {pattern text : List Char}

theorem matches_nil : Matches [] text ↔ text = [] := by
  constructor
  · rintro ⟨⟩
    rfl
  · rintro rfl
    exact .done

theorem matches_any : Matches ('%' :: pattern) text ↔
    ∃ rest, rest <:+ text ∧ Matches pattern rest := by
  constructor
  · intro h
    cases h with
    | any skipped h => exact ⟨_, List.suffix_append .., h⟩
    | same many => exact absurd rfl many
  · rintro ⟨rest, ⟨skipped, rfl⟩, h⟩
    exact .any skipped h

theorem matches_one : Matches ('_' :: pattern) text ↔
    ∃ c rest, text = c :: rest ∧ Matches pattern rest := by
  constructor
  · intro h
    cases h with
    | one c h => exact ⟨c, _, rfl, h⟩
    | same many single => exact absurd rfl single
  · rintro ⟨c, rest, rfl, h⟩
    exact .one c h

theorem matches_same {c : Char} (many : c ≠ '%') (single : c ≠ '_') :
    Matches (c :: pattern) text ↔ ∃ rest, text = c :: rest ∧ Matches pattern rest := by
  constructor
  · intro h
    cases h with
    | any => exact absurd rfl many
    | one => exact absurd rfl single
    | same _ _ h => exact ⟨_, rfl, h⟩
  · rintro ⟨rest, rfl, h⟩
    exact .same many single h

theorem fits_iff : fits pattern text = true ↔ Matches pattern text := by
  induction pattern generalizing text with
  | nil => rw [fits, List.isEmpty_iff, matches_nil]
  | cons c pattern ih =>
      unfold fits
      split
      · next many =>
          subst many
          simp only [List.any_eq_true, List.mem_tails, ih, matches_any]
      · next many =>
          by_cases single : c = '_'
          · subst single
            cases text <;> simp [matches_one, ih]
          · cases text with
            | nil => simp [matches_same many single]
            | cons d text =>
                have other : (c == '_') = false := beq_false_of_ne single
                simp only [other, Bool.false_or, Bool.and_eq_true, beq_iff_eq, ih,
                  matches_same many single]
                constructor
                · rintro ⟨rfl, h⟩
                  exact ⟨text, rfl, h⟩
                · rintro ⟨_, ⟨⟩, h⟩
                  exact ⟨rfl, h⟩

instance : Decidable (Matches pattern text) := decidable_of_iff _ fits_iff

/-! ## Literals in patterns -/

/-- A text in which no character has a meaning of its own. -/
def Plain (literal : List Char) : Prop := '%' ∉ literal ∧ '_' ∉ literal

/-- A plain literal stands for itself, whatever follows it. -/
theorem matches_append {literal : List Char} (plain : Plain literal) :
    Matches (literal ++ pattern) text ↔ ∃ rest, text = literal ++ rest ∧ Matches pattern rest := by
  induction literal generalizing text with
  | nil => simp
  | cons c literal ih =>
      obtain ⟨many, single⟩ := plain
      rw [List.mem_cons, not_or] at many single
      rw [List.cons_append, matches_same (Ne.symm many.1) (Ne.symm single.1)]
      simp only [ih ⟨many.2, single.2⟩]
      constructor
      · rintro ⟨_, rfl, rest, rfl, h⟩
        exact ⟨rest, rfl, h⟩
      · rintro ⟨rest, rfl, h⟩
        exact ⟨_, rfl, rest, rfl, h⟩

/-- A last `%` leaves open what follows. -/
theorem matches_last : Matches ['%'] text := by
  simpa using Matches.any text .done

theorem matches_startsWith {literal : List Char} (plain : Plain literal) :
    Matches (literal ++ ['%']) text ↔ literal <+: text := by
  rw [matches_append plain]
  constructor
  · rintro ⟨rest, rfl, -⟩
    exact List.prefix_append ..
  · rintro ⟨rest, rfl⟩
    exact ⟨rest, rfl, matches_last⟩

theorem matches_plain {literal : List Char} (plain : Plain literal) :
    Matches literal text ↔ text = literal := by
  have ends : Matches (literal ++ []) text ↔ ∃ rest, text = literal ++ rest ∧ Matches [] rest :=
    matches_append plain
  simpa [matches_nil] using ends

theorem matches_endsWith {literal : List Char} (plain : Plain literal) :
    Matches ('%' :: literal) text ↔ literal <:+ text := by
  simp only [matches_any, matches_plain plain, exists_eq_right]

theorem matches_contains {literal : List Char} (plain : Plain literal) :
    Matches ('%' :: literal ++ ['%']) text ↔ literal <:+: text := by
  rw [List.cons_append, matches_any]
  simp only [matches_startsWith plain]
  constructor
  · rintro ⟨rest, ends, starts⟩
    exact starts.isInfix.trans ends.isInfix
  · rintro ⟨before, after, rfl⟩
    exact ⟨literal ++ after, ⟨before, (List.append_assoc ..).symm⟩, List.prefix_append ..⟩

end Pattern

/-! ## Searches -/

inductive Search where
  | startsWith
  | endsWith
  | contains
deriving DecidableEq, Repr

namespace Search

def method : Search → String
  | startsWith => "startsWith"
  | endsWith => "endsWith"
  | contains => "contains"

def Finds (literal text : String) : Search → Prop
  | startsWith => literal.toList <+: text.toList
  | endsWith => literal.toList <:+ text.toList
  | contains => literal.toList <:+: text.toList

instance (literal text : String) : (search : Search) → Decidable (search.Finds literal text)
  | startsWith => inferInstanceAs (Decidable (_ <+: _))
  | endsWith => inferInstanceAs (Decidable (_ <:+ _))
  | contains => inferInstanceAs (Decidable (_ <:+: _))

def pattern (literal : String) : Search → String
  | startsWith => literal ++ "%"
  | endsWith => "%" ++ literal
  | contains => "%" ++ literal ++ "%"

theorem pattern_method (search : Search) (literal : String) :
    Compile.pattern search.method literal = search.pattern literal := by
  cases search <;> rfl

theorem matches_pattern (search : Search) {literal : String} (plain : Pattern.Plain literal.toList)
    (text : String) : Pattern.Matches (search.pattern literal).toList text.toList ↔
      search.Finds literal text := by
  cases search with
  | startsWith =>
      rw [Finds, ← Pattern.matches_startsWith plain]
      simp [pattern]
  | endsWith =>
      rw [Finds, ← Pattern.matches_endsWith plain]
      simp [pattern]
  | contains =>
      rw [Finds, ← Pattern.matches_contains plain]
      simp [pattern]

end Search

namespace Compile

theorem any_isWildcard {literal : String} :
    literal.any isWildcard = true ↔ '%' ∈ literal.toList ∨ '_' ∈ literal.toList := by
  change literal.contains isWildcard = true ↔ _
  rw [String.contains_bool_eq, List.any_eq_true]
  constructor
  · rintro ⟨c, hc, wild⟩
    rcases Bool.or_eq_true_iff.mp wild with many | single
    · exact .inl (eq_of_beq many ▸ hc)
    · exact .inr (eq_of_beq single ▸ hc)
  · rintro (many | single)
    · exact ⟨_, many, rfl⟩
    · exact ⟨_, single, rfl⟩

/-- A search by its method comes to a pattern. -/
theorem valueCall_search {schema : Schema} (unowned : schema.isEntity "String" = false)
    (search : Search) (argc : Nat) (text searched : Expr) :
    valueCall schema ⟨"String", search.method, argc, false⟩ [text, searched] =
      ((like search.method text searched).map .value).mapError .obstacle := by
  have values : boxing? ⟨"String", search.method, argc, false⟩ = none := rfl
  have getter : tupleGetter? ⟨"String", search.method, argc, false⟩ = none := by
    simp [tupleGetter?, tupleOwners]
  simp only [valueCall, getter, values, unowned, Bool.not_false, Bool.true_and]
  cases search <;> rfl

/-- A literal is refused just if it has a wildcard. The pattern that is built for any other one
matches the texts in which the search finds the literal, and no others. Calls of the methods of
a text come to this, unless the texts are an entity of the schema. -/
theorem like_finds (search : Search) (text : Expr) (literal : String) (type : ValueType) :
    let searched : Expr := .constant (.text literal) type
    (∀ obstacle, like search.method text searched = .error obstacle ↔
      obstacle = .patternWildcard search.method ∧
        ('%' ∈ literal.toList ∨ '_' ∈ literal.toList)) ∧
    (∀ e, like search.method text searched = .ok e →
      ∃ pattern : String, e = .apply .like text (.literal (.text pattern)) ∧
        ∀ t : String, Pattern.Matches pattern.toList t.toList ↔ search.Finds literal t) ∧
    ∀ (schema : Schema) (argc : Nat), schema.isEntity "String" = false →
      valueCall schema ⟨"String", search.method, argc, false⟩ [text, searched] =
        ((like search.method text searched).map .value).mapError .obstacle := by
  intro searched
  have given : searched.asText = some literal := rfl
  refine ⟨fun obstacle => ?_, fun e accepted => ?_, fun schema argc unowned =>
    valueCall_search unowned search argc text searched⟩
  · simp only [like, given, ← any_isWildcard]
    split
    · next wild => simp [wild, @eq_comm _ obstacle]
    · next plain => simp [plain]
  · simp only [like, given] at accepted
    split at accepted
    · cases accepted
    · next plain =>
        cases accepted
        have plain : Pattern.Plain literal.toList := not_or.mp (mt any_isWildcard.mpr plain)
        rw [search.pattern_method]
        exact ⟨_, rfl, search.matches_pattern plain⟩

/-- A literal that overlaps itself is found where it stands twice over, and not where another
character comes between. -/
theorem like_finds_overlapping :
    ∃ pattern : String,
      like "contains" (.row 0 .text) (.constant (.text "aa") .text) =
        .ok (.apply .like (.row 0 .text) (.literal (.text pattern))) ∧
      Pattern.Matches pattern.toList "baaa".toList ∧
      ¬ Pattern.Matches pattern.toList "aba".toList := by
  obtain ⟨refused, accepted, -⟩ := like_finds .contains (.row 0 .text) "aa" .text
  cases outcome : like "contains" (.row 0 .text) (.constant (.text "aa") .text) with
  | error obstacle => exact absurd ((refused obstacle).mp outcome).2 (by decide)
  | ok e =>
      obtain ⟨pattern, rfl, finds⟩ := accepted e outcome
      refine ⟨pattern, rfl, (finds _).mpr ?_, mt (finds _).mp ?_⟩
      · decide
      · decide

end Compile

end StreamQuery
