import StreamQuery.Proofs.Parameters
import StreamQuery.Proofs.Reading
import StreamQuery.Proofs.Spreading

/-! # Text literals stay in their quotes

By the rule for text literals a text falls into strings and the characters outside of
them. A literal is read as one string, whatever follows it but a quote. In the text of a
query whose names have no quotes a literal is never followed by one, so the strings of the
text are the text constants of the query, each of them in its place.
-/

namespace StreamQuery

/-! ## Strings of a text -/

/-- Takes a string: an opening quote, then all up to the first quote that is not written
twice. -/
def Reader.string : Reader String := do
  expect (.singleton Value.quoteMark)
  let s ← unquoted
  pure (.ofList s)

section

open Reader

variable {cs s after rest : List Char}

theorem length_unquoted (h : unquoted cs = some (s, after)) : after.length < cs.length := by
  fun_induction unquoted cs generalizing s with
  | case1 => cases h
  | case2 => cases h; simp
  | case3 => cases h
  | case4 rest ih =>
      obtain ⟨⟨_, _⟩, found, ⟨⟩⟩ := Option.map_eq_some_iff.mp h
      have shorter := ih found
      simp only [List.length_cons]
      omega
  | case5 => cases h; simp
  | case6 c d rest _ ih =>
      obtain ⟨⟨_, _⟩, found, ⟨⟩⟩ := Option.map_eq_some_iff.mp h
      exact Nat.lt_succ_of_lt (ih found)

theorem run_string (rest : List Char) : Reader.string.run (Value.quoteMark :: rest) =
    (unquoted rest).map fun (s, after) => (.ofList s, after) := by
  have opened : (expect (.singleton Value.quoteMark)).run (Value.quoteMark :: rest) =
      some ((), rest) :=
    reads_expect (.singleton Value.quoteMark) rest trivial
  simp only [Reader.string, StateT.run_bind, opened]
  exact Option.map_eq_bind.symm

theorem length_string {s : String} (h : Reader.string.run cs = some (s, after)) :
    after.length < cs.length := by
  cases cs with
  | nil => cases h
  | cons c rest =>
      by_cases quote : c = Value.quoteMark
      · subst quote
        rw [run_string] at h
        obtain ⟨⟨_, _⟩, found, ⟨⟩⟩ := Option.map_eq_some_iff.mp h
        exact Nat.lt_succ_of_lt (length_unquoted found)
      · have refused : (expect (.singleton Value.quoteMark)).run (c :: rest) = none :=
          run_expect_of_not fun begins => quote (List.cons_prefix_cons.mp begins).1.symm
        simp only [Reader.string, StateT.run_bind, refused] at h
        cases h

theorem toList_literal_append (s : String) (u : List Char) : (Value.text s).literal.toList ++ u =
    Value.quoteMark :: (Value.doubled s.toList ++ Value.quoteMark :: u) := by
  simp [Value.literal, Value.quoted]

/-- A text literal is read as the text, up to what follows it. -/
theorem run_string_literal (s : String) {u : List Char} (h : u.head? ≠ some Value.quoteMark) :
    Reader.string.run ((Value.text s).literal.toList ++ u) = some (s, u) := by
  rw [toList_literal_append, run_string, unquoted_doubled _ _ h]
  simp

end

inductive Token where
  | outside (c : Char)
  | string (s : String)
deriving DecidableEq, Repr

def Token.string? : Token → Option String
  | .outside _ => none
  | .string s => some s

/-- The strings of a text and the characters outside of them, if every string is closed. -/
def tokens? : List Char → Option (List Token)
  | [] => some []
  | c :: rest =>
    if c = Value.quoteMark then
      match h : Reader.string.run (c :: rest) with
      | some (s, after) =>
        have : after.length ≤ rest.length := Nat.le_of_lt_succ (length_string h)
        (tokens? after).map (.string s :: ·)
      | none => none
    else (tokens? rest).map (.outside c :: ·)
termination_by cs => cs.length

theorem tokens?_outside (s rest : List Char) (h : Value.quoteMark ∉ s) :
    tokens? (s ++ rest) = (tokens? rest).map (s.map .outside ++ ·) := by
  induction s with
  | nil => simp
  | cons c s ih =>
      rw [List.mem_cons, not_or] at h
      rw [List.cons_append, tokens?, if_neg (Ne.symm h.1), ih h.2, Option.map_map]
      rfl

theorem tokens?_literal (s : String) {u : List Char} (h : u.head? ≠ some Value.quoteMark) :
    tokens? ((Value.text s).literal.toList ++ u) = (tokens? u).map (.string s :: ·) := by
  have reads := run_string_literal s h
  rw [toList_literal_append] at reads ⊢
  rw [tokens?, if_pos rfl]
  split
  · next found =>
      rw [reads] at found
      cases found
      rfl
  · next found =>
      rw [reads] at found
      cases found

/-! ## Texts without quotes -/

theorem quoteMark_notMem_digits (n : Nat) : Value.quoteMark ∉ Nat.toDigits 10 n := fun quote =>
  absurd (Nat.isDigit_of_mem_toDigits (by decide) (by decide) quote) (by decide)

namespace Double

variable {digits : List Char}

theorem quoteMark_notMem_trimmed (h : Value.quoteMark ∉ digits) :
    Value.quoteMark ∉ trimmed digits := by
  intro quote
  rw [trimmed, List.mem_reverse] at quote
  exact h (List.mem_reverse.mp ((List.dropWhile_suffix _).mem quote))

theorem quoteMark_notMem_positional (h : Value.quoteMark ∉ digits) (place : Int) :
    Value.quoteMark ∉ positional digits place := by
  have zero : Value.quoteMark ≠ '0' := by decide
  have point : Value.quoteMark ≠ '.' := by decide
  have taken (n : Nat) : Value.quoteMark ∉ digits.take n := fun quote => h (List.mem_of_mem_take quote)
  have dropped (n : Nat) : Value.quoteMark ∉ digits.drop n := fun quote =>
    h (List.mem_of_mem_drop quote)
  unfold positional
  split
  · simp [h, zero, point]
  · dsimp only
    split <;> simp [taken, dropped, zero, point]

theorem quoteMark_notMem_exponential (h : Value.quoteMark ∉ digits) (place : Int) :
    Value.quoteMark ∉ exponential digits place := by
  have power : Value.quoteMark ∉ digitsOf place.natAbs := quoteMark_notMem_digits _
  have mark : Value.quoteMark ≠ 'e' := by decide
  have point : Value.quoteMark ≠ '.' := by decide
  have sign : Value.quoteMark ≠ '-' := by decide
  unfold exponential
  split <;> split <;> simp_all

theorem quoteMark_notMem_write (layout : Layout) (b : Binary) :
    Value.quoteMark ∉ layout.write b := by
  have digits := quoteMark_notMem_trimmed (quoteMark_notMem_digits (shortest b).coefficient)
  unfold Layout.write
  split
  · decide
  · dsimp only
    split
    · exact quoteMark_notMem_positional digits _
    · exact quoteMark_notMem_exponential digits _

theorem quoteMark_notMem_text (x : Double) : Value.quoteMark ∉ x.text.toList := by
  have sign : Value.quoteMark ≠ '-' := by decide
  have magnitude : Value.quoteMark ∉
      if x.isInf then ['i', 'n', 'f'] else literalLayout.write (Binary.ofDouble x) := by
    split
    · decide
    · exact quoteMark_notMem_write _ _
  unfold text
  split
  · decide
  · rw [String.toList_ofList]
    split
    · exact List.not_mem_cons_of_ne_of_not_mem sign magnitude
    · exact magnitude

end Double

/-- Only text literals have quotes. -/
theorem Value.quoteMark_notMem_literal {v : Value} (h : ∀ s, v ≠ .text s) :
    quoteMark ∉ v.literal.toList := by
  cases v with
  | null => decide
  | bool b => cases b <;> decide
  | int i =>
      rw [literal]
      cases i.toInt with
      | ofNat n =>
          rw [Lexicon.toList_toString_ofNat]
          exact quoteMark_notMem_digits n
      | negSucc n =>
          rw [Lexicon.toList_toString_negSucc]
          exact List.not_mem_cons_of_ne_of_not_mem (by decide) (quoteMark_notMem_digits _)
  | double x => exact x.quoteMark_notMem_text
  | text s => exact absurd rfl (h s)

theorem Binding.quoteMark_notMem_nameFor {stem : String} {shown : List Capture}
    {bindings : List Binding} (binds : BindsFirstUses stem shown bindings)
    (plain : Value.quoteMark ∉ stem.toList) (capture : Capture) :
    Value.quoteMark ∉ (nameFor bindings capture).toList := by
  unfold nameFor
  cases found : bindings.find? (·.reads capture) with
  | none => decide
  | some b =>
      obtain ⟨i, at_i⟩ := List.getElem?_of_mem (List.mem_of_find?_eq_some found)
      rw [Option.map_some, Option.getD_some, (binds.named i b at_i).2, String.toList_append,
        List.mem_append, not_or, Nat.toString_eq_ofList_toDigits, String.toList_ofList]
      exact ⟨plain, quoteMark_notMem_digits i⟩

/-! ## Strings of a phrase -/

def Fragment.string? : Fragment → Option String
  | .literal (.text s) => some s
  | _ => none

/-- A text literal is one string, all else is outside of strings. -/
def Fragment.tokens (bindings : List Binding) : Fragment → List Token
  | .literal (.text s) => [.string s]
  | fragment => (fragment.spelled bindings).toList.map .outside

namespace Phrase

variable {contents : List Fragment} {phrase : Phrase} {bindings : List Binding}

theorem toList_spelled_cons (fragment : Fragment) : (spelled bindings (fragment :: phrase)).toList =
    (fragment.spelled bindings).toList ++ (phrase.spelled bindings).toList := by
  rw [spelled, String.toList_append]

/-- Where a phrase may follow a literal, no quote does. -/
theorem Frames.head_spelled (h : phrase.Frames (· ≠ Value.quoteMark) contents)
    (opens : phrase.Opens) : (phrase.spelled bindings).toList.head? ≠ some Value.quoteMark := by
  cases h with
  | nil => simp [spelled]
  | @text s _ _ plain rest =>
      obtain ⟨c, more, split⟩ := List.exists_cons_of_ne_nil (mt String.toList_eq_nil_iff.mp opens)
      rw [toList_spelled_cons, Fragment.spelled, split]
      simpa using plain c (by simp [split])
  | @content f _ _ isContent =>
      cases f with
      | text s => cases isContent
      | literal | placeholder => exact opens.elim

/-- After each content of a phrase comes a phrase that may follow it. -/
theorem Frames.after {ok : Char → Prop} {before after : Phrase} {f : Fragment}
    (h : Frames ok contents (before ++ f :: after)) (isContent : f.isContent = true) :
    after.Opens ∧ ∃ later, after.Frames ok later := by
  induction before generalizing contents with
  | nil =>
      cases h with
      | text => cases isContent
      | content _ opens rest => exact ⟨opens, _, rest⟩
  | cons fragment before ih =>
      cases h with
      | text _ rest => exact ih rest
      | content _ _ rest => exact ih rest

/-- The text of a phrase falls into the strings that are its text literals, and the
characters of all else. -/
theorem Frames.tokens?_spelled (h : phrase.Frames (· ≠ Value.quoteMark) contents)
    (names : ∀ capture, Value.quoteMark ∉ (Binding.nameFor bindings capture).toList) :
    tokens? (phrase.spelled bindings).toList =
      some (phrase.flatMap (Fragment.tokens bindings)) := by
  induction h with
  | nil => simp [spelled, tokens?]
  | text plain _ ih =>
      rw [toList_spelled_cons, Fragment.spelled,
        tokens?_outside _ _ fun quote => plain _ quote rfl, ih]
      rfl
  | @content f _ phrase isContent opens rest ih =>
      rw [toList_spelled_cons]
      cases f with
      | text s => cases isContent
      | literal v =>
          by_cases string : ∃ s, v = .text s
          · obtain ⟨s, rfl⟩ := string
            rw [Fragment.spelled, tokens?_literal s (rest.head_spelled opens), ih]
            rfl
          · have other := not_exists.mp string
            rw [Fragment.spelled, tokens?_outside _ _ (Value.quoteMark_notMem_literal other), ih]
            cases v with
            | text s => exact absurd rfl (other s)
            | _ => rfl
      | placeholder capture =>
          have plain : Value.quoteMark ∉ (Fragment.spelled bindings (.placeholder capture)).toList := by
            rw [Fragment.spelled, String.toList_append, List.mem_append, not_or]
            exact ⟨by decide, names capture⟩
          rw [tokens?_outside _ _ plain, ih]
          rfl

/-- The strings of a phrase are the texts among its contents. -/
theorem Frames.strings {ok : Char → Prop} (h : phrase.Frames ok contents) :
    (phrase.flatMap (Fragment.tokens bindings)).filterMap Token.string? =
      contents.filterMap Fragment.string? := by
  have none (s : String) : (s.toList.map Token.outside).filterMap Token.string? = [] := by
    simp [List.filterMap_map, Function.comp_def, Token.string?]
  have here (f : Fragment) :
      (f.tokens bindings).filterMap Token.string? = f.string?.toList := by
    cases f with
    | literal v =>
        cases v with
        | text s => rfl
        | _ => exact none _
    | text | placeholder => exact none _
  induction h with
  | nil => rfl
  | text _ _ ih =>
      rw [List.flatMap_cons, List.filterMap_append, here, ih]
      rfl
  | @content f _ _ _ _ _ ih =>
      rw [List.flatMap_cons, List.filterMap_append, here, ih, List.filterMap_cons]
      cases f.string? <;> rfl

end Phrase

/-! ## Names in normal form -/

theorem Select.entities_of_skeleton {s t : Select} (h : s.skeleton = t.skeleton) :
    s.entities = t.entities := by
  have kept (s : Select) : s.entities = s.skeleton.sources.filterMap Source.entity? := by
    rw [skeleton, List.filterMap_map]
    exact List.filterMap_congr fun source _ => by cases source <;> rfl
  rw [kept, kept, h]

namespace Expr

theorem names_rebuild (pass : Pass) (e : Expr) : (pass.rebuild e).names = e.names := by
  have query (q : Query) : (pass.resultQuery q).current.entities = q.current.entities := by
    rw [Pass.resultQuery_eq]
    split
    · exact Select.entities_of_skeleton (Pass.skeleton_resultSelect _)
    · rfl
  cases e <;> simp [names, query?, query]

theorem names_marked (kept : Query → Bool) (m : Nat) (e : Expr) :
    (e.marked kept m).names = e.names := by
  have query (q : Query) (m : Nat) : (q.marked kept m).current.entities = q.current.entities := by
    obtain ⟨s, run, skeleton, -⟩ := q.fresh_run kept m
    rw [Query.marked]
    split
    · rfl
    · rw [run]
      exact Select.entities_of_skeleton skeleton
  cases e <;> simp [names, query?, query]

variable {ok : Char → Prop}

theorem foldable_named : Foldable (Named ok) where
  child _ hc h := (everywhere_iff.mp h).2 _ (mem_parts_true.mpr (.inl hc))
  bool b := everywhere_constant.mpr (by simp [names, query?])
  not h := everywhere_unary.mpr ⟨by simp [names, query?], h⟩
  predicate _ hl hr := everywhere_binary.mpr ⟨by simp [names, query?], hl, hr⟩
  text s := everywhere_constant.mpr (by simp [names, query?])
  neg _ _ := everywhere_constant.mpr (by simp [names, query?])
  arith _ _ := everywhere_constant.mpr (by simp [names, query?])

/-- Names last when nodes are built anew, and rules bring no new ones. -/
theorem lasting_named : Lasting fun node => ∀ name ∈ node.names, ∀ c ∈ name.toList, ok c where
  placing scope row h := by rwa [names_rebuild]
  rules held h := by rwa [names_rebuild]
  simplifying h := by rwa [names_rebuild]
  marked kept m h := by rwa [names_marked]
  reduced reduces h := foldable_named.of_reduces reduces h

end Expr

theorem Query.named_normalize {ok : Char → Prop} {q : Query} (h : q.current.Named ok) :
    q.normalize.current.Named ok where
  entities := by
    rw [Select.entities_of_skeleton q.normalize_spec.1]
    exact h.entities
  clauses := everywhere_normalize Expr.lasting_named h.clauses

namespace Query

open Rendering

/-- A text literal is read as its text, up to what follows it but a quote. So in the text of
a query, where no name has a quote, the strings are the text constants of the places that are
visited, in their order. Each literal is one string in its place, since no quote comes right
after a literal. -/
theorem texts_stay_quoted :
    (∀ (s : String) (u : List Char), u.head? ≠ some Value.quoteMark →
      Reader.string.run ((Value.text s).literal.toList ++ u) = some (s, u)) ∧
    ∀ (q : Query) (settings : Settings) (r : Rendered),
      (Expr.embed q).Named (· ≠ Value.quoteMark) → Value.quoteMark ∉ settings.paramStem.toList →
      q.render settings = .ok r →
      ∃ phrase aliases,
        (select rowsAlike q.normalize none : DraftM Phrase).run .empty = .ok (phrase, aliases) ∧
        phrase.filter Fragment.isContent = q.place.contents rowsAlike ∧
        r.text = phrase.spelled r.bindings ∧
        (∃ tokens, tokens? r.text.toList = some tokens ∧
          tokens = phrase.flatMap (Fragment.tokens r.bindings) ∧
          tokens.filterMap Token.string? =
            (q.place.contents rowsAlike).filterMap Fragment.string?) ∧
        ∀ (before : Phrase) (v : Value) (after : Phrase), phrase = before ++ .literal v :: after →
          (after.spelled r.bindings).toList.head? ≠ some Value.quoteMark := by
  refine ⟨fun s u => run_string_literal s, fun q settings r named stem renders => ?_⟩
  obtain ⟨phrase, aliases, ran, spelled, bindings⟩ := exists_draft_of_render renders
  have normal := named_normalize (Expr.named_subQuery.mp named)
  have frames : phrase.Frames (· ≠ Value.quoteMark) (q.place.contents rowsAlike) :=
    frames_query (fun _ other => other) normal ran
  have names : ∀ capture, Value.quoteMark ∉ (Binding.nameFor r.bindings capture).toList := by
    rw [bindings, Binding.allocateAll_eq_numbered]
    exact Binding.quoteMark_notMem_nameFor (bindsFirstUses_numbered _ _) stem
  refine ⟨phrase, aliases, ran, frames.filter, spelled, ⟨_, ?_, rfl, frames.strings⟩, ?_⟩
  · rw [spelled]
    exact frames.tokens?_spelled names
  · rintro before v after rfl
    obtain ⟨opens, later, rest⟩ := frames.after rfl
    exact rest.head_spelled opens

/-- Whether the name of a customer is a text that looks like the end of a literal and more. -/
def hasForgedName : Closure where
  body := ⟨1, [.entity "Customer"], [], .bool,
    [.loadParam 0, .invoke ⟨"Customer", "getName", 0, false⟩, .const (.text "' OR '1' = '1"),
      .invoke ⟨"String", "equals", 1, false⟩, .ret]⟩
  captured := []

def quotesAndName : Closure where
  body := ⟨2, [.entity "Customer"], [.text], .any,
    [.const (.text "''"), .loadParam 0, .invoke ⟨"Customer", "getName", 0, false⟩,
      .loadCapture 0, .newTuple 3, .ret]⟩
  captured := [⟨7⟩]

/-- No name has a quote, and the constants keep theirs. -/
theorem text_forgedName : (Reached.customers.chain "Customer"
      [.filter hasForgedName, .select quotesAndName]).map
    (fun q => (decide ((Expr.embed q).Named (· ≠ Value.quoteMark)), (q.render {}).map (·.text))) =
      .ok (true, .ok ("SELECT '''''', (A.name), :param0 FROM Customer A " ++
        "WHERE ((A.name) = ''' OR ''1'' = ''1')")) := by
  decide +kernel

theorem texts_stay_quoted_forgedName : ∃ q r, Reached.customers.chain "Customer"
      [.filter hasForgedName, .select quotesAndName] = .ok q ∧ q.render {} = .ok r ∧
    ∃ phrase aliases,
      (select rowsAlike q.normalize none : DraftM Phrase).run .empty = .ok (phrase, aliases) ∧
      phrase.filter Fragment.isContent = q.place.contents rowsAlike ∧
      r.text = phrase.spelled r.bindings ∧
      (∃ tokens, tokens? r.text.toList = some tokens ∧
        tokens = phrase.flatMap (Fragment.tokens r.bindings) ∧
        tokens.filterMap Token.string? =
          (q.place.contents rowsAlike).filterMap Fragment.string?) ∧
      ∀ (before : Phrase) (v : Value) (after : Phrase), phrase = before ++ .literal v :: after →
        (after.spelled r.bindings).toList.head? ≠ some Value.quoteMark := by
  obtain ⟨q, folds, found⟩ := Compile.map_eq_ok.mp text_forgedName
  obtain ⟨named, rendered⟩ := Prod.mk.inj found
  obtain ⟨r, renders, -⟩ := Compile.map_eq_ok.mp rendered
  exact ⟨q, r, folds, renders,
    texts_stay_quoted.2 q {} r (of_decide_eq_true named) (by decide) renders⟩

end Query

end StreamQuery
