import Mathlib.Data.Char
import Mathlib.Data.List.Induction
import Mathlib.Data.List.Shortlex
import Mathlib.Data.Set.Function
import StreamQuery.Rendering.Alias

/-! # Names of sources

Names are the words over the letters `A` to `Z`, counted by length and then in the order of the
alphabet. A table gives each new source the name of the next number, so different sources have
different names, and a source keeps its name in every later table.
-/

namespace StreamQuery

/-! ## Names by their letters -/

/-- The number that letters stand for, one more than that of the name. -/
def letterSum (sum : Nat) (letters : List Char) : Nat :=
  letters.foldl (fun sum c => sum * 26 + (c.toNat - 64)) sum

theorem toNat_letter : ∀ {n : Nat}, n < 26 → (letter n).toNat = 65 + n := by decide

theorem letterSum_aliasLetters (n : Nat) (found : List Char) :
    letterSum 0 (aliasLetters n found) = letterSum (n + 1) found := by
  fun_induction aliasLetters n found with
  | case1 n found small =>
      simp only [letterSum, List.foldl_cons, toNat_letter small]
      congr 1
      omega
  | case2 n found large ih =>
      rw [ih]
      have digit : n % 26 < 26 := Nat.mod_lt _ (by decide)
      simp only [letterSum, List.foldl_cons, toNat_letter digit]
      congr 1
      omega

theorem aliasName_inj {m n : Nat} (h : aliasName m = aliasName n) : m = n := by
  have letters : aliasLetters m [] = aliasLetters n [] := String.ofList_injective h
  have sums := letterSum_aliasLetters m []
  rw [letters, letterSum_aliasLetters] at sums
  exact (Nat.succ.inj sums).symm

theorem isUpper_letter : ∀ n < 26, (letter n).isUpper = true := by decide

theorem isUpper_aliasLetters (n : Nat) (found : List Char)
    (h : ∀ c ∈ found, c.isUpper = true) : aliasLetters n found ≠ [] ∧
      ∀ c ∈ aliasLetters n found, c.isUpper = true := by
  fun_induction aliasLetters n found with
  | case1 n found lt =>
      exact ⟨List.cons_ne_nil _ _, List.forall_mem_cons.mpr ⟨isUpper_letter n lt, h⟩⟩
  | case2 n found ge ih =>
      exact ih (List.forall_mem_cons.mpr ⟨isUpper_letter _ (Nat.mod_lt _ (by decide)), h⟩)

/-! ## Words in order -/

def IsWord (letters : List Char) : Prop := ∀ c ∈ letters, 'A' ≤ c ∧ c ≤ 'Z'

theorem toNat_of_mem {letters : List Char} (word : IsWord letters) {c : Char} (hc : c ∈ letters) :
    65 ≤ c.toNat ∧ c.toNat ≤ 90 := word c hc

theorem isUpper_iff {c : Char} : c.isUpper = true ↔ 'A' ≤ c ∧ c ≤ 'Z' :=
  decide_eq_true_iff

theorem letter_toNat_sub {c : Char} (least : 65 ≤ c.toNat) : letter (c.toNat - 65) = c := by
  rw [letter, Nat.add_sub_cancel' least, Char.ofNat_toNat]

theorem IsWord.tail {c : Char} {letters : List Char} (word : IsWord (c :: letters)) :
    IsWord letters :=
  fun d hd => word d (List.mem_cons_of_mem _ hd)

theorem letterSum_cons (sum : Nat) (c : Char) (letters : List Char) :
    letterSum sum (c :: letters) = letterSum (sum * 26 + (c.toNat - 64)) letters := by
  rw [letterSum, List.foldl_cons, letterSum]

theorem letterSum_append (sum : Nat) (letters more : List Char) :
    letterSum sum (letters ++ more) = letterSum (letterSum sum letters) more :=
  List.foldl_append ..

theorem letterSum_concat (sum : Nat) (letters : List Char) (c : Char) :
    letterSum sum (letters ++ [c]) = letterSum sum letters * 26 + (c.toNat - 64) :=
  List.foldl_concat ..

theorem letterSum_pos {letters : List Char} (word : IsWord letters) (ne : letters ≠ []) :
    0 < letterSum 0 letters := by
  obtain ⟨front, c, rfl⟩ := List.eq_nil_or_concat letters |>.resolve_left ne
  rw [List.concat_eq_append] at word ⊢
  have least := (toNat_of_mem word (List.mem_append_right _ List.mem_cons_self)).1
  rw [letterSum_concat]
  omega

/-- A word is the name with the number that its letters stand for. -/
theorem aliasLetters_letterSum {letters : List Char} (word : IsWord letters) (ne : letters ≠ [])
    (found : List Char) : aliasLetters (letterSum 0 letters - 1) found = letters ++ found := by
  induction letters using List.reverseRecOn generalizing found with
  | nil => exact absurd rfl ne
  | append_singleton letters c ih =>
      have front : IsWord letters := fun d hd => word d (List.mem_append_left _ hd)
      obtain ⟨least, greatest⟩ := toNat_of_mem word (List.mem_append_right _ List.mem_cons_self)
      have sum : letterSum 0 (letters ++ [c]) - 1 = letterSum 0 letters * 26 + (c.toNat - 65) := by
        rw [letterSum_concat]
        omega
      rw [sum]
      by_cases single : letters = []
      · subst single
        have small : letterSum 0 [] * 26 + (c.toNat - 65) < 26 := by
          simp only [letterSum, List.foldl_nil]
          omega
        rw [aliasLetters, if_pos small]
        simp [letterSum, letter_toNat_sub least]
      · have positive := letterSum_pos front single
        have large : ¬ letterSum 0 letters * 26 + (c.toNat - 65) < 26 := by omega
        have higher : (letterSum 0 letters * 26 + (c.toNat - 65)) / 26 - 1 =
            letterSum 0 letters - 1 := by omega
        have last : (letterSum 0 letters * 26 + (c.toNat - 65)) % 26 = c.toNat - 65 := by omega
        rw [aliasLetters, if_neg large, higher, last, letter_toNat_sub least, ih front single]
        simp

/-- What stands in front counts for more than all letters after it. -/
theorem letterSum_lt_of_lt {sum sum' : Nat} (lt : sum < sum') {letters letters' : List Char}
    (word : IsWord letters) (word' : IsWord letters') (length : letters.length = letters'.length) :
    letterSum sum letters < letterSum sum' letters' := by
  induction letters generalizing sum sum' letters' with
  | nil =>
      obtain rfl := List.length_eq_zero_iff.mp length.symm
      exact lt
  | cons c letters ih =>
      obtain ⟨c', letters', rfl⟩ := List.exists_cons_of_length_eq_add_one length.symm
      have greatest := (toNat_of_mem word List.mem_cons_self).2
      have least := (toNat_of_mem word' List.mem_cons_self).1
      rw [letterSum_cons, letterSum_cons]
      refine ih ?_ word.tail word'.tail (Nat.succ.inj length)
      omega

theorem letterSum_lt_of_lex {letters letters' : List Char} (lex : List.Lex (· < ·) letters letters')
    (word : IsWord letters) (word' : IsWord letters') (length : letters.length = letters'.length)
    (sum : Nat) : letterSum sum letters < letterSum sum letters' := by
  induction lex generalizing sum with
  | nil => simp at length
  | @cons c letters letters' lex ih =>
      exact ih word.tail word'.tail (Nat.succ.inj length) _
  | @rel c letters c' letters' lt =>
      have below : c.toNat < c'.toNat := lt
      have least := (toNat_of_mem word List.mem_cons_self).1
      rw [letterSum_cons, letterSum_cons]
      refine letterSum_lt_of_lt ?_ word.tail word'.tail (Nat.succ.inj length)
      omega

/-- A longer word has a letter more in front of as many as a shorter one has. -/
theorem letterSum_lt_of_length_lt {letters letters' : List Char} (word : IsWord letters)
    (word' : IsWord letters') (shorter : letters.length < letters'.length) :
    letterSum 0 letters < letterSum 0 letters' := by
  have split := List.take_append_drop (letters'.length - letters.length) letters'
  have front : IsWord (letters'.take (letters'.length - letters.length)) := fun d hd =>
    word' d (List.mem_of_mem_take hd)
  have positive := letterSum_pos front (by
    refine List.ne_nil_of_length_pos ?_
    rw [List.length_take]
    omega)
  rw [← split, letterSum_append]
  refine letterSum_lt_of_lt positive word (fun d hd => word' d (List.mem_of_mem_drop hd)) ?_
  rw [List.length_drop]
  omega

theorem letterSum_lt_of_shortlex {letters letters' : List Char}
    (before : List.Shortlex (· < ·) letters letters') (word : IsWord letters)
    (word' : IsWord letters') : letterSum 0 letters < letterSum 0 letters' := by
  rcases List.shortlex_def.mp before with shorter | ⟨length, lex⟩
  · exact letterSum_lt_of_length_lt word word' shorter
  · exact letterSum_lt_of_lex lex word word' length 0

theorem toList_aliasName (n : Nat) : (aliasName n).toList = aliasLetters n [] :=
  String.toList_ofList

theorem isWord_aliasName (n : Nat) : (aliasName n).toList ≠ [] ∧ IsWord (aliasName n).toList := by
  rw [toList_aliasName]
  obtain ⟨ne, upper⟩ := isUpper_aliasLetters n [] nofun
  exact ⟨ne, fun c hc => isUpper_iff.mp (upper c hc)⟩

theorem letterSum_aliasName (n : Nat) : letterSum 0 (aliasName n).toList = n + 1 := by
  rw [toList_aliasName, letterSum_aliasLetters]
  rfl

/-- Names are listed by length, and those of one length as in a dictionary. -/
theorem shortlex_aliasName {m n : Nat} :
    List.Shortlex (· < ·) (aliasName m).toList (aliasName n).toList ↔ m < n := by
  have forth {m n : Nat} (h : List.Shortlex (· < ·) (aliasName m).toList (aliasName n).toList) :
      m < n := by
    have sums := letterSum_lt_of_shortlex h (isWord_aliasName m).2 (isWord_aliasName n).2
    rw [letterSum_aliasName, letterSum_aliasName] at sums
    omega
  refine ⟨forth, fun lt => ?_⟩
  rcases trichotomous_of (List.Shortlex (· < ·)) (aliasName m).toList (aliasName n).toList with
    before | same | after
  · exact before
  · exact absurd (aliasName_inj (String.toList_injective same)) (Nat.ne_of_lt lt)
  · exact absurd (forth after) (Nat.lt_asymm lt)

example : [0, 25, 26, 701, 702].map aliasName = ["A", "Z", "AA", "ZZ", "AAA"] := by cbv

/-- The names are all the words there are, each once. -/
theorem bijOn_aliasName :
    Set.BijOn aliasName Set.univ {name | name.toList ≠ [] ∧ IsWord name.toList} := by
  refine ⟨fun n _ => isWord_aliasName n, fun m _ n _ => aliasName_inj, ?_⟩
  rintro name ⟨ne, word⟩
  refine ⟨letterSum 0 name.toList - 1, trivial, ?_⟩
  rw [aliasName, aliasLetters_letterSum word ne, List.append_nil, String.ofList_toList]

/-! ## Tables -/

namespace Aliases

variable {t t' t'' : Aliases} {tables tables' : List Aliases} {id id' : SourceId} {name : String}

def ids (t : Aliases) : List SourceId := t.names.map Prod.fst

theorem isSome_alias? : (t.alias? id).isSome = true ↔ id ∈ t.ids := by
  rw [alias?, ids]
  induction t.names with
  | nil => simp
  | cons pair names ih =>
      rw [List.lookup_cons]
      split
      · next same => simp [beq_iff_eq.mp same]
      · next other => simp [ih, beq_eq_false_iff_ne.mp other]

/-- A name tells by its number where it stands. -/
theorem exists_getElem?_of_alias? (h : t.alias? id = some name) :
    ∃ n, t.names[n]? = some (id, name) ∧ name = aliasName n := by
  obtain ⟨before, after, names, -⟩ := List.lookup_eq_some_iff.mp h
  have here : t.names[before.length]? = some (id, name) := by simp [names]
  refine ⟨before.length, here, ?_⟩
  have inside : before.length < t.names.length := (List.getElem?_eq_some_iff.mp here).1
  have named : (t.names.map Prod.snd)[before.length]? = some name := by simp [here]
  rw [t.numbered, List.getElem?_map, List.getElem?_range inside] at named
  exact (Option.some.inj named).symm

theorem alias?_inj (h : t.alias? id = some name) (h' : t.alias? id' = some name) : id = id' := by
  obtain ⟨m, found, rfl⟩ := exists_getElem?_of_alias? h
  obtain ⟨n, found', same⟩ := exists_getElem?_of_alias? h'
  obtain rfl := aliasName_inj same
  rw [found] at found'
  cases found'
  rfl

theorem isUpper_alias (h : t.alias? id = some name) : name.toList ≠ [] ∧
    ∀ c ∈ name.toList, c.isUpper = true := by
  obtain ⟨n, -, rfl⟩ := exists_getElem?_of_alias? h
  rw [toList_aliasName]
  exact isUpper_aliasLetters n [] (by simp)

def KeptIn (earlier later : Aliases) : Prop :=
  ∀ id name, earlier.alias? id = some name → later.alias? id = some name

theorem KeptIn.trans (h : KeptIn t t') (h' : KeptIn t' t'') : KeptIn t t'' :=
  fun id name named => h' id name (h id name named)

/-- A source that has a name keeps it, and one that has none gets the next. -/
theorem keptIn_add (t : Aliases) (id : SourceId) : t.KeptIn (t.add id) := by
  intro id' name named
  unfold add
  split
  · exact named
  · rw [alias?, List.lookup_append]
    exact Option.or_eq_some_iff.mpr (.inl named)

theorem mem_ids_add : id ∈ (t.add id').ids ↔ id ∈ t.ids ∨ id = id' := by
  unfold add
  split
  · next known =>
      constructor
      · exact .inl
      · rintro (old | rfl)
        · exact old
        · exact isSome_alias?.mp known
  · simp [ids]

theorem mem_ids_addAll {sources : List Source} :
    id ∈ (t.addAll sources).ids ↔ id ∈ t.ids ∨ id ∈ sources.map Source.id := by
  induction sources generalizing t with
  | nil => simp [addAll]
  | cons s ss ih =>
      have step : t.addAll (s :: ss) = (t.add s.id).addAll ss := rfl
      rw [step, ih, mem_ids_add]
      simp [or_assoc]

/-- The tables from one on to another, each with one source more or none. -/
inductive Grows : Aliases → List Aliases → Aliases → Prop where
  | still (t : Aliases) : Grows t [] t
  | add {t last : Aliases} {tables : List Aliases} (id : SourceId)
      (h : Grows (t.add id) tables last) : Grows t (t.add id :: tables) last

theorem Grows.append (h : Grows t tables t') (h' : Grows t' tables' t'') :
    Grows t (tables ++ tables') t'' := by
  induction h with
  | still t => exact h'
  | add id h ih => exact .add id (ih h')

theorem Grows.pairwise (h : Grows t tables t') : (t :: tables).Pairwise KeptIn := by
  induction h with
  | still t => exact List.pairwise_singleton ..
  | @add t last tables id h ih =>
      refine List.pairwise_cons.mpr ⟨fun later mem => ?_, ih⟩
      rcases List.mem_cons.mp mem with rfl | mem
      · exact keptIn_add t id
      · exact (keptIn_add t id).trans ((List.pairwise_cons.mp ih).1 later mem)

theorem Grows.getLast? (h : Grows t tables t') : (t :: tables).getLast? = some t' := by
  induction h with
  | still t => rfl
  | add id h ih => exact ih

def addingAll (t : Aliases) : List Source → List Aliases
  | [] => []
  | source :: sources => t.add source.id :: addingAll (t.add source.id) sources

theorem grows_addingAll (t : Aliases) (sources : List Source) :
    Grows t (t.addingAll sources) (t.addAll sources) := by
  induction sources generalizing t with
  | nil => exact .still t
  | cons source sources ih => exact .add source.id (ih (t.add source.id))

end Aliases

end StreamQuery
