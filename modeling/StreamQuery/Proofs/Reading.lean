import Mathlib
import StreamQuery.Expr.Basic

/-! # Reading expressions

A reader for the text of expressions over rows and captured variables. It gives the tree
of an expression without what is not written. Where an operand is expected, the text of
each form is legible: the reader takes it whatever follows, and before an operator it takes
it for nothing but the first of two operands.
-/

namespace StreamQuery

/-! ## Trees without what is not written -/

def Capture.bare (c : Capture) : Capture := ⟨0, c.slot, .any, c.cell⟩

def FieldRef.ofName (name : String) : FieldRef := ⟨"", name, .any⟩

namespace Expr

mutual

/-- The tree of an expression without its types, the closures and types of its captured
variables, and the owners and types of its fields. -/
def bare : Expr → Expr
  | constant value _ => constant value .any
  | param capture _ => param capture.bare .any
  | row source _ => row source .any
  | path base field _ => path (bare base) (.ofName field.name) .any
  | unary op operand _ => unary op (bare operand) .any
  | binary op left right _ => binary op (bare left) (bare right) .any
  | conditional test yes no _ => conditional (bare test) (bare yes) (bare no) .any
  | call fn args _ => call fn (bareAll args) .any
  | e => e

def bareAll : List Expr → List Expr
  | [] => []
  | e :: es => bare e :: bareAll es

end

end Expr

/-! ## A reader -/

abbrev Reader := StateT (List Char) Option

namespace Reader

def expect (mark : String) : Reader Unit := fun cs =>
  if mark.toList.isPrefixOf cs then some ((), cs.drop mark.toList.length) else none

def span (p : Char → Bool) : Reader (List Char) := fun cs => some (cs.takeWhile p, cs.dropWhile p)

def given {α : Type} (found : Option α) : Reader α := fun cs => found.map (·, cs)

/-- The inside of a text literal, where a quote that is written twice is one, and what
comes after its closing quote. -/
def unquoted : List Char → Option (List Char × List Char)
  | [] => none
  | [c] => if c = Value.quoteMark then some ([], []) else none
  | c :: d :: rest =>
    if c = Value.quoteMark then
      if d = Value.quoteMark then (unquoted rest).map fun (s, after) => (c :: s, after)
      else some ([], d :: rest)
    else (unquoted (d :: rest)).map fun (s, after) => (c :: s, after)

def natural : Reader Nat := do
  let digits ← span Char.isDigit
  pure (Nat.ofDigitChars 10 digits 0)

def integer (sign : Int) : Reader Expr := do
  let n ← natural
  pure (.constant (.int (.ofInt (sign * n))) .any)

def text : Reader Expr := do
  let s ← unquoted
  pure (.constant (.text (.ofList s)) .any)

end Reader

/-- What the names of a text stand for. -/
structure Lexicon where
  /-- What the names of parameters begin with. -/
  stem : String
  capture? : Nat → Option Capture
  source? : String → Option SourceId

namespace Lexicon

open Reader

variable (names : Lexicon)

def placeholder : Reader Expr := do
  expect names.stem
  let index ← natural
  let capture ← given (names.capture? index)
  pure (.param capture .any)

def fieldNames : Reader (List (List Char)) := do
  let inside ← span (· ≠ ')')
  expect ")"
  pure (inside.splitOn '.')

def along (root : Expr) (fields : List (List Char)) : Expr :=
  fields.foldl (fun base field => .path base (.ofName (.ofList field)) .any) root

def rowPath : Reader Expr := do
  let root ← span Char.isUpper
  expect "."
  let id ← given (names.source? (.ofList root))
  let fields ← fieldNames
  pure (along (.row id .any) fields)

section

variable (operand : Reader Expr)

def negation : Reader Expr := do
  expect "NOT "
  let e ← operand
  expect ")"
  pure (.unary .not e .any)

def opposite : Reader Expr := do
  expect "-"
  let e ← operand
  expect ")"
  pure (.unary .neg e .any)

def choice : Reader Expr := do
  expect "CASE WHEN "
  let test ← operand
  expect " THEN "
  let yes ← operand
  expect " ELSE "
  let no ← operand
  expect " END)"
  pure (.conditional test yes no .any)

def operator : Reader BinaryOp := do
  let symbol ← span (· ≠ ' ')
  given (BinaryOp.all.find? (·.symbol.toList == symbol))

def between : Reader Expr := do
  let left ← operand
  expect " "
  let op ← operator
  expect " "
  let right ← operand
  expect ")"
  pure (.binary op left right .any)

def pair (op : BinaryOp) : Reader Expr := do
  let left ← operand
  expect ", "
  let right ← operand
  expect ")"
  pure (.binary op left right .any)

/-- Arguments up to the closing parenthesis, at least one and at most as many as there is
fuel. -/
def arguments : (fuel : Nat) → Reader (List Expr)
  | 0 => failure
  | fuel + 1 => do
    let first ← operand
    (do expect ")"; pure [first]) <|> do
      expect ", "
      let rest ← arguments fuel
      pure (first :: rest)

def function (fuel : Nat) (name : List Char) : Reader Expr :=
  if name = "MOD".toList then pair operand (.arith .rem)
  else if name = "CONCAT".toList then pair operand .concat
  else do
    let fn ← given (ScalarFn.all.find? (·.name.toList == name))
    let args ← arguments operand fuel <|> (do expect ")"; pure [])
    pure (.call fn args .any)

def named (name : List Char) : Option Expr :=
  if name = "NULL".toList then some (.constant .null .any)
  else if name = "TRUE".toList then some (.constant (.bool true) .any)
  else if name = "FALSE".toList then some (.constant (.bool false) .any)
  else (names.source? (.ofList name)).map (.row · .any)

def word (fuel : Nat) : Reader Expr := do
  let name ← span Char.isUpper
  (do expect "("; function operand fuel name) <|> given (names.named name)

/-- What can stand after an opening parenthesis but two operands. -/
def special : Reader Expr :=
  negation operand <|> choice operand <|> opposite operand <|> rowPath names

def formAt (fuel : Nat) (c : Char) : Reader Expr :=
  if c = '(' then do expect "("; special names operand <|> between operand
  else if c = Value.quoteMark then do expect (.singleton Value.quoteMark); Reader.text
  else if c = ':' then do expect ":"; placeholder names
  else if c = '-' then do expect "-"; integer (-1)
  else if c.isDigit then integer 1
  else if c.isUpper then word names operand fuel
  else failure

def form (fuel : Nat) : Reader Expr := do
  match ← get with
  | [] => failure
  | c :: _ => formAt names operand fuel c

end

def read : (fuel : Nat) → Reader Expr
  | 0 => failure
  | fuel + 1 => form names (read fuel) fuel

end Lexicon

/-! ## What a reader takes -/

namespace Reader

variable {α β : Type} {x y : Reader α} {f : α → Reader β} {a : α} {b : β}
  {cs text text' : List Char} {after after' : List Char → Prop}

/-- A reader takes a text for a value, whatever follows it under a condition. -/
def Reads (after : List Char → Prop) (x : Reader α) (text : List Char) (a : α) : Prop :=
  ∀ rest, after rest → x.run (text ++ rest) = some (a, rest)

def Any : List Char → Prop := fun _ => True

/-- After an operand the text ends, or a blank, a comma or a closing parenthesis follows. -/
def Ends (rest : List Char) : Prop := ∀ c ∈ rest.head?, c = ' ' ∨ c = ',' ∨ c = ')'

theorem ends_of_head {c : Char} (head : cs.head? = some c) (h : c = ' ' ∨ c = ',' ∨ c = ')') :
    Ends cs := by
  intro d hd
  obtain rfl : c = d := by simpa [head] using hd
  exact h

theorem Ends.head_ne {rest : List Char} (h : Ends rest) {c : Char}
    (other : ¬ (c = ' ' ∨ c = ',' ∨ c = ')')) : rest.head? ≠ some c :=
  fun head => other (h c head)

theorem Ends.head_false {rest : List Char} (h : Ends rest) {p : Char → Bool}
    (blank : p ' ' = false) (comma : p ',' = false) (closing : p ')' = false) :
    ∀ c ∈ rest.head?, p c = false := by
  intro c hc
  rcases h c hc with rfl | rfl | rfl
  · exact blank
  · exact comma
  · exact closing

theorem head_false {p : Char → Bool} {c : Char} (head : cs.head? = some c) (h : p c = false) :
    ∀ d ∈ cs.head?, p d = false := by
  intro d hd
  obtain rfl : c = d := by simpa [head] using hd
  exact h

theorem Reads.mono (h : Reads after x text a) (imp : ∀ rest, after' rest → after rest) :
    Reads after' x text a :=
  fun rest hrest => h rest (imp rest hrest)

theorem reads_pure : Reads after (pure a) [] a := fun _ _ => rfl

theorem Reads.bind (hx : Reads after' x text a) (hf : Reads after (f a) text' b)
    (h : ∀ rest, after rest → after' (text' ++ rest)) :
    Reads after (x >>= f) (text ++ text') b := by
  intro rest hrest
  rw [List.append_assoc, StateT.run_bind, hx _ (h rest hrest)]
  exact hf rest hrest

theorem Reads.map (hx : Reads after x text a) (g : α → β) :
    Reads after (x >>= fun a => pure (g a)) text (g a) := by
  intro rest hrest
  rw [StateT.run_bind, hx rest hrest]
  rfl

theorem run_orElse_of_none (h : x.run cs = none) : (x <|> y).run cs = y.run cs := by
  change (x.run cs <|> y.run cs) = _
  rw [h]
  rfl

theorem Reads.orElse (h : Reads after x text a) : Reads after (x <|> y) text a := by
  intro rest hrest
  change (x.run (text ++ rest) <|> y.run (text ++ rest)) = _
  rw [h rest hrest]
  rfl

theorem Reads.orElse_right (h : Reads after y text a)
    (fails : ∀ rest, after rest → x.run (text ++ rest) = none) :
    Reads after (x <|> y) text a := by
  intro rest hrest
  rw [run_orElse_of_none (fails rest hrest)]
  exact h rest hrest

theorem run_bind_of_some {rest : List Char} (h : x.run cs = some (a, rest)) :
    (x >>= f).run cs = (f a).run rest := by
  rw [StateT.run_bind, h]
  rfl

theorem run_bind_of_none (h : x.run cs = none) : (x >>= f).run cs = none := by
  rw [StateT.run_bind, h]
  rfl

theorem reads_expect (mark : String) : Reads Any (expect mark) mark.toList () := by
  intro rest _
  have begins : mark.toList.isPrefixOf (mark.toList ++ rest) = true :=
    List.isPrefixOf_iff_prefix.mpr (List.prefix_append ..)
  simp [expect, StateT.run, begins]

theorem Reads.expect {mark : String} (hx : Reads after x text a) :
    Reads after (expect mark >>= fun _ => x) (mark.toList ++ text) a :=
  (reads_expect mark).bind hx fun _ _ => trivial

theorem run_expect_of_not {mark : String} (h : ¬ mark.toList <+: cs) :
    (expect mark).run cs = none := by
  have differs : mark.toList.isPrefixOf cs = false := by
    refine Bool.eq_false_iff.mpr fun begins => h (List.isPrefixOf_iff_prefix.mp begins)
  simp [Reader.expect, StateT.run, differs]

theorem reads_given {found : Option α} (h : found = some a) : Reads Any (given found) [] a := by
  intro rest _
  rw [h]
  rfl

theorem Reads.given {found : Option α} (h : found = some a) (hf : Reads after (f a) text b) :
    Reads after (given found >>= f) text b :=
  (reads_given h).bind hf fun _ _ => trivial

theorem reads_span {p : Char → Bool} (inside : ∀ c ∈ text, p c = true) :
    Reads (fun rest => ∀ c ∈ rest.head?, p c = false) (span p) text text := by
  intro rest stops
  have stop : rest.takeWhile p = [] ∧ rest.dropWhile p = rest := by
    cases rest with
    | nil => simp
    | cons c rest => simp [stops c rfl]
  simp [span, StateT.run, List.takeWhile_append_of_pos inside, List.dropWhile_append_of_pos inside,
    stop]

/-- Upper letters end where another character comes. -/
theorem word_of_prefix {k w ms more : List Char} {m d : Char} (hk : ∀ c ∈ k, c.isUpper = true)
    (hw : ∀ c ∈ w, c.isUpper = true) (hm : m.isUpper = false) (hd : d.isUpper = false)
    (h : k ++ m :: ms <+: w ++ d :: more) : k = w ∧ m = d := by
  obtain ⟨rest, same⟩ := h
  have words := congrArg (List.takeWhile Char.isUpper) same
  rw [List.append_assoc, List.takeWhile_append_of_pos hk, List.takeWhile_append_of_pos hw] at words
  simp only [List.cons_append, List.takeWhile_cons, hm, hd] at words
  obtain rfl : k = w := by simpa using words
  rw [List.append_assoc, List.append_cancel_left_eq] at same
  exact ⟨rfl, (List.cons.inj same).1⟩

/-! ## Numbers and texts -/

theorem reads_natural (n : Nat) : Reads Ends natural (Nat.toDigits 10 n) n := by
  have digits : ∀ c ∈ Nat.toDigits 10 n, c.isDigit = true := fun c hc =>
    Nat.isDigit_of_mem_toDigits (by decide) (by decide) hc
  have spanned : Reads Ends (span Char.isDigit) (Nat.toDigits 10 n) (Nat.toDigits 10 n) :=
    (reads_span digits).mono fun rest ends => ends.head_false rfl rfl rfl
  have reads := spanned.map fun digits => Nat.ofDigitChars 10 digits 0
  rwa [Nat.ofDigitChars_ten_toDigits] at reads

theorem unquoted_doubled (s rest : List Char) (h : rest.head? ≠ some Value.quoteMark) :
    unquoted (Value.doubled s ++ Value.quoteMark :: rest) = some (s, rest) := by
  induction s with
  | nil =>
      cases rest with
      | nil => simp [Value.doubled, unquoted]
      | cons c rest =>
          have other : c ≠ Value.quoteMark := by simpa using h
          simp [Value.doubled, unquoted, other]
  | cons c s ih =>
      by_cases quote : c = Value.quoteMark
      · simp [Value.doubled, quote, unquoted, ih]
      · have more : ∃ d t, Value.doubled s ++ Value.quoteMark :: rest = d :: t := by
          cases Value.doubled s with
          | nil => exact ⟨_, _, rfl⟩
          | cons d t => exact ⟨_, _, rfl⟩
        obtain ⟨d, t, split⟩ := more
        rw [split] at ih
        simp [Value.doubled, quote, split, unquoted, ih]

theorem reads_unquoted (s : List Char) :
    Reads Ends unquoted (Value.doubled s ++ [Value.quoteMark]) s := by
  intro rest ends
  rw [List.append_assoc]
  exact unquoted_doubled s rest (ends.head_ne (by decide))

end Reader

namespace Lexicon

open Reader

variable {names : Lexicon} {operand : Reader Expr} {e e' e'' : Expr} {text text' text'' : List Char}
  {fuel : Nat}

/-! ## Forms -/

section Forms

variable (he : Reads Ends operand text e) (he' : Reads Ends operand text' e')
  (he'' : Reads Ends operand text'' e'')

include he in
theorem reads_closing {α : Type} (g : Expr → α) :
    Reads Any (do let e ← operand; expect ")"; pure (g e)) (text ++ ")".toList) (g e) :=
  he.bind ((reads_expect ")").map fun _ => g e) fun rest _ => ends_of_head rfl (by decide)

include he in
theorem reads_negation :
    Reads Any (negation operand) ("NOT ".toList ++ (text ++ ")".toList)) (.unary .not e .any) :=
  (reads_closing he fun e => Expr.unary .not e .any).expect

include he in
theorem reads_opposite :
    Reads Any (opposite operand) ("-".toList ++ (text ++ ")".toList)) (.unary .neg e .any) :=
  (reads_closing he fun e => Expr.unary .neg e .any).expect

include he he' in
theorem reads_pair (op : BinaryOp) : Reads Any (pair operand op)
    (text ++ (", ".toList ++ (text' ++ ")".toList))) (.binary op e e' .any) :=
  he.bind (reads_closing he' fun right => Expr.binary op e right .any).expect fun rest _ =>
    ends_of_head rfl (by decide)

include he he' he'' in
theorem reads_choice : Reads Any (choice operand)
    ("CASE WHEN ".toList ++ (text ++ (" THEN ".toList ++ (text' ++ (" ELSE ".toList ++
      (text'' ++ " END)".toList)))))) (.conditional e e' e'' .any) := by
  refine Reads.expect (he.bind (Reads.expect (he'.bind (Reads.expect (he''.bind
    ((reads_expect " END)").map fun _ => Expr.conditional e e' e'' .any) ?_)) ?_)) ?_)
  all_goals exact fun rest _ => ends_of_head rfl (by decide)

theorem reads_operator (op : BinaryOp) :
    Reads (·.head? = some ' ') operator op.symbol.toList op := by
  have found : BinaryOp.all.find? (·.symbol.toList == op.symbol.toList) = some op := by
    cases op with
    | arith op => cases op <;> rfl
    | compare op => cases op <;> rfl
    | and | or | concat | like => rfl
  have solid : op.symbol.toList.all (decide <| · ≠ ' ') = true := by
    cases op with
    | arith op => cases op <;> rfl
    | compare op => cases op <;> rfl
    | and | or | concat | like => rfl
  have spanned : Reads (·.head? = some ' ') (span (decide <| · ≠ ' ')) op.symbol.toList
      op.symbol.toList :=
    (reads_span (List.all_eq_true.mp solid)).mono fun _ blank =>
      head_false blank rfl
  have reads : Reads (·.head? = some ' ') operator (op.symbol.toList ++ []) op :=
    spanned.bind ((reads_given found).mono fun _ _ => trivial) fun _ blank => blank
  rwa [List.append_nil] at reads

include he he' in
theorem reads_between (op : BinaryOp) : Reads Any (between operand)
    (text ++ (" ".toList ++ (op.symbol.toList ++ (" ".toList ++ (text' ++ ")".toList)))))
    (.binary op e e' .any) := by
  have right := reads_closing he' fun right => Expr.binary op e right .any
  exact he.bind ((reads_operator op).bind right.expect fun _ _ => rfl).expect fun rest _ =>
    ends_of_head rfl (by decide)

theorem reads_arguments {texts : List (List Char)} {es : List Expr}
    (h : List.Forall₂ (Reads Ends operand) texts es) (nonempty : es ≠ [])
    (enough : es.length ≤ fuel) :
    Reads Any (arguments operand fuel) (List.intercalate ", ".toList texts ++ ")".toList) es := by
  induction h generalizing fuel with
  | nil => exact absurd rfl nonempty
  | @cons text e texts es he hes ih =>
      obtain ⟨fuel, rfl⟩ : ∃ n, fuel = n + 1 :=
        Nat.exists_eq_add_one.mpr (Nat.lt_of_lt_of_le (Nat.succ_pos _) enough)
      rw [arguments]
      cases hes with
      | nil =>
          rw [List.intercalate_singleton]
          exact he.bind ((reads_expect ")").map fun _ => [e]).orElse fun _ _ =>
            ends_of_head rfl (by decide)
      | @cons text' e' texts es he' hes =>
          have more := ih (List.cons_ne_nil _ _) (Nat.le_of_succ_le_succ enough)
          rw [List.intercalate_cons_cons, List.append_assoc, List.append_assoc]
          refine he.bind (Reads.orElse_right (more.map (e :: ·)).expect fun rest _ => ?_)
            fun _ _ => ends_of_head rfl (by decide)
          exact run_bind_of_none (run_expect_of_not (by simp))

/-- No operand starts with a closing parenthesis, so nothing is taken for arguments there. -/
theorem run_arguments_of_none {cs : List Char} (h : operand.run cs = none) :
    (arguments operand fuel).run cs = none := by
  cases fuel with
  | zero => rfl
  | succ fuel => exact run_bind_of_none h

theorem reads_call {fn : ScalarFn} {texts : List (List Char)} {es : List Expr}
    (h : List.Forall₂ (Reads Ends operand) texts es) (enough : es.length ≤ fuel)
    (closed : ∀ rest, operand.run (')' :: rest) = none) :
    Reads Any (function operand fuel fn.name.toList)
      (List.intercalate ", ".toList texts ++ ")".toList) (.call fn es .any) := by
  have found : ScalarFn.all.find? (·.name.toList == fn.name.toList) = some fn := by
    cases fn <;> rfl
  have other : fn.name.toList ≠ "MOD".toList ∧ fn.name.toList ≠ "CONCAT".toList := by
    cases fn <;> decide
  have args : Reads Any (arguments operand fuel <|> (do expect ")"; pure []))
      (List.intercalate ", ".toList texts ++ ")".toList) es := by
    cases h with
    | nil =>
        exact ((reads_expect ")").map fun _ => []).orElse_right fun rest _ =>
          run_arguments_of_none (closed rest)
    | cons he hes =>
        exact (reads_arguments (.cons he hes) (List.cons_ne_nil _ _) enough).orElse
  rw [function, if_neg other.1, if_neg other.2]
  exact Reads.given found (args.map fun args => Expr.call fn args .any)

/-! ## The first character -/

theorem reads_form {c : Char} (head : text.head? = some c) {after : List Char → Prop}
    (h : Reads after (formAt names operand fuel c) text e) :
    Reads after (form names operand fuel) text e := by
  intro rest hrest
  rw [← h rest hrest]
  obtain ⟨tail, rfl⟩ : ∃ tail, text = c :: tail := by
    cases text with
    | nil => cases head
    | cons d tail => exact ⟨tail, by rw [Option.some.inj head]⟩
  rfl

theorem reads_enclosed (h : Reads Any (special names operand <|> between operand) text e) :
    Reads Any (form names operand fuel) ("(".toList ++ text) e :=
  reads_form (c := '(') rfl h.expect

theorem reads_text (s : String) : Reads Ends (form names operand fuel) (Value.quoted s).toList
    (.constant (.text s) .any) := by
  have inside := (reads_unquoted s.toList).map fun s => Expr.constant (.text (.ofList s)) .any
  rw [String.ofList_toList] at inside
  have quoted : (Value.quoted s).toList = (String.singleton Value.quoteMark).toList ++
      (Value.doubled s.toList ++ [Value.quoteMark]) := by
    simp [Value.quoted]
  rw [quoted]
  exact reads_form (c := Value.quoteMark) (by simp) inside.expect

theorem reads_integer (sign : Int) (n : Nat) : Reads Ends (integer sign) (Nat.toDigits 10 n)
    (.constant (.int (.ofInt (sign * n))) .any) :=
  (reads_natural n).map fun n => Expr.constant (.int (.ofInt (sign * n))) .any

/-- The digits of a number start with a digit. -/
theorem exists_digit (n : Nat) : ∃ c more, Nat.toDigits 10 n = c :: more ∧ c.isDigit = true := by
  obtain ⟨c, more, split⟩ := List.exists_cons_of_ne_nil (Nat.toDigits_ne_nil (b := 10) (n := n))
  exact ⟨c, more, split,
    Nat.isDigit_of_mem_toDigits (b := 10) (n := n) (by decide) (by decide) (by simp [split])⟩

theorem reads_digits (n : Nat) : Reads Ends (form names operand fuel) (Nat.toDigits 10 n)
    (.constant (.int (.ofInt n)) .any) := by
  obtain ⟨c, more, split, digit⟩ := exists_digit n
  have chosen : formAt names operand fuel c = integer 1 := by
    have other {d : Char} (h : d.isDigit = false) : c ≠ d := by
      rintro rfl
      simp [digit] at h
    simp [formAt, other (d := '(') rfl, other (d := Value.quoteMark) rfl, other (d := ':') rfl,
      other (d := '-') rfl, digit]
  have reads := reads_integer 1 n
  rw [Int.one_mul, ← chosen] at reads
  exact reads_form (by simp [split]) reads

theorem toList_toString_ofNat (n : Nat) : (toString (Int.ofNat n)).toList = Nat.toDigits 10 n :=
  String.toList_ofList

theorem toList_toString_negSucc (n : Nat) :
    (toString (Int.negSucc n)).toList = '-' :: Nat.toDigits 10 (n + 1) := by
  rw [Int.toString_eq_repr, Int.repr, String.toList_append]
  exact congrArg _ String.toList_ofList

theorem reads_int (i : Int64) : Reads Ends (form names operand fuel) (toString i.toInt).toList
    (.constant (.int i) .any) := by
  have back := Int64.ofInt_toInt i
  cases value : i.toInt with
  | ofNat n =>
      rw [value] at back
      rw [toList_toString_ofNat, ← back]
      exact reads_digits n
  | negSucc n =>
      rw [value] at back
      have opposite : Int.negSucc n = -1 * ((n + 1 : Nat) : Int) := by omega
      rw [toList_toString_negSucc, ← back, opposite]
      exact reads_form (c := '-') rfl (reads_integer (-1) (n + 1)).expect

theorem reads_placeholder {index : Nat} {capture : Capture}
    (h : names.capture? index = some capture) : Reads Ends (form names operand fuel)
      (":".toList ++ (names.stem.toList ++ (toString index).toList)) (.param capture .any) := by
  have number : Reads Ends (do
      let index ← natural
      let capture ← given (names.capture? index)
      pure (Expr.param capture .any)) ((toString index).toList ++ [])
      (Expr.param capture .any) := by
    rw [Nat.toString_eq_ofList_toDigits, String.toList_ofList]
    exact (reads_natural index).bind (Reads.given h reads_pure) fun _ ends => ends
  rw [List.append_nil] at number
  exact reads_form (c := ':') rfl number.expect.expect

section Words

variable {w : List Char} (upper : ∀ c ∈ w, c.isUpper = true) (nonempty : w ≠ [])
include upper nonempty

/-- A word is read as such when it comes first. -/
theorem reads_word {after : List Char → Prop} (h : Reads after (word names operand fuel)
    (w ++ text) e) : Reads after (form names operand fuel) (w ++ text) e := by
  obtain ⟨c, more, rfl⟩ := List.exists_cons_of_ne_nil nonempty
  have letter := upper c List.mem_cons_self
  have other {d : Char} (h : d.isUpper = false) : c ≠ d := by
    rintro rfl
    simp [letter] at h
  have digit : c.isDigit = false := by grind [Char.isUpper, Char.isDigit]
  have chosen : formAt names operand fuel c = word names operand fuel := by
    simp [formAt, other (d := '(') rfl, other (d := Value.quoteMark) rfl, other (d := ':') rfl,
      other (d := '-') rfl, digit, letter]
  rw [← chosen] at h
  exact reads_form rfl h

theorem reads_named (h : names.named w = some e) : Reads Ends (form names operand fuel) w e := by
  have spanned : Reads Ends (span Char.isUpper) w w :=
    (reads_span upper).mono fun rest ends => ends.head_false rfl rfl rfl
  have meant : Reads Ends ((do expect "("; function operand fuel w) <|> given (names.named w))
      [] e := by
    refine ((reads_given h).mono fun _ _ => trivial).orElse_right fun rest ends => ?_
    refine run_bind_of_none (run_expect_of_not ?_)
    rintro ⟨more, rfl⟩
    exact ends.head_ne (c := '(') (by decide) rfl
  have reads : Reads Ends (word names operand fuel) (w ++ []) e :=
    spanned.bind meant fun _ ends => ends
  simpa using reads_word upper nonempty reads

theorem reads_function (h : Reads Any (function operand fuel w) text e) :
    Reads Any (form names operand fuel) (w ++ ("(".toList ++ text)) e := by
  refine reads_word upper nonempty ((reads_span upper).bind h.expect.orElse fun _ _ => ?_)
  exact head_false (c := '(') rfl rfl

end Words

/-! ## Paths -/

theorem join_fields (field : List Char) (fields : List (List Char)) :
    (field :: fields).flatMap ('.' :: ·) =
      ".".toList ++ List.intercalate ['.'] (field :: fields) := by
  induction fields generalizing field with
  | nil => simp
  | cons next fields ih =>
      rw [List.flatMap_cons, ih, List.intercalate_cons_cons]
      simp

theorem reads_fieldNames {field : List Char} {fields : List (List Char)}
    (solid : ∀ f ∈ field :: fields, '.' ∉ f ∧ ')' ∉ f) : Reads Any fieldNames
      (List.intercalate ['.'] (field :: fields) ++ ")".toList) (field :: fields) := by
  have inside : ∀ c ∈ List.intercalate ['.'] (field :: fields), decide (c ≠ ')') = true := by
    intro c hc
    have mem : c ∈ (field :: fields).flatMap ('.' :: ·) :=
      join_fields field fields ▸ List.mem_append_right _ hc
    obtain ⟨f, hf, hc⟩ := List.mem_flatMap.mp mem
    rcases List.mem_cons.mp hc with rfl | hc
    · rfl
    · exact decide_eq_true fun closing => (solid f hf).2 (closing ▸ hc)
  have split := List.splitOn_intercalate '.' (fun f hf => (solid f hf).1) (List.cons_ne_nil _ _)
  have reads : Reads Any fieldNames (List.intercalate ['.'] (field :: fields) ++ ")".toList)
      ((List.intercalate ['.'] (field :: fields)).splitOn '.') := by
    exact (reads_span inside).bind ((reads_expect ")").map fun _ => _) fun _ _ =>
      head_false (c := ')') rfl rfl
  rwa [split] at reads

theorem reads_rowPath {w : List Char} {id : SourceId} {field : List Char}
    {fields : List (List Char)} (upper : ∀ c ∈ w, c.isUpper = true)
    (source : names.source? (.ofList w) = some id)
    (solid : ∀ f ∈ field :: fields, '.' ∉ f ∧ ')' ∉ f) :
    Reads Any (rowPath names) (w ++ ((field :: fields).flatMap ('.' :: ·) ++ ")".toList))
      (along (.row id .any) (field :: fields)) := by
  have path := (reads_fieldNames solid).map (along (.row id .any))
  rw [join_fields, List.append_assoc]
  exact (reads_span upper).bind (Reads.given source path).expect fun _ _ =>
    head_false (c := '.') rfl rfl

end Forms

/-! ## Operands before an operator -/

theorem rowPath_eq_none {w more : List Char} {d : Char} (upper : ∀ c ∈ w, c.isUpper = true)
    (hd : d.isUpper = false) (dot : d ≠ '.') : (rowPath names).run (w ++ d :: more) = none := by
  have spanned := reads_span upper (d :: more) (head_false rfl hd)
  rw [rowPath, run_bind_of_some spanned]
  refine run_bind_of_none (run_expect_of_not ?_)
  rintro ⟨rest, same⟩
  exact dot (List.cons.inj same).1.symm

/-- A keyword does not come next where another word or another mark after it stands. -/
theorem expect_eq_none {α : Type} {next : Unit → Reader α} {w more k ms : List Char} {d m : Char}
    (upper : ∀ c ∈ w, c.isUpper = true) (hd : d.isUpper = false) {mark : String}
    (split : mark.toList = k ++ m :: ms) (keyword : k.all Char.isUpper = true)
    (hm : m.isUpper = false) (other : k = w → m ≠ d) :
    (expect mark >>= next).run (w ++ d :: more) = none := by
  refine run_bind_of_none (run_expect_of_not fun h => ?_)
  rw [split] at h
  obtain ⟨word, same⟩ := word_of_prefix (List.all_eq_true.mp keyword) upper hm hd h
  exact other word same

/-- What starts like none of the special forms is the first of two operands. -/
theorem special_eq_none {w more : List Char} {d : Char} (upper : ∀ c ∈ w, c.isUpper = true)
    (hd : d.isUpper = false) (dot : d ≠ '.') (dash : d ≠ '-') (not : w ≠ "NOT".toList)
    (case : w ≠ "CASE".toList) : (special names operand).run (w ++ d :: more) = none := by
  have negation : (negation operand).run (w ++ d :: more) = none :=
    expect_eq_none (k := "NOT".toList) upper hd rfl rfl rfl fun same => absurd same.symm not
  have choice : (choice operand).run (w ++ d :: more) = none :=
    expect_eq_none (k := "CASE".toList) upper hd rfl rfl rfl fun same => absurd same.symm case
  have opposite : (opposite operand).run (w ++ d :: more) = none :=
    expect_eq_none (k := []) upper hd rfl rfl rfl fun _ => dash.symm
  rw [special, run_orElse_of_none negation, run_orElse_of_none choice, run_orElse_of_none opposite,
    rowPath_eq_none upper hd dot]

/-! ## Legible texts -/

/-- A text is read as an expression; before an operator, it is the first of two operands. -/
structure Legible (names : Lexicon) (e : Expr) (text : List Char) : Prop where
  reads : ∀ fuel, sizeOf e ≤ fuel → Reads Ends (names.read fuel) text e.bare
  opens : ∀ fuel rest, (special names (names.read fuel)).run (text ++ ' ' :: rest) = none

theorem reads_of_form (h : ∀ fuel, sizeOf e ≤ fuel + 1 →
    Reads Ends (form names (names.read fuel) fuel) text e.bare) (fuel : Nat)
    (enough : sizeOf e ≤ fuel) : Reads Ends (names.read fuel) text e.bare := by
  cases fuel with
  | zero =>
      have positive : 0 < sizeOf e := by cases e <;> simp
      omega
  | succ fuel => exact h fuel enough

theorem opens_of_head {c : Char} (head : text.head? = some c) (upper : c.isUpper = false)
    (dot : c ≠ '.') (dash : c ≠ '-') (rest : List Char) :
    (special names operand).run (text ++ ' ' :: rest) = none := by
  cases text with
  | nil => cases head
  | cons d more =>
      obtain rfl := Option.some.inj head
      exact special_eq_none (w := []) (by simp) upper dot dash (by decide) (by decide)

theorem legible_enclosed (h : ∀ fuel, sizeOf e ≤ fuel + 1 →
    Reads Any (special names (names.read fuel) <|> between (names.read fuel)) text e.bare) :
    Legible names e ("(".toList ++ text) :=
  ⟨reads_of_form fun fuel enough => (reads_enclosed (h fuel enough)).mono fun _ _ => trivial,
    fun _ rest => opens_of_head (c := '(') rfl rfl (by decide) (by decide) rest⟩

theorem legible_text (s : String) (t : ValueType) :
    Legible names (.constant (.text s) t) (Value.quoted s).toList :=
  ⟨reads_of_form fun _ _ => reads_text s, fun _ rest =>
    opens_of_head (c := Value.quoteMark) (by simp [Value.quoted]) rfl (by decide) (by decide) rest⟩

theorem legible_param {index : Nat} {capture : Capture} {t : ValueType}
    (h : names.capture? index = some capture.bare) : Legible names (.param capture t)
      (":".toList ++ (names.stem.toList ++ (toString index).toList)) :=
  ⟨reads_of_form fun _ _ => reads_placeholder h, fun _ rest =>
    opens_of_head (c := ':') rfl rfl (by decide) (by decide) rest⟩

/-- A negative number before an operator is not taken for an opposite, which would have to
end after its digits. -/
theorem special_negative (n fuel : Nat) (rest : List Char) :
    (special names (names.read fuel)).run ('-' :: (Nat.toDigits 10 n ++ ' ' :: rest)) = none := by
  have opposite : (opposite (names.read fuel)).run ('-' :: (Nat.toDigits 10 n ++ ' ' :: rest)) =
      none := by
    refine (run_bind_of_some (reads_expect "-" (Nat.toDigits 10 n ++ ' ' :: rest) trivial)).trans ?_
    cases fuel with
    | zero => rfl
    | succ fuel =>
        have digits : (names.read (fuel + 1)).run (Nat.toDigits 10 n ++ ' ' :: rest) =
            some (_, ' ' :: rest) :=
          reads_digits n _ (ends_of_head rfl (by decide))
        rw [run_bind_of_some digits]
        exact run_bind_of_none (run_expect_of_not (by simp))
  have negation : (negation (names.read fuel)).run ('-' :: (Nat.toDigits 10 n ++ ' ' :: rest)) =
      none :=
    run_bind_of_none (run_expect_of_not (by simp))
  have choice : (choice (names.read fuel)).run ('-' :: (Nat.toDigits 10 n ++ ' ' :: rest)) =
      none :=
    run_bind_of_none (run_expect_of_not (by simp))
  rw [special, run_orElse_of_none negation, run_orElse_of_none choice, run_orElse_of_none opposite]
  exact rowPath_eq_none (w := []) (by simp) rfl (by decide)

theorem legible_int (i : Int64) (t : ValueType) :
    Legible names (.constant (.int i) t) (toString i.toInt).toList := by
  refine ⟨reads_of_form fun _ _ => reads_int i, fun fuel rest => ?_⟩
  cases i.toInt with
  | ofNat n =>
      obtain ⟨c, more, split, digit⟩ := exists_digit n
      have head : (toString (Int.ofNat n)).toList.head? = some c := by
        rw [toList_toString_ofNat, split, List.head?_cons]
      refine opens_of_head head ?_ ?_ ?_ rest
      · grind [Char.isUpper, Char.isDigit]
      · rintro rfl; exact absurd digit (by decide)
      · rintro rfl; exact absurd digit (by decide)
  | negSucc n =>
      rw [toList_toString_negSucc]
      exact special_negative (n + 1) fuel rest

theorem legible_negation {t : ValueType} (h : Legible names e text) :
    Legible names (.unary .not e t) ("(".toList ++ ("NOT ".toList ++ (text ++ ")".toList))) := by
  refine legible_enclosed fun fuel enough => ?_
  have inner := h.reads fuel (by simp only [Expr.unary.sizeOf_spec] at enough; omega)
  exact (reads_negation inner).orElse.orElse

theorem legible_opposite {t : ValueType} (h : Legible names e text) :
    Legible names (.unary .neg e t) ("(".toList ++ ("-".toList ++ (text ++ ")".toList))) := by
  refine legible_enclosed fun fuel enough => ?_
  have inner := h.reads fuel (by simp only [Expr.unary.sizeOf_spec] at enough; omega)
  refine (((reads_opposite inner).orElse.orElse_right ?_).orElse_right ?_).orElse
  all_goals exact fun rest _ => run_bind_of_none (run_expect_of_not (by simp))

theorem legible_conditional {t : ValueType} (h : Legible names e text)
    (h' : Legible names e' text') (h'' : Legible names e'' text'') :
    Legible names (.conditional e e' e'' t) ("(".toList ++ ("CASE WHEN ".toList ++ (text ++
      (" THEN ".toList ++ (text' ++ (" ELSE ".toList ++ (text'' ++ " END)".toList))))))) := by
  refine legible_enclosed fun fuel enough => ?_
  simp only [Expr.conditional.sizeOf_spec] at enough
  have test := h.reads fuel (by omega)
  have yes := h'.reads fuel (by omega)
  have no := h''.reads fuel (by omega)
  refine ((reads_choice test yes no).orElse.orElse_right fun rest _ => ?_).orElse
  exact run_bind_of_none (run_expect_of_not (by simp))

theorem legible_between {t : ValueType} (op : BinaryOp) (h : Legible names e text)
    (h' : Legible names e' text') : Legible names (.binary op e e' t) ("(".toList ++ (text ++
      (" ".toList ++ (op.symbol.toList ++ (" ".toList ++ (text' ++ ")".toList)))))) := by
  refine legible_enclosed fun fuel enough => ?_
  simp only [Expr.binary.sizeOf_spec] at enough
  have left := h.reads fuel (by omega)
  have right := h'.reads fuel (by omega)
  refine (reads_between left right op).orElse_right fun rest _ => ?_
  rw [List.append_assoc]
  exact h.opens fuel _

section Words

variable {w : List Char} (upper : ∀ c ∈ w, c.isUpper = true) (nonempty : w ≠ [])
  (not : w ≠ "NOT".toList) (case : w ≠ "CASE".toList)
include upper nonempty not case

theorem legible_named (h : names.named w = some e.bare) : Legible names e w :=
  ⟨reads_of_form fun _ _ => reads_named upper nonempty h,
    fun _ _ => special_eq_none upper rfl (by decide) (by decide) not case⟩

theorem legible_function (h : ∀ fuel, sizeOf e ≤ fuel + 1 →
    Reads Any (function (names.read fuel) fuel w) text e.bare) :
    Legible names e (w ++ ("(".toList ++ text)) := by
  refine ⟨reads_of_form fun fuel enough =>
    (reads_function upper nonempty (h fuel enough)).mono fun _ _ => trivial, fun fuel rest => ?_⟩
  rw [List.append_assoc]
  exact special_eq_none upper rfl (by decide) (by decide) not case

theorem legible_pair (op : BinaryOp) {t : ValueType} (h : Legible names e text)
    (h' : Legible names e' text')
    (spells : ∀ operand fuel, function operand fuel w = pair operand op) :
    Legible names (.binary op e e' t)
      (w ++ ("(".toList ++ (text ++ (", ".toList ++ (text' ++ ")".toList))))) := by
  refine legible_function upper nonempty not case fun fuel enough => ?_
  simp only [Expr.binary.sizeOf_spec] at enough
  rw [spells]
  exact reads_pair (h.reads fuel (by omega)) (h'.reads fuel (by omega)) op

end Words

theorem length_lt_sizeOf (es : List Expr) : es.length < sizeOf es := by
  induction es with
  | nil => simp
  | cons e es ih =>
      rw [List.length_cons, List.cons.sizeOf_spec]
      omega

theorem bareAll_eq (es : List Expr) : Expr.bareAll es = es.map Expr.bare := by
  induction es with
  | nil => rfl
  | cons e es ih => rw [Expr.bareAll, ih, List.map_cons]

theorem reads_operands {es : List Expr} {texts : List (List Char)}
    (h : List.Forall₂ (Legible names) es texts) (fuel : Nat) (enough : sizeOf es ≤ fuel) :
    List.Forall₂ (Reads Ends (names.read fuel)) texts (es.map Expr.bare) := by
  induction h with
  | nil => exact .nil
  | cons he _ ih =>
      rw [List.cons.sizeOf_spec] at enough
      exact .cons (he.reads fuel (by omega)) (ih (by omega))

theorem legible_call (fn : ScalarFn) {t : ValueType} {es : List Expr} {texts : List (List Char)}
    (h : List.Forall₂ (Legible names) es texts) : Legible names (.call fn es t)
      (fn.name.toList ++ ("(".toList ++ (List.intercalate ", ".toList texts ++ ")".toList))) := by
  have word : fn.name.toList.all Char.isUpper = true ∧ fn.name.toList ≠ [] ∧
      fn.name.toList ≠ "NOT".toList ∧ fn.name.toList ≠ "CASE".toList := by
    cases fn <;> decide
  obtain ⟨upper, nonempty, not, case⟩ := word
  refine legible_function (List.all_eq_true.mp upper) nonempty not case fun fuel enough => ?_
  simp only [Expr.call.sizeOf_spec] at enough
  have operands := reads_operands h fuel (by omega)
  have length := length_lt_sizeOf es
  rw [Expr.bare, bareAll_eq]
  refine reads_call operands (by rw [List.length_map]; omega) fun rest => ?_
  cases fuel <;> rfl

theorem legible_path {w : List Char} {id : SourceId} {field : List Char}
    {fields : List (List Char)} (upper : ∀ c ∈ w, c.isUpper = true)
    (source : names.source? (.ofList w) = some id)
    (solid : ∀ f ∈ field :: fields, '.' ∉ f ∧ ')' ∉ f)
    (spells : e.bare = along (.row id .any) (field :: fields)) : Legible names e
      ("(".toList ++ (w ++ ((field :: fields).flatMap ('.' :: ·) ++ ")".toList))) := by
  refine legible_enclosed fun fuel _ => ?_
  rw [spells]
  have path := reads_rowPath upper source solid
  have text (rest : List Char) : w ++ ((field :: fields).flatMap ('.' :: ·) ++ ")".toList) ++ rest =
      w ++ '.' :: (field ++ fields.flatMap ('.' :: ·) ++ ")".toList ++ rest) := by
    simp
  refine (((path.orElse_right ?_).orElse_right ?_).orElse_right ?_).orElse
  · exact fun rest _ => text rest ▸
      expect_eq_none (k := []) upper rfl rfl rfl rfl fun _ => by decide
  · exact fun rest _ => text rest ▸
      expect_eq_none (k := "CASE".toList) upper rfl rfl rfl rfl fun _ => by decide
  · exact fun rest _ => text rest ▸
      expect_eq_none (k := "NOT".toList) upper rfl rfl rfl rfl fun _ => by decide

end Lexicon

end StreamQuery
