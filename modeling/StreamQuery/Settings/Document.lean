import StreamQuery.Digit
import StreamQuery.Settings.Basic

/-! # Reading settings

Settings are written as a TOML document. Every setting is a whole number or a
text at the top level, so the only documents that can be settings are lists of
`key = value` lines with such values; tables, arrays, dotted keys, dates,
truth values and fractions are refused unread. A key stands at most once.
-/

namespace StreamQuery

inductive Entry where
  | number (n : Nat)
  | text (s : String)
deriving DecidableEq, Repr

namespace Document

/-! ## Characters -/

def isBlank (c : Char) : Bool := c == ' ' || c == '\t'

/-- Characters of comments and texts: no controls other than the tab. -/
def isPlain (c : Char) : Bool :=
  c == '\t' || (32 ≤ c.toNat && c.toNat ≤ 126) || 128 ≤ c.toNat

def isBareKey (c : Char) : Bool := c.isAlphanum || c == '_' || c == '-'

/-- One line break is one character. -/
def joinLineBreaks : List Char → List Char
  | [] => []
  | '\r' :: '\n' :: rest => '\n' :: joinLineBreaks rest
  | c :: rest => c :: joinLineBreaks rest

/-! ## Texts -/

def scalar? (digits : List Char) : Option Char := do
  let n ← Digit.hex? digits
  if n.isValidChar then some (Char.ofNat n) else none

def escaped? : Char → Option Char
  | 'b' => some (Char.ofNat 8)
  | 't' => some '\t'
  | 'n' => some '\n'
  | 'f' => some (Char.ofNat 12)
  | 'r' => some '\r'
  | '"' => some '"'
  | '\\' => some '\\'
  | _ => none

structure Quoting where
  mark : Char
  /-- Whether a backslash starts an escape. -/
  escapes : Bool
  /-- Whether the text stands between three marks and may have line breaks. -/
  long : Bool

/-- The end of a text, with the marks that still belong to it: a long text may
have up to two before the three that close it. -/
def Quoting.close? (q : Quoting) (cs : List Char) : Option (List Char × List Char) :=
  let marks := (cs.takeWhile (· == q.mark)).length
  if !q.long then if marks = 0 then none else some ([], cs.drop 1)
  else if marks < 3 then none
  else
    let extra := min (marks - 3) 2
    some (List.replicate extra q.mark, cs.drop (extra + 3))

/-- Characters of a text up to its end. A backslash at the end of a line takes
away the blank space up to the next character; `trim` says that this goes on. -/
def Quoting.body (q : Quoting) (trim : Bool) : List Char → Option (List Char × List Char)
  | [] => none
  | c :: rest =>
    match q.close? (c :: rest) with
    | some closed => some closed
    | none =>
      let keep (c : Char) (read : Option (List Char × List Char)) :=
        read.map fun (cs, rest) => (c :: cs, rest)
      if q.escapes && c == '\\' then
        match rest with
        | 'u' :: a :: b :: d :: e :: rest =>
          (scalar? [a, b, d, e]).bind fun c => keep c (q.body false rest)
        | 'U' :: a :: b :: d :: e :: f :: g :: h :: i :: rest =>
          (scalar? [a, b, d, e, f, g, h, i]).bind fun c => keep c (q.body false rest)
        | letter :: rest' =>
          if q.long && (rest.dropWhile isBlank).head? == some '\n' then q.body true rest'
          else (escaped? letter).bind fun c => keep c (q.body false rest')
        | [] => none
      else if trim && (isBlank c || c == '\n') then q.body true rest
      else if isPlain c || (q.long && c == '\n') then keep c (q.body false rest)
      else none

def apostrophe : Char := Char.ofNat 39

/-- A text that starts with the given mark, long ones allowed or not. -/
def text? (longAllowed : Bool) (mark : Char) (cs : List Char) : Option (String × List Char) :=
  let escapes := mark == '"'
  let read :=
    if longAllowed && cs.take 3 == [mark, mark, mark] then
      let inner := cs.drop 3
      let inner := if inner.head? == some '\n' then inner.drop 1 else inner
      Quoting.body ⟨mark, escapes, true⟩ false inner
    else Quoting.body ⟨mark, escapes, false⟩ false (cs.drop 1)
  read.map fun (cs, rest) => (String.ofList cs, rest)

/-! ## Numbers -/

/-- Digits with single underscores between them. -/
def digits? (base : Nat) (cs : List Char) : Option Nat :=
  let rec go (n : Nat) : List Char → Option Nat
    | [] => some n
    | '_' :: c :: rest => (Digit.valueIn? base c).bind fun d => go (base * n + d) rest
    | c :: rest => (Digit.valueIn? base c).bind fun d => go (base * n + d) rest
  match cs with
  | [] => none
  | c :: rest => (Digit.valueIn? base c).bind fun d => go d rest

def decimal? (cs : List Char) : Option Nat :=
  match cs with
  | '0' :: _ :: _ => none
  | cs => digits? 10 cs

/-- A whole number that is not negative and fits a signed 64-bit word. -/
def number? (cs : List Char) : Option Nat :=
  let read := match cs with
    | '0' :: 'x' :: rest => digits? 16 rest
    | '0' :: 'o' :: rest => digits? 8 rest
    | '0' :: 'b' :: rest => digits? 2 rest
    | '+' :: rest => decimal? rest
    | '-' :: rest => (decimal? rest).filter (· == 0)
    | rest => decimal? rest
  read.filter (· ≤ Int64.maxValue.toInt)

/-! ## Lines -/

/-- The rest after blanks, a comment and the end of the line. -/
def lineEnd? (cs : List Char) : Option (List Char) :=
  let cs := cs.dropWhile isBlank
  let cs := if cs.head? == some '#' then cs.dropWhile isPlain else cs
  match cs with
  | [] => some []
  | '\n' :: rest => some rest
  | _ => none

def key? (cs : List Char) : Option (String × List Char) :=
  match cs.head? with
  | some mark =>
    if mark == '"' || mark == apostrophe then text? false mark cs
    else
      let key := cs.takeWhile isBareKey
      if key.isEmpty then none else some (String.ofList key, cs.dropWhile isBareKey)
  | none => none

/-- A number is read to the next blank, comment or line break. -/
def value? (cs : List Char) : Option (Entry × List Char) :=
  match cs.head? with
  | some mark =>
    if mark == '"' || mark == apostrophe then
      (text? true mark cs).map fun (s, rest) => (.text s, rest)
    else
      let inside (c : Char) : Bool := !(isBlank c || c == '#' || c == '\n')
      (number? (cs.takeWhile inside)).map fun n => (.number n, cs.dropWhile inside)
  | none => none

def entry? (cs : List Char) : Option ((String × Entry) × List Char) := do
  let (key, cs) ← key? cs
  match cs.dropWhile isBlank with
  | '=' :: cs =>
    let (value, cs) ← value? (cs.dropWhile isBlank)
    let rest ← lineEnd? cs
    some ((key, value), rest)
  | _ => none

def entriesWithin : (fuel : Nat) → List Char → Option (List (String × Entry))
  | 0, _ => none
  | fuel + 1, cs =>
    let cs := cs.dropWhile isBlank
    match cs with
    | [] => some []
    | c :: _ =>
      if c == '#' || c == '\n' then (lineEnd? cs).bind (entriesWithin fuel)
      else do
        let (entry, rest) ← entry? cs
        let entries ← entriesWithin fuel rest
        some (entry :: entries)

/-- All entries of a document, in order. Every line but the last takes a
character. -/
def entries? (document : String) : Option (List (String × Entry)) :=
  let cs := joinLineBreaks document.toList
  let cs := if cs.head? == some (Char.ofNat 0xFEFF) then cs.drop 1 else cs
  entriesWithin (cs.length + 1) cs

end Document

namespace Settings

/-- Settings after one more entry. -/
def set? (settings : Settings) : String × Entry → Option Settings
  | ("max_branches", .number n) => some { settings with maxBranches := n }
  | ("max_steps", .number n) => some { settings with maxSteps := n }
  | ("max_locals", .number n) => some { settings with maxLocals := n }
  | ("param_prefix", .text s) => some { settings with paramStem := s }
  | _ => none

/-- Reads settings; what a document does not set has its default. -/
def parse? (document : String) : Option Settings := do
  let entries ← Document.entries? document
  if (entries.map Prod.fst).Nodup then entries.foldlM set? {} else none

end Settings

end StreamQuery
