import StreamQuery.Digit
import StreamQuery.Json.Basic

/-! # Reading JSON

A recursive reader on characters. Its fuel bounds the calls that are open at
one time; each takes a character or is called by one that did, so twice the
length of the text is enough. Of several fields of one name the last counts.
-/

namespace StreamQuery.Json

def isBlank (c : Char) : Bool := c == ' ' || c == '\t' || c == '\n' || c == '\r'

def skipBlanks (cs : List Char) : List Char := cs.dropWhile isBlank

def escaped? : Char → Option Char
  | '"' => some '"'
  | '\\' => some '\\'
  | '/' => some '/'
  | 'b' => some (Char.ofNat 8)
  | 'f' => some (Char.ofNat 12)
  | 'n' => some '\n'
  | 'r' => some '\r'
  | 't' => some '\t'
  | _ => none

def paired? (high low : Nat) : Option Char :=
  if 0xD800 ≤ high ∧ high < 0xDC00 ∧ 0xDC00 ≤ low ∧ low < 0xE000 then
    some (Char.ofNat (0x10000 + (high - 0xD800) * 0x400 + (low - 0xDC00)))
  else none

/-- Characters of a text up to its closing mark, after those in `done`, which
are in reverse. -/
def readText? (done : List Char) : List Char → Option (String × List Char)
  | [] => none
  | '"' :: rest => some (String.ofList done.reverse, rest)
  | '\\' :: 'u' :: a :: b :: c :: d :: '\\' :: 'u' :: e :: f :: g :: h :: rest =>
    match Digit.hex? [a, b, c, d] with
    | none => none
    | some n =>
      if n.isValidChar then
        readText? (Char.ofNat n :: done) ('\\' :: 'u' :: e :: f :: g :: h :: rest)
      else
        match (Digit.hex? [e, f, g, h]).bind (paired? n) with
        | some char => readText? (char :: done) rest
        | none => none
  | '\\' :: 'u' :: a :: b :: c :: d :: rest =>
    match Digit.hex? [a, b, c, d] with
    | none => none
    | some n => if n.isValidChar then readText? (Char.ofNat n :: done) rest else none
  | '\\' :: c :: rest =>
    match escaped? c with
    | some char => readText? (char :: done) rest
    | none => none
  | c :: rest => if c.toNat < 32 then none else readText? (c :: done) rest
termination_by cs => cs.length

def readWord? (cs : List Char) : Option (Json × List Char) :=
  match cs with
  | 'n' :: 'u' :: 'l' :: 'l' :: rest => some (null, rest)
  | 't' :: 'r' :: 'u' :: 'e' :: rest => some (bool true, rest)
  | 'f' :: 'a' :: 'l' :: 's' :: 'e' :: rest => some (bool false, rest)
  | _ => none

/-- Numbers past the range of doubles are refused. -/
def readNumber? (cs : List Char) : Option (Json × List Char) := do
  let (n, rest) ← Numeral.read? cs
  if n.toDouble?.isSome then some (number n, rest) else none

/-- Adds a field in front, unless a later one has its name. -/
def addField (name : String) (value : Json) (fields : List (String × Json)) :
    List (String × Json) :=
  if (fields.lookup name).isSome then fields else (name, value) :: fields

mutual

def readValue? : (fuel : Nat) → List Char → Option (Json × List Char)
  | 0, _ => none
  | fuel + 1, cs =>
    match skipBlanks cs with
    | '"' :: rest => (readText? [] rest).map fun (s, rest) => (text s, rest)
    | '[' :: rest =>
      match skipBlanks rest with
      | ']' :: rest => some (array [], rest)
      | rest => (readItems? fuel rest).map fun (items, rest) => (array items, rest)
    | '\x7b' :: rest =>
      match skipBlanks rest with
      | '\x7d' :: rest => some (object [], rest)
      | rest => (readFields? fuel rest).map fun (fields, rest) => (object fields, rest)
    | cs => (readWord? cs).or (readNumber? cs)

def readItems? : (fuel : Nat) → List Char → Option (List Json × List Char)
  | 0, _ => none
  | fuel + 1, cs => do
    let (item, rest) ← readValue? fuel cs
    match skipBlanks rest with
    | ',' :: rest =>
      let (items, rest) ← readItems? fuel rest
      some (item :: items, rest)
    | ']' :: rest => some ([item], rest)
    | _ => none

def readFields? : (fuel : Nat) → List Char → Option (List (String × Json) × List Char)
  | 0, _ => none
  | fuel + 1, cs =>
    match skipBlanks cs with
    | '"' :: rest => do
      let (name, rest) ← readText? [] rest
      match skipBlanks rest with
      | ':' :: rest =>
        let (value, rest) ← readValue? fuel rest
        match skipBlanks rest with
        | ',' :: rest =>
          let (fields, rest) ← readFields? fuel rest
          some (addField name value fields, rest)
        | '\x7d' :: rest => some ([(name, value)], rest)
        | _ => none
      | _ => none
    | _ => none

end

def parse? (s : String) : Option Json := do
  let cs := s.toList
  let (value, rest) ← readValue? (2 * cs.length + 1) cs
  if (skipBlanks rest).isEmpty then some value else none

end StreamQuery.Json
