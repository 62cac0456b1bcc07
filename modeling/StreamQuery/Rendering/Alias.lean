import StreamQuery.Expr.Basic

/-! # Aliases of sources

Sources are named in the order in which they are met: `A` to `Z`, then `AA`,
`AB` and so on. A source that was named once keeps its name.
-/

namespace StreamQuery

def letter (n : Nat) : Char := Char.ofNat (65 + n)

/-- Letters of the name with a number, before those already found: as in a
numeral of base 26 without a zero. -/
def aliasLetters (n : Nat) (found : List Char) : List Char :=
  if n < 26 then letter n :: found
  else aliasLetters (n / 26 - 1) (letter (n % 26) :: found)
termination_by n

def aliasName (n : Nat) : String := String.ofList (aliasLetters n [])

/-- Sources with their names, in the order in which they were named. Each name is
that of the number of names before it. -/
structure Aliases where
  names : List (SourceId × String)
  numbered : names.map Prod.snd = (List.range names.length).map aliasName
deriving DecidableEq, Repr

namespace Aliases

def empty : Aliases := ⟨[], rfl⟩

def alias? (aliases : Aliases) (id : SourceId) : Option String := aliases.names.lookup id

def add (aliases : Aliases) (id : SourceId) : Aliases :=
  if (aliases.alias? id).isSome then aliases
  else
    { names := aliases.names ++ [(id, aliasName aliases.names.length)]
      numbered := by simp [aliases.numbered, List.range_succ] }

def addAll (aliases : Aliases) (sources : List Source) : Aliases :=
  sources.foldl (fun aliases source => aliases.add source.id) aliases

end Aliases

end StreamQuery
