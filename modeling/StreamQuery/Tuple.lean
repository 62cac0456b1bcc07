/-! # Rows of several values

Results of queries whose rows are tuples. They are ordered by their first
component that differs.
-/

namespace StreamQuery

structure Pair (α β : Type) where
  one : α
  two : β
deriving DecidableEq, Ord, Repr

namespace Pair

variable {α β : Type}

def ofProd (p : α × β) : Pair α β := ⟨p.1, p.2⟩

def toProd (p : Pair α β) : α × β := (p.one, p.two)

/-- One value with each of several, in their order. -/
def withEach (one : α) (twos : List β) : List (Pair α β) := twos.map (⟨one, ·⟩)

end Pair

structure Triple (α β γ : Type) where
  one : α
  two : β
  three : γ
deriving DecidableEq, Ord, Repr

end StreamQuery
