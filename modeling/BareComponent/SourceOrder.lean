/-! # Source order

Things that were found in a text are put into the order of where they begin. The order is stable:
of two things that begin at the same place the one that came first stays first.
-/

namespace BareComponent.SourceOrder

variable {α : Type}

/-- Puts a thing behind all those of a sorted list that begin no later. -/
def insert (start : α → Nat) (item : α) : List α → List α
  | [] => [item]
  | other :: rest =>
    if start item < start other then item :: other :: rest else other :: insert start item rest

def sort (start : α → Nat) (items : List α) : List α :=
  items.foldl (fun sorted item => insert start item sorted) []

end BareComponent.SourceOrder
