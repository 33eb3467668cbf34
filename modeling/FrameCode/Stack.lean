/-! Stacks, as lists with the top in front. -/

namespace FrameCode

abbrev Stack (α : Type) : Type := List α

namespace Stack

variable {α : Type}

def push (s : Stack α) (a : α) : Stack α := a :: s

/-- The top and what is below it. -/
def pop? : Stack α → Option (α × Stack α)
  | [] => none
  | a :: rest => some (a, rest)

def top? (s : Stack α) : Option α := s.head?

/-- Replaces the top, if there is one. -/
def setTop? (s : Stack α) (a : α) : Option (Stack α) :=
  match s with
  | [] => none
  | _ :: rest => some (a :: rest)

def fromBottom (s : Stack α) : List α := s.reverse

theorem pop?_eq_none_iff {s : Stack α} : s.pop? = none ↔ s = [] := by
  cases s <;> simp [pop?]

theorem pop?_eq_some_iff {s rest : Stack α} {a : α} : s.pop? = some (a, rest) ↔ s = a :: rest := by
  cases s <;> simp [pop?]

end Stack

end FrameCode
