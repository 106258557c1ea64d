import DirectCall.Insn.Effect

/-!
# Stack shuffles

Duplications and exchanges of the top of the stack. They move slots; a wide value counts as two, so
the same instruction moves a different number of values depending on their sizes.
-/

namespace DirectCall.Shuffle

variable {V : Type}

/-- Values that were copied, in the order of the copies, and the new stack. -/
abbrev Result (V : Type) := List V × List V

/-- The effect on a stack with its top first; `none` if values are missing. -/
def run (size : V → Nat) (copy : V → V) : Shuffle → List V → Option (Result V)
  | .dup, a :: s => some ([a], copy a :: a :: s)
  | .dupX1, a :: b :: s => some ([a], a :: b :: copy a :: s)
  | .dupX2, a :: b :: s =>
    if size b = 1 then
      match s with
      | c :: s => some ([a], a :: b :: c :: copy a :: s)
      | [] => none
    else some ([a], a :: b :: copy a :: s)
  | .dup2, a :: s =>
    if size a = 1 then
      match s with
      | b :: s => some ([b, a], copy a :: copy b :: a :: b :: s)
      | [] => none
    else some ([a], copy a :: a :: s)
  | .dup2X1, a :: b :: s =>
    if size a = 1 then
      match s with
      | c :: s => some ([b, a], a :: b :: c :: copy a :: copy b :: s)
      | [] => none
    else some ([a], a :: b :: copy a :: s)
  | .dup2X2, a :: b :: s =>
    if size a = 1 then
      match s with
      | [] => none
      | c :: s =>
        if size c = 1 then
          match s with
          | d :: s => some ([b, a], a :: b :: c :: d :: copy a :: copy b :: s)
          | [] => none
        else some ([b, a], a :: b :: c :: copy a :: copy b :: s)
    else if size b = 1 then
      match s with
      | c :: s => some ([a], a :: b :: c :: copy a :: s)
      | [] => none
    else some ([a], a :: b :: copy a :: s)
  | .swap, a :: b :: s => some ([a, b], copy b :: copy a :: s)
  | _, _ => none

end DirectCall.Shuffle
