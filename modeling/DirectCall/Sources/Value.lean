import DirectCall.Insn.Result
import DirectCall.Frame.Solve

/-!
# Producers

The domain of producers: for each slot, the instructions that may have pushed its value. A copied
value counts as produced by the instruction that copied it.
-/

namespace DirectCall

/-- Instructions that may have produced a value, by increasing identity, and its size. -/
structure SourceValue where
  size : Nat
  producers : List NodeId
  deriving DecidableEq, Repr

namespace SourceValue

/-- Union of increasing lists. -/
def union : List NodeId → List NodeId → List NodeId
  | [], ys => ys
  | xs, [] => xs
  | x :: xs, y :: ys =>
    if x.index < y.index then x :: union xs (y :: ys)
    else if y.index < x.index then y :: union (x :: xs) ys
    else x :: union xs ys
termination_by xs ys => xs.length + ys.length

/-- Adds the producers of another value. -/
def join (x y : SourceValue) : SourceValue := { x with producers := union x.producers y.producers }

def unset (d : Option String) : SourceValue := ⟨Descriptor.size d, []⟩

def result (id : NodeId) (insn : Insn) : SourceValue := ⟨Descriptor.size insn.result?, [id]⟩

/-- The domain of producers in a body of `size` nodes. -/
def domain (size : Nat) : Domain SourceValue where
  size v := v.size
  ofDescriptor := unset
  receiver m := unset (some (Descriptor.ofClassName m.owner))
  exception _ := unset none
  produce := result
  copy id _ v := ⟨v.size, [id]⟩
  unary id insn _ := result id insn
  binary id insn _ _ := result id insn
  nary id insn _ := result id insn
  join := join
  refine _ _ _ := []
  height _ := size

end SourceValue

end DirectCall
