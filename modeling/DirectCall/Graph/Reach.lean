/-!
# Reachable vertices

`reach next size start` marks the vertices below `size` that are reached from `start`, given the
successors of each vertex. Every vertex is expanded once.
-/

namespace DirectCall.Graph

theorem count_set_true_lt {seen : Array Bool} {v : Nat} (h : v < seen.size) (hv : seen[v] = false) :
    (seen.set v true).count false < seen.count false := by
  have hpos : 0 < seen.count false := Array.count_pos_iff.mpr (hv ▸ Array.getElem_mem h)
  rw [Array.count_set, if_pos (by rw [hv]; rfl), if_neg (by decide)]
  omega

/-- Marks what is reached from the pending vertices through vertices not seen yet. -/
def reachFrom (next : Nat → List Nat) (seen : Array Bool) (pending : List Nat) : Array Bool :=
  match pending with
  | [] => seen
  | v :: pending =>
    if h : v < seen.size then
      if hv : seen[v] = false then reachFrom next (seen.set v true) (next v ++ pending)
      else reachFrom next seen pending
    else reachFrom next seen pending
termination_by (seen.count false, pending.length)
decreasing_by
  · exact Prod.Lex.left _ _ (count_set_true_lt h hv)
  · exact Prod.Lex.right _ (by simp)
  · exact Prod.Lex.right _ (by simp)

def reach (next : Nat → List Nat) (size : Nat) (start : List Nat) : Array Bool :=
  reachFrom next (Array.replicate size false) start

/-- Marks of some of the vertices below `size`. -/
def mark (size : Nat) (vertices : List Nat) : Array Bool :=
  vertices.foldl (fun marks v => marks.setIfInBounds v true) (Array.replicate size false)

/-- The marked vertices by increasing number. -/
def members (marks : Array Bool) : List Nat :=
  (List.range marks.size).filter fun v => marks.getD v false

end DirectCall.Graph
