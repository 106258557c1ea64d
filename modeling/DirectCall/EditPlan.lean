import DirectCall.Insn
import Std.Data.HashMap
import Std.Data.HashSet

/-!
# Edit plans

A plan collects removals, insertions and moves keyed by node, to be carried out in one pass over an
instruction list. To remove a node twice is the same as to remove it once.
-/

namespace DirectCall

structure EditPlan where
  removed : Std.HashSet NodeId
  /-- Nodes that leave their place and run ahead of another node. -/
  moved : Std.HashSet NodeId
  /-- Nodes to place ahead of a node, in order. -/
  before : Std.HashMap NodeId (List NodeId)
  deriving Inhabited

namespace EditPlan

def empty : EditPlan := ⟨∅, ∅, ∅⟩

def isEmpty (plan : EditPlan) : Bool :=
  plan.removed.isEmpty && plan.moved.isEmpty && plan.before.isEmpty

def remove (plan : EditPlan) (id : NodeId) : EditPlan :=
  { plan with removed := plan.removed.insert id }

def removeAll (plan : EditPlan) (ids : List NodeId) : EditPlan :=
  ids.foldl remove plan

/-- The nodes placed ahead of `anchor`. -/
def insertedBefore (plan : EditPlan) (anchor : NodeId) : List NodeId :=
  plan.before.getD anchor []

/-- Places nodes ahead of `anchor`, after those placed there already. -/
def insertBefore (plan : EditPlan) (anchor : NodeId) (ids : List NodeId) : EditPlan :=
  { plan with before := plan.before.insert anchor (plan.insertedBefore anchor ++ ids) }

/-- Takes nodes from their place and runs them ahead of `anchor`. -/
def moveBefore (plan : EditPlan) (anchor : NodeId) (ids : List NodeId) : EditPlan :=
  insertBefore { plan with moved := ids.foldl (·.insert ·) plan.moved } anchor ids

/-- Nodes laid out so far, and all nodes met. -/
structure Layout where
  order : Array NodeId
  met : Std.HashSet NodeId

/-- Lays out a node after the nodes placed ahead of it, unless it was met before. Each level of
`depth` is spent on a node that others are placed ahead of, and no node is met twice. -/
def place (plan : EditPlan) : Nat → Layout → NodeId → Layout
  | 0, layout, _ => layout
  | depth + 1, layout, id =>
    if layout.met.contains id then layout
    else
      let layout := { layout with met := layout.met.insert id }
      let layout := (plan.insertedBefore id).foldl (plan.place depth) layout
      if plan.removed.contains id then layout
      else { layout with order := layout.order.push id }

/-- The sequence that the plan makes of `order`. A moved node is laid out only where it moved to. -/
def apply (plan : EditPlan) (order : Array NodeId) : Array NodeId :=
  let step (layout : Layout) (id : NodeId) : Layout :=
    if plan.moved.contains id then layout else plan.place (plan.before.size + 1) layout id
  (order.foldl step ⟨#[], ∅⟩).order

end EditPlan

end DirectCall
