import DirectCall.EditPlan

/-!
# Instruction lists

A list owns its nodes and an order of them. A node keeps its identity when the order changes; a node
may also exist without a place, until an edit plan gives it one.
-/

namespace DirectCall

structure InsnList where
  nodes : Array Insn
  order : Array NodeId
  deriving Inhabited

namespace InsnList

def empty : InsnList := ⟨#[], #[]⟩

/-- A new node without a place. -/
def create (list : InsnList) (insn : Insn) : InsnList × NodeId :=
  ({ list with nodes := list.nodes.push insn }, ⟨list.nodes.size⟩)

/-- Puts a node at the end. -/
def append (list : InsnList) (id : NodeId) : InsnList :=
  { list with order := list.order.push id }

/-- A new node at the end. -/
def push (list : InsnList) (insn : Insn) : InsnList × NodeId :=
  let (list, id) := list.create insn
  (list.append id, id)

/-- New nodes without a place. -/
def createAll (list : InsnList) : List Insn → InsnList × List NodeId
  | [] => (list, [])
  | insn :: rest =>
    let (list, id) := list.create insn
    let (list, ids) := list.createAll rest
    (list, id :: ids)

def ofInsns (insns : Array Insn) : InsnList :=
  ⟨insns, (Array.range insns.size).map NodeId.mk⟩

/-- The instruction of a node. -/
def get (list : InsnList) (id : NodeId) : Insn :=
  list.nodes[id.index]?.getD .label

def size (list : InsnList) : Nat := list.order.size

/-- The node at a position. -/
def idAt (list : InsnList) (position : Nat) : NodeId :=
  list.order[position]?.getD .dangling

/-- The instruction at a position. -/
def insnAt (list : InsnList) (position : Nat) : Insn :=
  list.get (list.idAt position)

/-- Instructions in order. -/
def insns (list : InsnList) : Array Insn := list.order.map list.get

def commit (list : InsnList) (plan : EditPlan) : InsnList :=
  { list with order := plan.apply list.order }

end InsnList

/-- Where each node of a list stands. -/
structure Positions where
  slots : Array (Option Nat)
  deriving Inhabited

namespace Positions

/-- Position of a node that has a place. -/
def find? (positions : Positions) (id : NodeId) : Option Nat :=
  positions.slots[id.index]?.join

/-- Records one node after another; the last position of a node counts. -/
def record (slots : Array (Option Nat)) (position : Nat) : List NodeId → Array (Option Nat)
  | [] => slots
  | id :: rest => record (slots.setIfInBounds id.index (some position)) (position + 1) rest

end Positions

def InsnList.positions (list : InsnList) : Positions :=
  ⟨Positions.record (Array.replicate list.nodes.size none) 0 list.order.toList⟩

end DirectCall
