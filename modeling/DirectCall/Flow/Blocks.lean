import DirectCall.Flow
import DirectCall.Graph.Reach

/-!
# Basic blocks

A block runs from a leader up to the next one. Leaders are the first position, handlers that cover
something, targets, and what follows a jump or an exit.
-/

namespace DirectCall

/-- The positions from `start` up to `stop`. -/
structure Block where
  start : Nat
  stop : Nat
  deriving DecidableEq, Repr

inductive EdgeKind where
  | fallThrough
  | branch
  | exception
  deriving DecidableEq, Repr

/-- An edge between the blocks that start at `source` and `target`. -/
structure FlowEdge where
  source : Nat
  target : Nat
  kind : EdgeKind
  deriving DecidableEq, Repr

structure BlockGraph where
  blocks : List Block
  edges : List FlowEdge
  deriving DecidableEq, Repr

namespace Insn

/-- A return or a throw. -/
def isExit : Insn → Bool
  | op code => Opcode.between Opcode.ireturn Opcode.returnVoid code || code == Opcode.athrow
  | _ => false

end Insn

namespace Flow

/-- Leaders that the instruction at `position` gives rise to. -/
def leadersAt (f : Flow) (position : Nat) : Except Fault (List Nat) := do
  let targets ← f.targetsAt position
  if targets.isEmpty && !(f.insnAt position).isExit then return []
  else return targets ++ [position + 1]

/-- The handler of a coverage that is not empty. -/
def coverageLeader (f : Flow) (c : Coverage) : List Nat :=
  if c.start < c.stop ∧ c.start < f.size then [c.edge.handler] else []

/-- Marks of the positions where blocks start. -/
def leaders (f : Flow) : Except Fault (Array Bool) := do
  let jumps ← (List.range f.size).mapM f.leadersAt
  return Graph.mark f.size (0 :: f.coverages.flatMap f.coverageLeader ++ jumps.flatten)

/-- Blocks between one start and the next, the last one up to `size`. -/
def blocksOf (size : Nat) : List Nat → List Block
  | [] => []
  | [start] => [⟨start, size⟩]
  | start :: next :: rest => ⟨start, next⟩ :: blocksOf size (next :: rest)

/-- Handlers of the real instructions of a block, each once. -/
def blockHandlers (f : Flow) (b : Block) : List Nat :=
  let handlers := (List.range' b.start (b.stop - b.start)).flatMap fun p =>
    if (f.insnAt p).isReal then (f.handlersAt p).map (·.handler) else []
  handlers.eraseDups

def blockEdges (f : Flow) (b : Block) : Except Fault (List FlowEdge) := do
  let last := b.stop - 1
  let branches := (← f.targetsAt last).map fun target => FlowEdge.mk b.start target .branch
  let falls :=
    if !(f.insnAt last).endsFlow && b.stop < f.size then [FlowEdge.mk b.start b.stop .fallThrough]
    else []
  return branches ++ falls ++ (f.blockHandlers b).map (FlowEdge.mk b.start · .exception)

end Flow

namespace BlockGraph

def ofBody (body : Body) : Except Fault BlockGraph := do
  let f ← Flow.ofBody body
  let blocks := Flow.blocksOf f.size (Graph.members (← f.leaders))
  return ⟨blocks, (← blocks.mapM f.blockEdges).flatten⟩

/-- Targets of the edges by the start of their source. -/
def adjacency (g : BlockGraph) (size : Nat) : Array (List Nat) :=
  g.edges.foldr
    (fun e table => table.modify e.source (e.target :: ·))
    (Array.replicate size [])

/-- One more than the greatest start of a block. -/
def bound (g : BlockGraph) : Nat := g.blocks.foldl (fun n b => max n (b.start + 1)) 0

/-- Marks of the starts of blocks that are reached from the first one. -/
def reachable (g : BlockGraph) : Array Bool :=
  match g.blocks with
  | [] => #[]
  | entry :: _ =>
    let table := g.adjacency g.bound
    Graph.reach (fun v => table.getD v []) g.bound [entry.start]

end BlockGraph

end DirectCall
