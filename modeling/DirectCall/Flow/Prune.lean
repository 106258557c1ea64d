import DirectCall.Flow.Blocks

/-!
# Pruning

`Body.pruneUnreachable` removes instructions that no path reaches and regions that cover none,
until nothing is left to remove. Labels and line markers stay, so that references stay valid.
-/

namespace DirectCall

namespace Body

/-- Real instructions that stand between two positions. -/
def realBetween (list : InsnList) (start stop : Nat) : List NodeId :=
  ((List.range' start (stop - start)).map list.idAt).filter fun id => (list.get id).isReal

/-- The region covers an instruction. -/
def covers (list : InsnList) (positions : Positions) (r : Region) : Except Fault Bool := do
  let start ← positions.find r.start
  let stop ← positions.find r.stop
  return !(realBetween list start stop).isEmpty

/-- The body without regions that cover nothing. -/
def dropEmptyRegions (body : Body) : Except Fault Body := do
  let kept ← body.regions.filterM (covers body.insns body.insns.positions)
  return { body with regions := kept }

/-- Real instructions in blocks that are not reached. -/
def unreachable (body : Body) : Except Fault (List NodeId) := do
  let g ← BlockGraph.ofBody body
  let marks := g.reachable
  return (g.blocks.filter fun b => !marks.getD b.start false).flatMap fun b =>
    realBetween body.insns b.start b.stop

/-- Number of real instructions. -/
def realCount (body : Body) : Nat :=
  (body.insns.insns.filter (·.isReal)).size

/-- Removes unreachable code for at most `rounds` rounds, each of which removes an instruction. -/
def pruneRounds : Nat → Body → Nat → Except Fault (Body × Nat)
  | 0, body, removed => return (body, removed)
  | rounds + 1, body, removed => do
    let body ← body.dropEmptyRegions
    let dead ← body.unreachable
    if dead.isEmpty then return (body, removed)
    else
      let insns := body.insns.commit (EditPlan.empty.removeAll dead)
      pruneRounds rounds { body with insns := insns } (removed + dead.length)

/-- The body without dead code, and the number of instructions removed. -/
def pruneUnreachable (body : Body) : Except Fault (Body × Nat) :=
  pruneRounds (body.realCount + 1) body 0

end Body

end DirectCall
