import DirectCall.Graph.Reach
import DirectCall.Sources.Value

/-!
# Source analysis

For every instruction the analysis knows the producers of each value that it uses. `evidence`
gathers all instructions that had a part in some of those values, the branches that choose between
different producers included.
-/

namespace DirectCall

/-- A branch that may leave for a place other than the next one. -/
structure Conditional where
  source : Nat
  target : Nat
  deriving DecidableEq, Repr

structure SourceAnalysis where
  flow : Flow
  frames : Frame.Frames SourceValue
  /-- Per position, the values that the instruction there uses. -/
  consumed : Array (List SourceValue)
  conditionals : List Conditional

namespace SourceAnalysis

/-- All copied values count as one, of the size of the first. -/
def mergeCopies : List SourceValue → List SourceValue
  | [] => []
  | first :: rest => [rest.foldl SourceValue.join first]

/-- Values that an instruction uses, in push order. Loads, stores and pops use none: they hand a
value on as it is. -/
def usedBy (insn : Insn) (id : NodeId) (frame : Frame SourceValue) : List SourceValue :=
  let d := SourceValue.domain 0
  match insn.opcode? with
  | none => []
  | some code =>
    match Opcode.effect code with
    | .unary _ | .binary _ | .storeElement | .call | .newMultiArray =>
      match frame.step d id insn code with
      | .ok (operands, _) => operands
      | .error _ => []
    | .increment =>
      match insn with
      | .iinc var _ => (frame.locals[var.toNat]?).toList
      | _ => []
    | .shuffle kind =>
      match insn with
      | .op _ =>
        match kind.run d.size (d.copy id insn) frame.stack with
        | some (copied, _) => mergeCopies copied
        | none => []
      | _ => []
    | _ => []

/-- A conditional jump or a switch. -/
def isConditional : Insn → Bool
  | .jump code _ => code != Opcode.goto && code != Opcode.jsr
  | .tableSwitch _ _ _ => true
  | .lookupSwitch _ _ _ => true
  | _ => false

/-- The ways in which a reached position leaves for another place than the next. -/
def conditionalsAt (flow : Flow) (frames : Frame.Frames SourceValue) (position : Nat) :
    Except Fault (List Conditional) := do
  if isConditional (flow.insnAt position) && (frames.getD position none).isSome then
    let targets := (← flow.targetsAt position).filter (· ≠ position + 1)
    return targets.map (Conditional.mk position)
  else return []

def run (m : MethodSig) (body : Body) : Except Fault SourceAnalysis := do
  let frames ← Frame.analyze (SourceValue.domain body.insns.nodes.size) m body
  let flow ← Flow.ofBody body
  let conditionals ← (List.range flow.size).mapM (conditionalsAt flow frames)
  let consumed := (Array.range flow.size).map fun position =>
    match frames.getD position none with
    | some frame => usedBy (flow.insnAt position) (flow.idAt position) frame
    | none => []
  return ⟨flow, frames, consumed, conditionals.flatten⟩

def consumedAt (a : SourceAnalysis) (position : Nat) : List SourceValue :=
  a.consumed.getD position []

def frameAt (a : SourceAnalysis) (position : Nat) : Option (Frame SourceValue) :=
  a.frames.getD position none

/-- Positions of the producers of a value. -/
def producersOf (a : SourceAnalysis) (v : SourceValue) : List Nat :=
  v.producers.filterMap a.flow.positions.find?

/-- Branches that pass over a position. -/
def branchesOver (a : SourceAnalysis) (position : Nat) : List Nat :=
  (a.conditionals.filter fun c => c.source ≤ position && position ≤ c.target).map (·.source)

/-- What had a direct part in a value: its producers and, if there are several, the branches that
choose between them. -/
def feeders (a : SourceAnalysis) (v : SourceValue) : List Nat :=
  let producers := a.producersOf v
  if v.producers.length ≤ 1 then producers
  else producers ++ producers.flatMap a.branchesOver

/-- What had a direct part in the values that an instruction uses. -/
def feedersAt (a : SourceAnalysis) (position : Nat) : List Nat :=
  (a.consumedAt position).flatMap a.feeders

/-- Positions of all instructions that had a part in the values in some slots of what the consumer
uses, by increasing position. -/
def evidence (a : SourceAnalysis) (consumer : Nat) (slots : List Nat) : List Nat :=
  let values := slots.filterMap fun slot => (a.consumedAt consumer)[slot]?
  Graph.members (Graph.reach a.feedersAt a.flow.size (values.flatMap a.feeders))

end SourceAnalysis

end DirectCall
