import DirectCall.Constants.Domain
import DirectCall.Sources

/-!
# Operand code

A span is the code that produces an operand of a call. It may be removed if that leaves everything
else as it is: the stack is the same before and after it up to the operand, nothing in it has
another effect, and no path enters or leaves it half way.
-/

namespace DirectCall

/-- The positions from `start` up to `stop`. -/
structure Span where
  start : Nat
  stop : Nat
  deriving DecidableEq, Repr

namespace Span

def positions (s : Span) : List Nat := List.range' s.start (s.stop - s.start)

def contains (s : Span) (position : Nat) : Bool := s.start ≤ position && position < s.stop

end Span

/-- The first number from `start` up to `stop` that passes a test. -/
def firstBetween (test : Nat → Bool) (start stop : Nat) : Option Nat :=
  go (stop - start) start
where
  go : Nat → Nat → Option Nat
    | 0, _ => none
    | count + 1, n => if test n then some n else go count (n + 1)

/-- What is known of a body before any of its calls is replaced. -/
structure SiteAnalysis where
  flow : Flow
  constants : Frame.Frames ConstantValue
  sources : SourceAnalysis
  /-- Positions of the jumps to each position. -/
  incoming : Array (List Nat)
  /-- Marks of the positions where handlers start. -/
  handlers : Array Bool
  /-- Marks of the ends of regions and of local variable entries. -/
  boundaries : Array Bool

namespace SiteAnalysis

/-- Jumps to each position. -/
def incomingJumps (flow : Flow) : Array (List Nat) :=
  (List.range flow.size).foldr
    (fun source table =>
      ((flow.insnAt source).targets.filterMap flow.positions.find?).foldl
        (fun table target => table.modify target (source :: ·)) table)
    (Array.replicate flow.size [])

def run (m : MethodSig) (body : Body) : Except Fault SiteAnalysis := do
  let constants ← constantFrames m body
  let sources ← SourceAnalysis.run m body
  let flow := sources.flow
  let mark (ids : List NodeId) : Array Bool :=
    Graph.mark flow.size (ids.filterMap flow.positions.find?)
  return { flow := flow
           constants := constants
           sources := sources
           incoming := incomingJumps flow
           handlers := mark (body.regions.map (·.handler))
           boundaries := mark (body.regions.flatMap (fun r => [r.start, r.stop])
             ++ body.locals.flatMap fun l => [l.start, l.stop]) }

def insnAt (a : SiteAnalysis) (position : Nat) : Insn := a.flow.insnAt position

def idAt (a : SiteAnalysis) (position : Nat) : NodeId := a.flow.idAt position

def isReal (a : SiteAnalysis) (position : Nat) : Bool := (a.insnAt position).isReal

/-- Producers on the stack ahead of a position, top first. -/
def stackAt (a : SiteAnalysis) (position : Nat) : Option (List SourceValue) :=
  (a.sources.frameAt position).map (·.stack)

def isHandler (a : SiteAnalysis) (position : Nat) : Bool := a.handlers.getD position false

def isBoundary (a : SiteAnalysis) (position : Nat) : Bool := a.boundaries.getD position false

/-- Nodes of the real instructions of a span. -/
def realIds (a : SiteAnalysis) (s : Span) : List NodeId :=
  (s.positions.filter a.isReal).map a.idAt

/-- Number of real instructions of a span. -/
def realCount (a : SiteAnalysis) (s : Span) : Nat := (s.positions.filter a.isReal).length

/-! ## Effects -/

/-- A duplication or an exchange on the stack. -/
def isShuffle : Insn → Bool
  | .op code => Opcode.between Opcode.dup Opcode.swap code
  | _ => false

/-- Where a value came from that a shuffle copied. -/
def copiedFrom (a : SiteAnalysis) (position : Nat) : List Nat :=
  if isShuffle (a.insnAt position) then
    (a.sources.consumedAt position).flatMap a.sources.producersOf
  else []

def isArrayAllocation : Insn → Bool
  | .type code _ _ => code == Opcode.anewarray
  | _ => false

/-- The array that the instruction stores into was made in the span and nowhere else. -/
def storesIntoOwnArray (a : SiteAnalysis) (position : Nat) (s : Span) : Bool :=
  match a.sources.consumedAt position with
  | [] => false
  | array :: _ =>
    (Graph.members (Graph.reach a.copiedFrom a.flow.size (a.sources.producersOf array))).all fun p =>
      s.contains p && (isArrayAllocation (a.insnAt p) || isShuffle (a.insnAt p))

/-- `valueOf` of a wrapper class for its primitive type. -/
def isBoxing (member : MemberRef) : Bool :=
  member.name == "valueOf" &&
    match Primitive.ofWrapper? member.owner with
    | some p => member.descriptor == "(" ++ p.descriptor ++ ")" ++ Descriptor.ofClassName p.wrapper
    | none => false

def isConstantLoad : Constant → Bool
  | .methodHandle => false
  | .dynamic _ => false
  | _ => true

/-- The instruction has no effect but on the operand stack. -/
def isPure (a : SiteAnalysis) (position : Nat) (s : Span) : Bool :=
  let insn := a.insnAt position
  match insn with
  | .label => true
  | .line _ => true
  | .push _ _ => true
  | .newArray _ => true
  | .op code =>
    Opcode.between Opcode.aconstNull Opcode.dconst1 code || Opcode.between Opcode.pop Opcode.swap code
      || (code == Opcode.aastore && a.storesIntoOwnArray position s)
  | .ldc _ constant => isConstantLoad constant
  | .var code _ => Opcode.between Opcode.iload Opcode.aload code
  | .jump code _ => code != Opcode.jsr
  | .type code _ _ => code == Opcode.anewarray
  | .field code _ member =>
    code == Opcode.getstatic && member.name == "TYPE" && (Primitive.ofWrapper? member.owner).isSome
  | .invoke code _ member _ =>
    insn.isMethodLookup || (code == Opcode.invokestatic && isBoxing member)
  | _ => false

/-! ## Spans of operands -/

/-- The span that produces some of the values that the consumer uses. It starts with the first
instruction that had a part in them and ends with the last producer. -/
def spanOfSlots (a : SiteAnalysis) (consumer : Nat) (slots : List Nat) : Option Span := do
  let values ← slots.mapM fun slot => (a.sources.consumedAt consumer)[slot]?
  let evidence := a.sources.evidence consumer slots
  let start ← evidence.head?
  let last ← evidence.getLast?
  let stop := (← (values.flatMap a.sources.producersOf).max?) + 1
  if start < stop ∧ last < stop ∧ stop ≤ consumer then some ⟨start, stop⟩ else none

/-- The stack below operand `slot` of `arity`, the operand included, at the consumer. -/
def settledStack (a : SiteAnalysis) (consumer slot arity : Nat) : Option (List SourceValue) := do
  let stack ← a.stackAt consumer
  if arity ≤ stack.length + slot then some (stack.drop (arity - 1 - slot)) else none

/-- The end of a store into a fresh array right after the span: a copy of the array, an index, a
value and the store itself. -/
def elementStoreEnd (a : SiteAnalysis) (s : Span) (consumer : Nat) (settled : List SourceValue) :
    Option Nat := do
  let copy ← firstBetween a.isReal s.stop consumer
  if a.insnAt copy ≠ .op Opcode.dup then none
  else
    let stop ← firstBetween (fun p => a.stackAt p = some settled) (copy + 1) (consumer + 1)
    let store := stop - 1
    if copy < store ∧ a.insnAt store = .op Opcode.aastore ∧ a.storesIntoOwnArray store ⟨s.start, stop⟩
    then some stop
    else none

/-- Extends a span over the stores that follow; each lies behind the one before. -/
def withElementStores (a : SiteAnalysis) (consumer : Nat) (settled : List SourceValue) :
    Nat → Span → Span
  | 0, s => s
  | count + 1, s =>
    match a.elementStoreEnd s consumer settled with
    | some stop => a.withElementStores consumer settled count ⟨s.start, stop⟩
    | none => s

/-- The span that produces operand `slot` of the `arity` ones at the consumer. It extends to where
the operand lies on top of the stack, and over the stores into it that follow. -/
def spanOf (a : SiteAnalysis) (consumer slot arity : Nat) : Option Span := do
  let s ← a.spanOfSlots consumer [slot]
  let settled ← a.settledStack consumer slot arity
  let stop := (firstBetween (fun p => a.stackAt p = some settled) s.stop consumer).getD consumer
  return a.withElementStores consumer settled (consumer - stop) ⟨s.start, stop⟩

/-- Nothing enters the position from outside the span, save at its start. -/
def isClosedAt (a : SiteAnalysis) (s : Span) (position : Nat) : Bool :=
  position == s.start
    || (!a.isHandler position && (a.incoming.getD position []).all s.contains)

/-- Jumps lead to the span or to its end. -/
def staysInside (a : SiteAnalysis) (s : Span) (position : Nat) : Bool :=
  ((a.insnAt position).targets.filterMap a.flow.positions.find?).all fun target =>
    s.start ≤ target && target ≤ s.stop

/-- Without the span all is the same, but for operand `slot` that is not pushed any more. -/
def isRemovable (a : SiteAnalysis) (s : Span) (consumer slot arity : Nat) : Bool :=
  match a.stackAt s.start, a.stackAt s.stop, a.stackAt consumer with
  | some before, some after, some stack =>
    decide (arity ≤ stack.length + slot) && before == stack.drop (arity - slot)
      && after == stack.drop (arity - 1 - slot)
      && s.positions.all fun p => a.isPure p s && a.staysInside s p && a.isClosedAt s p
  | _, _, _ => false

/-- Removable, and no range of a table starts or ends in it. -/
def isMovable (a : SiteAnalysis) (s : Span) (consumer slot arity : Nat) : Bool :=
  a.isRemovable s consumer slot arity && !a.isHandler s.start
    && s.positions.all fun p => !a.isBoundary p

/-- The instruction does not write the local. -/
def keepsLocal (var : UInt16) : Insn → Bool
  | .var code written =>
    !(Opcode.between Opcode.istore Opcode.astore code
      && (written == var || written.toNat + 1 == var.toNat))
  | .iinc written _ => written != var
  | _ => true

/-- No instruction from `start` up to `stop` writes the local. -/
def localUnchanged (a : SiteAnalysis) (var : UInt16) (start stop : Nat) : Bool :=
  (Span.mk start stop).positions.all fun p => keepsLocal var (a.insnAt p)

/-- The reference that a load in the span reads. -/
def loadedLocal? (a : SiteAnalysis) (s : Span) : Option UInt16 :=
  s.positions.findSome? fun p =>
    match a.insnAt p with
    | .var code var => if code = Opcode.aload then some var else none
    | _ => none

end SiteAnalysis

end DirectCall
