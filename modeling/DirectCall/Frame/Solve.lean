import DirectCall.Flow
import DirectCall.Frame.Execute
import DirectCall.Insn.Result

/-!
# Analysing a body

`analyze` executes a body on the frames of a domain, joining frames where paths meet, until no frame
changes any more. A position that no path reaches has no frame.
-/

namespace DirectCall.Frame

variable {V : Type}

/-- A frame for each position that was reached so far. -/
abbrev Frames (V : Type) := Array (Option (Frame V))

/-- Frames so far, and the positions to execute again, last come first. -/
structure Progress (V : Type) where
  frames : Frames V
  queue : List Nat
  queued : Array Bool

namespace Progress

def start (size : Nat) (entry : Frame V) : Progress V :=
  ⟨(Array.replicate size none).setIfInBounds 0 (some entry), [0],
    (Array.replicate size false).setIfInBounds 0 true⟩

/-- Queues a position unless it is queued already. -/
def enqueue (s : Progress V) (position : Nat) : Progress V :=
  if s.queued.getD position false then s
  else { s with queue := position :: s.queue, queued := s.queued.setIfInBounds position true }

/-- Lets a path with `frame` reach `target`. -/
def flowInto [DecidableEq V] (d : Domain V) (s : Progress V) (target : Nat) (frame : Frame V) :
    Except Fault (Progress V) :=
  match s.frames.getD target none with
  | none => .ok ({ s with frames := s.frames.setIfInBounds target (some frame) }.enqueue target)
  | some mine => do
    let joined ← mine.join d frame
    if joined = mine then return s
    else return { s with frames := s.frames.setIfInBounds target (some joined) }.enqueue target

def flowIntoAll [DecidableEq V] (d : Domain V) (frame : Frame V) :
    Progress V → List Nat → Except Fault (Progress V)
  | s, [] => .ok s
  | s, target :: rest => do
    flowIntoAll d frame (← during (.mergingInto target) (s.flowInto d target frame)) rest

/-- Lets the exceptions that an instruction may raise in `frame` reach their handlers. -/
def flowIntoHandlers [DecidableEq V] (d : Domain V) (frame : Frame V) :
    Progress V → List HandlerEdge → Except Fault (Progress V)
  | s, [] => .ok s
  | s, edge :: rest => do
    let caught := frame.caught d edge.catchType
    flowIntoHandlers d frame
      (← during (.mergingIntoHandler edge.handler) (s.flowInto d edge.handler caught)) rest

/-- Executes a position and passes the frame on. A handler sees the frame before the instruction. -/
def visit [DecidableEq V] (d : Domain V) (flow : Flow) (position : Nat) (s : Progress V) :
    Except Fault (Progress V) :=
  match s.frames.getD position none with
  | none => .ok s
  | some before => do
    let insn := flow.insnAt position
    let after ← during (.interpreting insn position) (before.execute d (flow.idAt position) insn)
    let s ← s.flowIntoAll d after (← flow.successors position)
    if insn.isReal then s.flowIntoHandlers d before (flow.handlersAt position) else return s

/-- Visits queued positions until none is left. -/
def settle [DecidableEq V] (d : Domain V) (flow : Flow) : Nat → Progress V → Except Fault (Frames V)
  | 0, s => if s.queue.isEmpty then .ok s.frames else .error .unsettled
  | visits + 1, s =>
    match s.queue with
    | [] => .ok s.frames
    | position :: queue => do
      let s := { s with queue := queue, queued := s.queued.setIfInBounds position false }
      settle d flow visits (← s.visit d flow position)

end Progress

/-- Texts that the values of an analysis may be made of: those of the method, the types of results and
the types caught. -/
def texts (m : MethodSig) (body : Body) : List String :=
  m.owner :: m.descriptor :: body.insns.insns.toList.filterMap (·.result?) ++
    body.regions.filterMap (·.catchType)

/-- No array type in the text has more dimensions. -/
def brackets (text : String) : Nat := text.toList.count '['

/-- No array type in one of the texts has more dimensions. -/
def bracketBound (m : MethodSig) (body : Body) : Nat :=
  (texts m body).foldr (fun text bound => max (brackets text) bound) 0

/-- Enough visits for `size` positions whose slots change at most `height` times each: a position is
visited again only if one of its slots was raised, and every instruction adds at most two values to the
stack. -/
def visitBound (height size locals : Nat) : Nat :=
  1 + size * (1 + (locals + 2 * size + 2) * (height + 1))

/-- The frame ahead of each position, once no frame changes any more. -/
def analyze [DecidableEq V] (d : Domain V) (m : MethodSig) (body : Body) : Except Fault (Frames V) := do
  let flow ← Flow.ofBody body
  if flow.size = 0 then throw (.noCode m.name m.descriptor)
  let entry ← Frame.entry d m body.maxLocals
  Progress.settle d flow (visitBound (d.height (bracketBound m body)) flow.size entry.locals.size)
    (Progress.start flow.size entry)

end DirectCall.Frame
