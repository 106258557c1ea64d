import DirectCall.Body
import DirectCall.Fault

/-!
# Frames and abstract domains

A frame holds the local variables and the operand stack at one place in a body. A domain says what
the values of a frame are and how instructions compute with them; the frame itself deals with slots
and stack positions, which are the same for all domains.
-/

namespace DirectCall

/-- Abstract values and the effect of instructions on them. -/
structure Domain (V : Type) where
  /-- Slots that a value takes, one or two. -/
  size : V → Nat
  /-- Any value of a type; `none` is a local that is not set. -/
  ofDescriptor : Option String → V
  /-- The object that a method is called on. -/
  receiver : MethodSig → V
  /-- What a handler finds on the stack. -/
  exception : Option String → V
  /-- A value made without operands. -/
  produce : NodeId → Insn → V
  /-- A value that is loaded, stored or moved on the stack. -/
  copy : NodeId → Insn → V → V
  unary : NodeId → Insn → V → V
  binary : NodeId → Insn → V → V → V
  /-- The result of a call or a new array, from the operands in push order. -/
  nary : NodeId → Insn → List V → V
  /-- What is known where two paths meet. -/
  join : V → V → V
  /-- Values to replace in the whole frame, after the instruction consumed its operands. -/
  refine : NodeId → Insn → List V → List (V × V)
  /-- No value is raised by `join` more often than this, if the texts that values are made of have at
  most so many brackets each. -/
  height : Nat → Nat

/-- Local variables, and the operand stack with its top first. -/
structure Frame (V : Type) where
  locals : Array V
  stack : List V
  deriving DecidableEq, Repr

namespace Frame

variable {V : Type}

/-- Size of the stack in slots. -/
def stackSlots (d : Domain V) (f : Frame V) : Nat := f.stack.foldr (fun v slots => d.size v + slots) 0

/-- The value `depth` entries below the top. -/
def peek? (f : Frame V) (depth : Nat) : Option V := f.stack[depth]?

def push (f : Frame V) (v : V) : Frame V := { f with stack := v :: f.stack }

/-- Takes `count` values off the stack; the first pushed comes first. -/
def pop (f : Frame V) (count : Nat) : Except Fault (List V × Frame V) :=
  let (taken, rest) := f.stack.splitAt count
  if taken.length = count then .ok (taken.reverse, { f with stack := rest })
  else .error .stackUnderflow

def getLocal (f : Frame V) (var : Nat) : Except Fault V :=
  match f.locals[var]? with
  | some v => .ok v
  | none => .error (.localOutside var f.locals.size)

/-- Unsets a local that is the first half of a wide value. -/
def cutWide (d : Domain V) (locals : Array V) (var : Nat) : Array V :=
  match locals[var]? with
  | some v => if d.size v = 2 then locals.setIfInBounds var (d.ofDescriptor none) else locals
  | none => locals

/-- Stores into a local. A wide value also takes the next one, and a wide value that is cut in half
is lost. -/
def setLocal (d : Domain V) (f : Frame V) (var : Nat) (v : V) : Except Fault (Frame V) :=
  let last := if d.size v = 2 then var + 1 else var
  if last < f.locals.size then
    let locals := if 0 < var then cutWide d f.locals (var - 1) else f.locals
    let locals := locals.setIfInBounds var v
    let locals := if d.size v = 2 then locals.setIfInBounds (var + 1) (d.ofDescriptor none) else locals
    .ok { f with locals := locals }
  else .error (.localOutside var f.locals.size)

/-- Puts `new` wherever `old` is. -/
def replace [DecidableEq V] (f : Frame V) (old new : V) : Frame V :=
  let put (v : V) : V := if v = old then new else v
  ⟨f.locals.map put, f.stack.map put⟩

def replaceAll [DecidableEq V] (f : Frame V) (changes : List (V × V)) : Frame V :=
  changes.foldl (fun f (old, new) => f.replace old new) f

/-- The frame where a path with `theirs` meets one with `mine`. -/
def join (d : Domain V) (mine theirs : Frame V) : Except Fault (Frame V) :=
  if mine.stack.length = theirs.stack.length then
    .ok ⟨Array.zipWith d.join mine.locals theirs.locals, List.zipWith d.join mine.stack theirs.stack⟩
  else .error (.stackHeights mine.stack.length theirs.stack.length)

/-- The frame in which a handler starts. -/
def caught (d : Domain V) (f : Frame V) (catchType : Option String) : Frame V :=
  ⟨f.locals, [d.exception catchType]⟩

/-- Parameters from `slot` on. -/
def setParams (d : Domain V) (locals : Array V) (slot : Nat) : List String → Array V
  | [] => locals
  | param :: rest =>
    setParams d (locals.setIfInBounds slot (d.ofDescriptor (some param)))
      (slot + Descriptor.size (some param)) rest

/-- Parameters and receiver of a method, as slots. -/
def entrySlots (m : MethodSig) (parsed : MethodDescriptor) : Nat :=
  parsed.paramSlots + (if m.isStatic then 0 else 1)

/-- The frame in which a method starts. -/
def entry (d : Domain V) (m : MethodSig) (maxLocals : UInt16) : Except Fault (Frame V) :=
  match MethodDescriptor.parse m.descriptor with
  | .error cause => .error (.descriptor m.descriptor cause)
  | .ok parsed =>
    let locals := Array.replicate (max maxLocals.toNat (entrySlots m parsed)) (d.ofDescriptor none)
    if m.isStatic then .ok ⟨setParams d locals 0 parsed.params, []⟩
    else .ok ⟨setParams d (locals.setIfInBounds 0 (d.receiver m)) 1 parsed.params, []⟩

end Frame

end DirectCall
