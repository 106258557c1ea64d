import DirectCall.Insn

/-!
# Constant values

What constant propagation knows of a value: nothing, an integer, a text, a class, an array literal
with its stored slots, or the result of a method lookup. `join` keeps what both sides agree on.
-/

namespace DirectCall

/-- Slot width of a value of which nothing else is known. -/
inductive Width where
  | single
  | double
  deriving DecidableEq, Repr

namespace Width

def ofDescriptor (d : Option String) : Width :=
  match d with
  | some d => if Descriptor.isWide d then double else single
  | none => single

def slots : Width → Nat
  | single => 1
  | double => 2

end Width

/-- A method looked up by constant arguments. -/
structure MethodLookup where
  /-- The call that made the lookup. -/
  site : NodeId
  className : String
  methodName : String
  /-- Parameter types in order. -/
  params : List String
  /-- Only methods that the class itself declares, of any access. -/
  declaredOnly : Bool
  deriving DecidableEq, Repr

namespace MethodLookup

def paramsDescriptor (m : MethodLookup) : String := MethodDescriptor.spellParams m.params

def text (m : MethodLookup) : String := m.className ++ "." ++ m.methodName ++ m.paramsDescriptor

end MethodLookup

/-- A value as constant propagation sees it. The slots of an array are those stored so far, by
increasing index. -/
inductive ConstantValue where
  /-- A local that was not set. -/
  | unset
  | unknown (width : Width)
  | int (value : Int32)
  | string (text : String)
  /-- A class object, by internal name. -/
  | classRef (name : String)
  /-- The class object of a primitive type, by wrapper class. -/
  | primitiveClass (wrapper : String)
  /-- An array literal of constant length; one of length zero has no allocation site. -/
  | array (site : Option NodeId) (component : String) (length : Int32)
      (slots : List (Int32 × ConstantValue))
  | method (lookup : MethodLookup)
  deriving Repr, Inhabited

namespace ConstantValue

/-! ## Equality -/

mutual

def decEq : (x y : ConstantValue) → Decidable (x = y)
  | .unset, y =>
    match y with
    | .unset => .isTrue rfl
    | .unknown _ | .int _ | .string _ | .classRef _ | .primitiveClass _ | .array .. | .method _ =>
      .isFalse (by simp)
  | .unknown a, y =>
    match y with
    | .unknown b => decidable_of_iff (a = b) (by simp)
    | .unset | .int _ | .string _ | .classRef _ | .primitiveClass _ | .array .. | .method _ =>
      .isFalse (by simp)
  | .int a, y =>
    match y with
    | .int b => decidable_of_iff (a = b) (by simp)
    | .unset | .unknown _ | .string _ | .classRef _ | .primitiveClass _ | .array .. | .method _ =>
      .isFalse (by simp)
  | .string a, y =>
    match y with
    | .string b => decidable_of_iff (a = b) (by simp)
    | .unset | .unknown _ | .int _ | .classRef _ | .primitiveClass _ | .array .. | .method _ =>
      .isFalse (by simp)
  | .classRef a, y =>
    match y with
    | .classRef b => decidable_of_iff (a = b) (by simp)
    | .unset | .unknown _ | .int _ | .string _ | .primitiveClass _ | .array .. | .method _ =>
      .isFalse (by simp)
  | .primitiveClass a, y =>
    match y with
    | .primitiveClass b => decidable_of_iff (a = b) (by simp)
    | .unset | .unknown _ | .int _ | .string _ | .classRef _ | .array .. | .method _ =>
      .isFalse (by simp)
  | .method a, y =>
    match y with
    | .method b => decidable_of_iff (a = b) (by simp)
    | .unset | .unknown _ | .int _ | .string _ | .classRef _ | .primitiveClass _ | .array .. =>
      .isFalse (by simp)
  | .array site component length slots, y =>
    match y with
    | .array site' component' length' slots' =>
      if h : site = site' ∧ component = component' ∧ length = length' then
        match decEqSlots slots slots' with
        | .isTrue hs => .isTrue (by simp [h, hs])
        | .isFalse hs => .isFalse (by simp [hs])
      else .isFalse fun e => h (by simp_all)
    | .unset | .unknown _ | .int _ | .string _ | .classRef _ | .primitiveClass _ | .method _ =>
      .isFalse (by simp)

def decEqSlots : (xs ys : List (Int32 × ConstantValue)) → Decidable (xs = ys)
  | [], [] => .isTrue rfl
  | [], _ :: _ => .isFalse (by simp)
  | _ :: _, [] => .isFalse (by simp)
  | (i, x) :: xs, (j, y) :: ys =>
    if h : i = j then
      match decEq x y with
      | .isTrue hv =>
        match decEqSlots xs ys with
        | .isTrue hs => .isTrue (by simp [h, hv, hs])
        | .isFalse hs => .isFalse (by simp [hs])
      | .isFalse hv => .isFalse (by simp [hv])
    else .isFalse (by simp [h])

end

instance : DecidableEq ConstantValue := decEq

/-! ## Operations -/

/-- Any value of a type. -/
def ofDescriptor (d : Option String) : ConstantValue := unknown (Width.ofDescriptor d)

/-- A fully known value, as opposed to an unset or unknown one. -/
def isConstant : ConstantValue → Bool
  | unset => false
  | unknown _ => false
  | _ => true

/-- Slots that the value takes. -/
def size : ConstantValue → Nat
  | unknown w => w.slots
  | _ => 1

/-- Field descriptor of the type that a class object stands for. -/
def describedType? : ConstantValue → Option String
  | classRef name => some (Descriptor.ofClassName name)
  | primitiveClass wrapper => (Primitive.ofWrapper? wrapper).map (·.descriptor)
  | _ => none

/-- Equal values stay; all else is unknown, and single unless both sides are double. -/
def join (x y : ConstantValue) : ConstantValue :=
  if x = y then x
  else if x.size = 2 ∧ y.size = 2 then unknown .double
  else unknown .single

/-- A fresh array literal. Arrays without slots are alike, so they carry no site. -/
def freshArray (site : NodeId) (component : String) (length : Int32) : ConstantValue :=
  array (if 0 < length then some site else none) component length []

/-- Slots after a store, still by increasing index. -/
def insertSlot (index : Int32) (value : ConstantValue) :
    List (Int32 × ConstantValue) → List (Int32 × ConstantValue)
  | [] => [(index, value)]
  | (i, v) :: rest =>
    if index < i then (index, value) :: (i, v) :: rest
    else if index = i then (index, value) :: rest
    else (i, v) :: insertSlot index value rest

/-- The array after a store. A store out of bounds never completes, so it changes nothing. -/
def withSlot (x : ConstantValue) (index : Int32) (value : ConstantValue) : ConstantValue :=
  match x with
  | array site component length slots =>
    if 0 ≤ index ∧ index < length then array site component length (insertSlot index value slots)
    else x
  | _ => x

/-- The stored values, if the slots from `next` on are all there, in number `count`. -/
def denseFrom (next : Int32) : Nat → List (Int32 × ConstantValue) → Option (List ConstantValue)
  | 0, [] => some []
  | count + 1, (i, v) :: rest => if i = next then (denseFrom (next + 1) count rest).map (v :: ·) else none
  | _, _ => none

/-- The elements of an array all of whose slots were stored. -/
def elements? : ConstantValue → Option (List ConstantValue)
  | array _ _ length slots => denseFrom 0 length.toInt.toNat slots
  | _ => none

end ConstantValue

end DirectCall
