import DirectCall.Proofs.CallSite.Ahead
import DirectCall.Proofs.CallSite.Operand
import DirectCall.Proofs.Hierarchy.Candidates
import DirectCall.Proofs.Verification.Join

/-!
# The code around a direct call is well typed

Whatever the parameters and the result of a method are, the code that takes the place of a planned call runs in
the domain of verification types (`PlannedSite.runs_atSite`): the direct call finds its receiver and one value
of the right type for each parameter, and one reference is left on the stack.
-/

namespace DirectCall

/-! ## Running code -/

namespace Frame

section

variable {V : Type} [DecidableEq V]

/-- Carries out instructions one after the other, each at its node. -/
def executeAll (d : Domain V) (nodes : List (NodeId × Insn)) (f : Frame V) : Except Fault (Frame V) :=
  nodes.foldlM (fun f node => f.execute d node.1 node.2) f

/-- Wherever the code stands, it takes the first frame to the second. -/
def Runs (d : Domain V) (code : List Insn) (f g : Frame V) : Prop :=
  ∀ nodes : List (NodeId × Insn), nodes.map (·.2) = code → executeAll d nodes f = .ok g

variable {d : Domain V} {f g k : Frame V}

theorem runs_nil (d : Domain V) (f : Frame V) : Runs d [] f f := by
  intro nodes hnodes
  rw [List.map_eq_nil_iff.mp hnodes]
  rfl

theorem Runs.append {code code' : List Insn} (h : Runs d code f g) (h' : Runs d code' g k) :
    Runs d (code ++ code') f k := by
  intro nodes hnodes
  obtain ⟨front, back, rfl, hfront, hback⟩ := List.map_eq_append_iff.mp hnodes
  rw [executeAll, List.foldlM_append]
  exact bind_eq_ok.mpr ⟨g, h front hfront, h' back hback⟩

theorem runs_singleton {insn : Insn} (h : ∀ id, f.execute d id insn = .ok g) : Runs d [insn] f g := by
  intro nodes hnodes
  obtain ⟨node, rest, rfl, rfl, hrest⟩ := List.map_eq_cons_iff.mp hnodes
  rw [List.map_eq_nil_iff.mp hrest]
  exact bind_eq_ok.mpr ⟨g, h node.1, rfl⟩

theorem Runs.cons {insn : Insn} {code : List Insn} (h : ∀ id, f.execute d id insn = .ok g)
    (h' : Runs d code g k) : Runs d (insn :: code) f k :=
  (runs_singleton h).append h'

end

end Frame

/-! ## Types of descriptors -/

namespace Descriptor

/-- A descriptor that spells a primitive type, a class or an array type. -/
inductive Typed (d : String) : Prop
  | primitive {p : Primitive} : Primitive.ofDescriptor? d = some p → Typed d
  | reference {name : String} : className? d = some name → Typed d

theorem Typed.ne_void {d : String} (h : Typed d) : d ≠ "V" := by
  rintro rfl
  cases h with
  | primitive hp => cases hp
  | reference hname => cases hname

end Descriptor

namespace VerificationType

theorem ofDescriptor_of_className? {d name : String} (h : Descriptor.className? d = some name) :
    ofDescriptor d = .object name := by
  have hname := h
  unfold Descriptor.className? at h
  unfold ofDescriptor
  split at h
  · rename_i hlist
    rw [hlist]
    exact congrArg object (Option.some.inj h)
  · rename_i hlist
    rw [hlist]
    exact congrArg (fun name? => object (Option.getD name? objectClass)) hname
  · cases h

theorem ofDescriptor_ofClassName (name : String) : ofDescriptor (Descriptor.ofClassName name) = .object name :=
  ofDescriptor_of_className? (Descriptor.className?_ofClassName name)

end VerificationType

theorem TypeText.typed {t : TypeText} (h : t.WellFormed) (hvoid : t.hasVoid = false) :
    Descriptor.Typed t.text := by
  cases t with
  | void => cases hvoid
  | primitive p => exact .primitive (p := p) (by cases p <;> decide)
  | object name =>
    have hlist : (TypeText.object name).text.toList = 'L' :: (name ++ [';']) := TypeText.toList_text _
    refine @Descriptor.Typed.reference _ (String.ofList name) ?_
    rw [Descriptor.className?, hlist]
    simp
  | array dimensions element =>
    obtain ⟨n, rfl⟩ := Nat.exists_eq_add_of_lt h.1
    obtain ⟨rest, hlist⟩ : ∃ rest, (TypeText.array (0 + n + 1) element).text.toList = '[' :: rest :=
      ⟨_, TypeText.toList_text _⟩
    refine @Descriptor.Typed.reference _ (TypeText.array (0 + n + 1) element).text ?_
    rw [Descriptor.className?, hlist]
    rfl

namespace MethodDescriptor

variable {descriptor : String} {parsed : MethodDescriptor}

/-- Every parameter has a type that values can have, and so has a result. -/
theorem typed_of_parse (h : parse descriptor = .ok parsed) :
    (∀ param ∈ parsed.params, Descriptor.Typed param) ∧
      (parsed.ret = "V" ∨ parsed.ret ≠ "V" ∧ Descriptor.Typed parsed.ret) := by
  obtain ⟨ts, ret, hts, hret, hvoid, _, rfl⟩ := parse_typed h
  refine ⟨fun param hparam => ?_, ?_⟩
  · obtain ⟨t, ht, rfl⟩ := List.mem_map.mp hparam
    exact TypeText.typed (hts t ht).1 (hts t ht).2
  · by_cases hv : ret = .void
    · exact .inl (by rw [hv]; rfl)
    · have htyped := TypeText.typed hret (hvoid hv)
      exact .inr ⟨htyped.ne_void, htyped⟩

end MethodDescriptor

/-! ## One instruction -/

namespace VerificationType

variable {h : Hierarchy} {m : MethodSig} {locals : Array VerificationType} {stack : List VerificationType}

/-- The type of an array of objects. -/
def objectArray : VerificationType := .object "[Ljava/lang/Object;"

theorem execute_of_step {id : NodeId} {insn : Insn} {code : UInt8} {operands : List VerificationType}
    {f g : Frame VerificationType} (hcode : insn.opcode? = some code)
    (hrefine : refine m.owner insn operands = [])
    (hstep : Frame.step (domain h m) id insn code f = .ok (operands, g)) :
    Frame.execute (domain h m) id insn f = .ok g := by
  rw [Frame.execute, hcode]
  refine bind_eq_ok.mpr ⟨_, hstep, ?_⟩
  show Except.ok (g.replaceAll (refine m.owner insn operands)) = _
  rw [hrefine]
  rfl

theorem runs_pop (v : VerificationType) :
    Frame.Runs (domain h m) [.op Opcode.pop] ⟨locals, v :: stack⟩ ⟨locals, stack⟩ :=
  Frame.runs_singleton fun _ => execute_of_step rfl rfl (@Frame.pop_cons _ ⟨locals, v :: stack⟩ v stack rfl)

theorem runs_checkcast (name : String) (v : VerificationType) :
    Frame.Runs (domain h m) [.ofClass Opcode.checkcast name] ⟨locals, v :: stack⟩
      ⟨locals, .object name :: stack⟩ := by
  refine Frame.runs_singleton fun id => ?_
  have hstep : Frame.step (domain h m) id (.ofClass Opcode.checkcast name) Opcode.checkcast
      ⟨locals, v :: stack⟩ = .ok ([v], ⟨locals, .object name :: stack⟩) := by
    rw [← ofDescriptor_ofClassName name]
    exact Frame.stepUnary_eq_ok.mpr ⟨v, stack, rfl, rfl⟩
  exact execute_of_step rfl rfl hstep

/-- An instruction that makes a value without operands. -/
theorem runs_produce {insn : Insn} {code : UInt8} {v : VerificationType} (hcode : insn.opcode? = some code)
    (heffect : Opcode.effect code = .produce) (hrefine : refine m.owner insn [] = [])
    (hvalue : ∀ id, produce id insn = v) :
    Frame.Runs (domain h m) [insn] ⟨locals, stack⟩ ⟨locals, v :: stack⟩ := by
  refine Frame.runs_singleton fun id => execute_of_step hcode hrefine ?_
  simp only [Frame.step, heffect]
  rw [← hvalue id]
  rfl

theorem runs_pushInt (value : Int32) :
    Frame.Runs (domain h m) [Insn.pushInt value] ⟨locals, stack⟩ ⟨locals, .int :: stack⟩ := by
  unfold Insn.pushInt
  split_ifs with hsmall
  · obtain ⟨hlow, hhigh⟩ := hsmall
    rw [Int32.le_iff_toInt_le] at hlow hhigh
    have hcases : value.toInt = -1 ∨ value.toInt = 0 ∨ value.toInt = 1 ∨ value.toInt = 2 ∨ value.toInt = 3 ∨
        value.toInt = 4 ∨ value.toInt = 5 := by
      have : (-1 : Int32).toInt = -1 := rfl
      have : (5 : Int32).toInt = 5 := rfl
      omega
    rcases hcases with h | h | h | h | h | h | h <;> rw [h] <;> exact runs_produce rfl rfl rfl fun _ => rfl
  · exact runs_produce rfl rfl rfl fun _ => rfl
  · exact runs_produce rfl rfl rfl fun _ => rfl
  · refine runs_produce rfl rfl rfl fun id => ?_
    show ofResult (.ldc 0 (.int value)) = int
    rw [ofResult, Insn.result?, Constant.descriptor]
    rfl

theorem runs_aload {var : UInt16} {v : VerificationType} (hv : locals[var.toNat]? = some v) :
    Frame.Runs (domain h m) [.var Opcode.aload var] ⟨locals, stack⟩ ⟨locals, v :: stack⟩ := by
  refine Frame.runs_singleton fun id => ?_
  have hstep : Frame.step (domain h m) id (.var Opcode.aload var) Opcode.aload ⟨locals, stack⟩ =
      .ok ([], ⟨locals, v :: stack⟩) :=
    bind_eq_ok.mpr ⟨var.toNat, rfl, bind_eq_ok.mpr ⟨v, Frame.getLocal_eq_ok.mpr hv, rfl⟩⟩
  exact execute_of_step rfl rfl hstep

/-- The local holds the array that was on the stack. -/
theorem runs_astore {var : UInt16} (hvar : var.toNat < locals.size) :
    ∃ locals', Frame.Runs (domain h m) [.var Opcode.astore var] ⟨locals, objectArray :: stack⟩ ⟨locals', stack⟩ ∧
      locals'[var.toNat]? = some objectArray := by
  obtain ⟨old, hsize, hset⟩ : ∃ old : Array VerificationType, old.size = locals.size ∧
      Frame.setLocal (domain h m) ⟨locals, stack⟩ var.toNat objectArray =
        .ok ⟨old.setIfInBounds var.toNat objectArray, stack⟩ := by
    refine ⟨if 0 < var.toNat then Frame.cutWide (domain h m) locals (var.toNat - 1) else locals, ?_, if_pos hvar⟩
    split_ifs
    · exact Frame.cutWide_size _ _ _
    · rfl
  refine ⟨old.setIfInBounds var.toNat objectArray, Frame.runs_singleton fun id => ?_, ?_⟩
  · have hstep : Frame.step (domain h m) id (.var Opcode.astore var) Opcode.astore
        ⟨locals, objectArray :: stack⟩ = .ok ([objectArray], ⟨old.setIfInBounds var.toNat objectArray, stack⟩) :=
      Frame.stepStore_eq_ok.mpr ⟨var.toNat, objectArray, stack, _, rfl, rfl, hset, rfl⟩
    exact execute_of_step rfl rfl hstep
  · exact Array.getElem?_setIfInBounds_self_of_lt (hsize ▸ hvar)

theorem runs_aaload (index : VerificationType) :
    Frame.Runs (domain h m) [.op Opcode.aaload] ⟨locals, index :: objectArray :: stack⟩
      ⟨locals, .object objectClass :: stack⟩ :=
  Frame.runs_singleton fun _ => execute_of_step rfl rfl
    (Frame.stepBinary_eq_ok.mpr ⟨objectArray, index, stack, rfl, rfl⟩)

/-- What a call leaves. -/
def returned (parsed : MethodDescriptor) : List VerificationType :=
  if parsed.ret = "V" then [] else [ofDescriptor parsed.ret]

section Call

variable {code : UInt8} {member : MemberRef} {interface : Bool} {parsed : MethodDescriptor}
  {operands : List VerificationType}

/-- A call takes its operands off the stack, and leaves its result if it has one. -/
theorem step_call (heffect : Opcode.effect code = .call)
    (hparse : MethodDescriptor.parse member.descriptor = .ok parsed) (hclosing : ')' ∉ parsed.ret.toList)
    (hoperands : operands.length = parsed.params.length + if code = Opcode.invokestatic then 0 else 1)
    (id : NodeId) :
    Frame.step (domain h m) id (.call code member interface) code ⟨locals, operands.reverse ++ stack⟩ =
      .ok (operands, ⟨locals, returned parsed ++ stack⟩) := by
  have hshape : Frame.callShape (.call code member interface) = .ok (operands.length, parsed.ret != "V") := by
    rw [Insn.call, Frame.callShape, Frame.callShape.shape, hparse, hoperands]
  have hresult : Frame.pushIf ⟨locals, stack⟩ (parsed.ret != "V") (ofResult (.call code member interface)) =
      ⟨locals, returned parsed ++ stack⟩ := by
    rw [ofResult, Insn.call, Insn.result?, MethodDescriptor.resultOf?_of_parse hparse hclosing, Frame.pushIf,
      returned]
    by_cases hvoid : parsed.ret = "V"
    · rw [if_pos hvoid, if_pos hvoid, if_neg (by simp [hvoid])]
      rfl
    · rw [if_neg hvoid, if_neg hvoid, if_pos (by simpa using hvoid)]
      rfl
  simp only [Frame.step, heffect]
  refine bind_eq_ok.mpr ⟨_, hshape, Frame.stepNary_eq_ok.mpr ⟨by simp, ?_⟩⟩
  rw [← List.length_reverse, List.take_left, List.drop_left, List.reverse_reverse]
  exact congrArg (Prod.mk operands) hresult.symm

theorem execute_call (heffect : Opcode.effect code = .call) (hspecial : code ≠ Opcode.invokespecial)
    (hparse : MethodDescriptor.parse member.descriptor = .ok parsed) (hclosing : ')' ∉ parsed.ret.toList)
    (hoperands : operands.length = parsed.params.length + if code = Opcode.invokestatic then 0 else 1)
    (id : NodeId) :
    Frame.execute (domain h m) id (.call code member interface) ⟨locals, operands.reverse ++ stack⟩ =
      .ok ⟨locals, returned parsed ++ stack⟩ :=
  execute_of_step rfl (if_neg fun hcode => hspecial hcode.1) (step_call heffect hparse hclosing hoperands id)

end Call

theorem not_closing_descriptor (p : Primitive) : ')' ∉ p.descriptor.toList ∧ p.descriptor ≠ "V" := by
  cases p <;> decide

theorem eq_descriptor {d : String} {p : Primitive} (h : Primitive.ofDescriptor? d = some p) : d = p.descriptor := by
  have hfound := List.find?_some h
  exact (of_decide_eq_true hfound).symm

/-- Unboxed, an element of the array has the type of the parameter. -/
theorem runs_unbox {param : String} (htyped : Descriptor.Typed param) :
    Frame.Runs (domain h m) (Insn.unbox param) ⟨locals, .object objectClass :: stack⟩
      ⟨locals, ofDescriptor param :: stack⟩ := by
  unfold Insn.unbox
  split
  · rename_i p hp
    obtain rfl := eq_descriptor hp
    obtain ⟨hclosing, hvoid⟩ := not_closing_descriptor p
    refine (runs_checkcast p.wrapper _).append (Frame.runs_singleton fun id => ?_)
    have hcall := @execute_call h m locals stack Opcode.invokevirtual
      ⟨p.wrapper, p.unboxMethod, "()" ++ p.descriptor⟩ false _ [.object p.wrapper] rfl (by decide)
      (PlannedSite.parse_unbox p) hclosing rfl id
    rwa [returned, if_neg hvoid] at hcall
  · rename_i hprimitive
    cases htyped with
    | primitive hp => rw [hprimitive] at hp; cases hp
    | @reference name hname =>
      rw [hname, ofDescriptor_of_className? hname]
      dsimp only
      split_ifs with hobject
      · rw [hobject]
        exact Frame.runs_nil _ _
      · exact runs_checkcast name _

theorem runs_element {var : UInt16} (hvar : locals[var.toNat]? = some objectArray) {param : String}
    (htyped : Descriptor.Typed param) (index : Nat) :
    Frame.Runs (domain h m) (Insn.element var index param) ⟨locals, stack⟩
      ⟨locals, ofDescriptor param :: stack⟩ :=
  (((runs_aload hvar).append (runs_pushInt _)).append (runs_aaload .int)).append (runs_unbox htyped)

/-- All arguments come on top of the stack, each with the type of its parameter. -/
theorem runs_elements {var : UInt16} (hvar : locals[var.toNat]? = some objectArray) {params : List String}
    (htyped : ∀ param ∈ params, Descriptor.Typed param) :
    Frame.Runs (domain h m) (Insn.elements var params) ⟨locals, stack⟩
      ⟨locals, (params.map ofDescriptor).reverse ++ stack⟩ := by
  have hpairs : ∀ (pairs : List (String × Nat)) (stack : List VerificationType),
      (∀ pair ∈ pairs, Descriptor.Typed pair.1) →
      Frame.Runs (domain h m) (pairs.flatMap fun pair => Insn.element var pair.2 pair.1)
        ⟨locals, stack⟩ ⟨locals, ((pairs.map (·.1)).map ofDescriptor).reverse ++ stack⟩ := by
    intro pairs
    induction pairs with
    | nil => exact fun stack _ => Frame.runs_nil (domain h m) _
    | cons pair rest ih =>
      intro stack htyped
      have hfirst := @runs_element h m locals stack var hvar pair.1 (htyped pair List.mem_cons_self) pair.2
      have hrest := ih (ofDescriptor pair.1 :: stack) fun p hp => htyped p (List.mem_cons_of_mem _ hp)
      rw [List.flatMap_cons, List.map_cons, List.map_cons, List.reverse_cons, List.append_assoc]
      exact hfirst.append hrest
  have hall := hpairs (params.zip (List.range params.length)) stack fun pair hpair =>
    htyped pair.1 (List.of_mem_zip hpair).1
  rw [List.map_fst_zip (Nat.le_of_eq List.length_range.symm)] at hall
  exact hall

/-- What stands for a result as an object: nothing for `void`, and the wrapper of a primitive value. -/
def boxed (ret : String) : VerificationType :=
  if ret = "V" then null
  else
    match Primitive.ofDescriptor? ret with
    | some p => object p.wrapper
    | none => ofDescriptor ret

def isReference : VerificationType → Bool
  | null => true
  | object _ => true
  | _ => false

theorem isReference_boxed {ret : String} (h : ret = "V" ∨ ret ≠ "V" ∧ Descriptor.Typed ret) :
    (boxed ret).isReference = true ∧ (boxed ret).size = 1 := by
  unfold boxed
  rcases h with rfl | ⟨hvoid, htyped⟩
  · exact ⟨rfl, rfl⟩
  · rw [if_neg hvoid]
    split
    · exact ⟨rfl, rfl⟩
    · rename_i hprimitive
      cases htyped with
      | primitive hp => rw [hprimitive] at hp; cases hp
      | reference hname =>
        rw [ofDescriptor_of_className? hname]
        exact ⟨rfl, rfl⟩

/-- Boxed, the result is one object. -/
theorem runs_box (parsed : MethodDescriptor) :
    Frame.Runs (domain h m) (Insn.box parsed.ret) ⟨locals, returned parsed ++ stack⟩
      ⟨locals, boxed parsed.ret :: stack⟩ := by
  unfold Insn.box boxed returned
  by_cases hvoid : parsed.ret = "V"
  · rw [if_pos hvoid, if_pos hvoid, if_pos hvoid]
    exact runs_produce rfl rfl rfl fun _ => rfl
  · rw [if_neg hvoid, if_neg hvoid, if_neg hvoid]
    cases hprimitive : Primitive.ofDescriptor? parsed.ret with
    | none => exact Frame.runs_nil (domain h m) _
    | some p =>
      rw [eq_descriptor hprimitive]
      obtain ⟨hclosing, hother⟩ : ')' ∉ ("L" ++ p.wrapper ++ ";").toList ∧ "L" ++ p.wrapper ++ ";" ≠ "V" := by
        cases p <;> decide
      refine Frame.runs_singleton fun id => ?_
      have hcall := @execute_call h m locals stack Opcode.invokestatic
        ⟨p.wrapper, "valueOf", "(" ++ p.descriptor ++ ")" ++ Descriptor.ofClassName p.wrapper⟩ false _
        [ofDescriptor p.descriptor] rfl (by decide) (PlannedSite.parse_valueOf p) hclosing rfl id
      rwa [returned, if_neg hother, ← PlannedSite.ofClassName_wrapper, ofDescriptor_ofClassName] at hcall

end VerificationType

/-! ## The code of a planned call -/

namespace PlannedSite

open VerificationType

variable {h : Hierarchy} {m : MethodSig} {locals : Array VerificationType} {stack : List VerificationType}

/-- What the call finds of its receiver: nothing if it is static, and else an object of the owner. -/
def receiverTypes (p : PlannedSite) (receiver : VerificationType) : List VerificationType :=
  if p.resolved.isStatic then []
  else if p.resolved.owner = objectClass then [receiver]
  else [.object p.resolved.owner]

/-- Operands of the call, the first pushed first. -/
def operandTypes (p : PlannedSite) (receiver : VerificationType) : List VerificationType :=
  p.receiverTypes receiver ++ p.parsed.params.map ofDescriptor

/-- What stands ahead of the code at the call: the receiver on the stack, and the array on top of it or in the
local that it is taken from. An array that holds no arguments may have any type. -/
def Enters (p : PlannedSite) (fresh : UInt16) (receiver : VerificationType) (rest : List VerificationType)
    (f : Frame VerificationType) : Prop :=
  match p.arguments with
  | .none (some _) => f.stack = receiver :: rest
  | .none none => ∃ array, f.stack = array :: receiver :: rest
  | .inLocal var _ => f.stack = receiver :: rest ∧ f.locals[var.toNat]? = some objectArray
  | .stored => f.stack = objectArray :: receiver :: rest ∧ fresh.toNat < f.locals.size
  | .moved _ _ => f.stack = receiver :: rest ∧ f.locals[fresh.toNat]? = some objectArray

variable (p : PlannedSite)

theorem runs_receiverCode (receiver : VerificationType) :
    Frame.Runs (domain h m) p.resolved.receiverCode ⟨locals, receiver :: stack⟩
      ⟨locals, p.receiverTypes receiver ++ stack⟩ := by
  unfold ResolvedMethod.receiverCode receiverTypes
  split_ifs
  · exact runs_pop receiver
  · exact Frame.runs_nil (domain h m) _
  · exact runs_checkcast _ receiver

/-- Ahead of the call its operands come on the stack. -/
theorem runs_leadCode {var : Option UInt16} (htyped : ∀ param ∈ p.parsed.params, Descriptor.Typed param)
    (hnone : var = none → p.parsed.params = []) (hvar : ∀ v ∈ var, locals[v.toNat]? = some objectArray)
    (receiver : VerificationType) :
    Frame.Runs (domain h m) (p.leadCode var) ⟨locals, receiver :: stack⟩
      ⟨locals, (p.operandTypes receiver).reverse ++ stack⟩ := by
  have hreceiver : (p.receiverTypes receiver).reverse = p.receiverTypes receiver := by
    unfold receiverTypes
    split_ifs <;> rfl
  rw [operandTypes, List.reverse_append, hreceiver, List.append_assoc]
  refine (p.runs_receiverCode receiver).append ?_
  cases var with
  | none =>
    rw [hnone rfl]
    exact Frame.runs_nil (domain h m) _
  | some v => exact runs_elements (hvar v rfl) htyped

/-- The code at the call first drops or stores an array that is still on the stack. -/
theorem exists_runs_first (h : Hierarchy) (m : MethodSig) (a : SiteAnalysis) {fresh : UInt16} {receiver : VerificationType}
    {rest : List VerificationType} {f : Frame VerificationType} (henters : p.Enters fresh receiver rest f) :
    ∃ first var locals', (p.edit a fresh).atSite = first ++ p.callCode var ∧
      Frame.Runs (domain h m) first f ⟨locals', receiver :: rest⟩ ∧
      (var = none → ∃ code, p.arguments = .none code) ∧
      (∀ v ∈ var, locals'[v.toNat]? = some objectArray) ∧ (p.arguments ≠ .stored → locals' = f.locals) := by
  obtain ⟨locals, stack⟩ := f
  unfold edit
  unfold Enters at henters
  cases harguments : p.arguments with
  | none code =>
    cases code with
    | none =>
      rw [harguments] at henters
      obtain ⟨array, rfl⟩ := henters
      exact ⟨_, none, locals, rfl, runs_pop array, fun _ => ⟨_, rfl⟩, nofun, fun _ => rfl⟩
    | some code =>
      rw [harguments] at henters
      obtain rfl := henters
      exact ⟨[], none, locals, rfl, Frame.runs_nil _ _, fun _ => ⟨_, rfl⟩, nofun, fun _ => rfl⟩
  | inLocal var load =>
    rw [harguments] at henters
    obtain ⟨rfl, hvar⟩ := henters
    exact ⟨[], some var, locals, rfl, Frame.runs_nil _ _, nofun, fun v hv => Option.some.inj hv ▸ hvar, fun _ => rfl⟩
  | stored =>
    rw [harguments] at henters
    obtain ⟨rfl, hfresh⟩ := henters
    obtain ⟨locals', hruns, hvar⟩ := runs_astore hfresh
    exact ⟨_, some fresh, locals', rfl, hruns, nofun, fun v hv => Option.some.inj hv ▸ hvar, fun hne => absurd rfl hne⟩
  | moved code start =>
    rw [harguments] at henters
    obtain ⟨rfl, hvar⟩ := henters
    exact ⟨[], some fresh, locals, rfl, Frame.runs_nil _ _, nofun, fun v hv => Option.some.inj hv ▸ hvar,
      fun _ => rfl⟩

theorem effect_callOpcode (m : ResolvedMethod) : Opcode.effect m.callOpcode = .call ∧
    m.callOpcode ≠ Opcode.invokespecial ∧ (m.callOpcode = Opcode.invokestatic ↔ m.isStatic = true) := by
  unfold ResolvedMethod.callOpcode
  cases m.isStatic <;> cases m.ownerIsInterface <;> decide

/-- The code at a planned call runs whatever the parameters and the result of the method are, as long as no
parenthesis stands in the name of its result. The call finds its receiver and a value of the type of each
parameter, in their order, and what is left on the stack is one reference. -/
theorem runs_atSite {a : SiteAnalysis} {ctx : MethodContext} {spent : Std.HashSet Nat} {position : Nat}
    {frame : Frame ConstantValue} {p : PlannedSite} (hplan : a.plan ctx spent position frame = .ok p)
    (hclosing : ')' ∉ p.parsed.ret.toList) (h : Hierarchy) (m : MethodSig) {fresh : UInt16}
    {receiver : VerificationType} {rest : List VerificationType} {f : Frame VerificationType}
    (henters : p.Enters fresh receiver rest f) {nodes : List (NodeId × Insn)}
    (hnodes : nodes.map (·.2) = (p.edit a fresh).atSite) :
    ∃ front id back before after last, nodes = front ++ (id, p.directCall) :: back ∧
      Frame.executeAll (domain h m) front f = .ok before ∧
      before.stack = (p.operandTypes receiver).reverse ++ rest ∧
      Frame.step (domain h m) id p.directCall p.resolved.callOpcode before = .ok (p.operandTypes receiver, after) ∧
      Frame.execute (domain h m) id p.directCall before = .ok after ∧
      Frame.executeAll (domain h m) back after = .ok last ∧ Frame.executeAll (domain h m) nodes f = .ok last ∧
      last.stack = boxed p.parsed.ret :: rest ∧ (boxed p.parsed.ret).isReference = true ∧
      (boxed p.parsed.ret).size = 1 ∧ (p.arguments ≠ .stored → last.locals = f.locals) := by
  have hplanned := SiteAnalysis.planned_of_plan hplan
  obtain ⟨_, length, _, htarget, _⟩ := hplanned.known
  have hparse := (MethodContext.targets_of_target htarget).parses
  obtain ⟨htyped, hret⟩ := MethodDescriptor.typed_of_parse hparse
  obtain ⟨heffect, hspecial, hstatic⟩ := effect_callOpcode p.resolved
  obtain ⟨first, var, locals', hatSite, hfirst, hnone, hvar, hlocals⟩ := p.exists_runs_first h m a henters
  have hparams : var = none → p.parsed.params = [] := by
    intro hv
    obtain ⟨code, harguments⟩ := hnone hv
    exact hplanned.params_of_none harguments
  have hlead := hfirst.append (p.runs_leadCode htyped hparams hvar receiver)
  have hcount : (p.operandTypes receiver).length =
      p.parsed.params.length + if p.resolved.callOpcode = Opcode.invokestatic then 0 else 1 := by
    rw [operandTypes, List.length_append, List.length_map, Nat.add_comm, if_congr hstatic rfl rfl, receiverTypes]
    split_ifs <;> rfl
  rw [hatSite, callCode_eq, ← List.append_assoc] at hnodes
  obtain ⟨front, others, rfl, hfront, hothers⟩ := List.map_eq_append_iff.mp hnodes
  obtain ⟨⟨id, call⟩, back, rfl, rfl, hback⟩ := List.map_eq_cons_iff.mp hothers
  have hahead := hlead front hfront
  have hcall := @execute_call h m locals' rest _ p.resolved.member p.resolved.ownerIsInterface _ _ heffect hspecial
    hparse hclosing hcount id
  have hbehind := @runs_box h m locals' rest p.parsed back hback
  obtain ⟨href, hsize⟩ := isReference_boxed hret
  refine ⟨front, id, back, _, _, _, rfl, hahead, rfl, step_call heffect hparse hclosing hcount id, hcall, hbehind,
    ?_, rfl, href, hsize, hlocals⟩
  rw [Frame.executeAll, List.foldlM_append]
  exact bind_eq_ok.mpr ⟨_, hahead, bind_eq_ok.mpr ⟨_, hcall, hbehind⟩⟩

/-- The array stands in local 2, and the receiver of the static method is null. -/
theorem runs_atSite_detour : ∃ nodes front id back before after last,
    nodes.map (·.2) = (detourSite.edit detourAnalysis 2).atSite ∧
      nodes = front ++ (id, detourSite.directCall) :: back ∧ before.stack = [.object "java/lang/String", .int] ∧
      Frame.execute (domain calleeContext.hierarchy calleeContext.method) id detourSite.directCall before =
        .ok after ∧
      Frame.executeAll (domain calleeContext.hierarchy calleeContext.method) nodes
        ⟨#[.top, .int, objectArray], [.null, .int]⟩ = .ok last ∧ last.stack = [.null, .int] := by
  have hnodes : ((detourSite.edit detourAnalysis 2).atSite.map fun insn => (NodeId.mk 25, insn)).map (·.2) =
      (detourSite.edit detourAnalysis 2).atSite := by
    rw [List.map_map]
    exact List.map_id _
  have henters : detourSite.Enters 2 .null [.int] ⟨#[.top, .int, objectArray], [.null, .int]⟩ := ⟨rfl, rfl⟩
  obtain ⟨front, id, back, before, after, last, hsplit, _, hbefore, _, hcall, _, hall, hlast, _⟩ :=
    runs_atSite (detourSite_plan (by simp : ∀ p, (∅ : Std.HashSet Nat).contains p = false)) (by decide)
      calleeContext.hierarchy calleeContext.method henters hnodes
  exact ⟨_, front, id, back, before, after, last, hnodes, hsplit, hbefore, hcall, hall, hlast⟩

end PlannedSite

end DirectCall
