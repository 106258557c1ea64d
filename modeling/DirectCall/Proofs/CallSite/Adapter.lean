import DirectCall.Proofs.CallSite.Planning

/-!
# The code of a direct call

What is known of a method that may be called directly (`targets_of_target`), and what the code around
such a call is made of: around the call stand casts and calls that convert primitive values
(`mem_callCode`), and none of these names the method itself (`countP_callCode`). What an edit removes,
moves and puts in is read off its plan.
-/

namespace DirectCall

/-! ## The method -/

/-- A method that a look-up finds and that may be called with the elements of an array of the length. -/
structure MethodContext.Targets (ctx : MethodContext) (m : MethodLookup) (array : Option ConstantValue)
    (resolved : ResolvedMethod) (parsed : MethodDescriptor) (length : Int32) : Prop where
  plain : m.methodName.startsWith "<" = false
  resolves : ctx.resolve m = .ok resolved
  parses : MethodDescriptor.parse resolved.descriptor = .ok parsed
  array : ∃ site component slots, array = some (.array site component length slots)
  /-- The array has an element for each parameter. -/
  length : length.toInt = parsed.params.length
  owner : ctx.canReference resolved.owner = true
  version : resolved.isStatic = true → resolved.ownerIsInterface = true → 52 ≤ ctx.majorVersion

theorem MethodContext.targets_of_target {ctx : MethodContext} {m : MethodLookup}
    {array : Option ConstantValue} {resolved : ResolvedMethod} {parsed : MethodDescriptor}
    {length : Int32} (h : ctx.target m array = .ok (resolved, parsed, length)) :
    ctx.Targets m array resolved parsed length := by
  have hthrow : ∀ {α : Type} {r : Refusal} {x : α}, (throw r : Except Refusal α) ≠ .ok x := by
    simp [throw, throwThe, MonadExceptOf.throw]
  unfold target at h
  by_cases hname : m.methodName.startsWith "<" = true
  · rw [if_pos hname] at h
    obtain ⟨_, h, _⟩ := bind_eq_ok.mp h
    exact absurd h hthrow
  rw [if_neg hname] at h
  obtain ⟨found, hresolve, h⟩ := bind_eq_ok.mp h
  split at h
  · rename_i site component count slots
    split at h
    · exact absurd h hthrow
    · rename_i descriptor hparse
      split_ifs at h with hlength howner hversion
      · cases h
        refine ⟨by simpa using hname, hresolve, hparse, ⟨_, _, _, rfl⟩, not_not.mp hlength,
          by simpa using howner, fun hstatic hinterface => ?_⟩
        simpa [hstatic, hinterface] using hversion
  · exact absurd h hthrow

/-- A look-up leads to one method only. -/
theorem MethodContext.Targets.unique {ctx : MethodContext} {m : MethodLookup}
    {array array' : Option ConstantValue} {resolved resolved' : ResolvedMethod}
    {parsed parsed' : MethodDescriptor} {length length' : Int32}
    (h : ctx.Targets m array resolved parsed length)
    (h' : ctx.Targets m array' resolved' parsed' length') : resolved = resolved' ∧ parsed = parsed' := by
  obtain rfl := Except.ok.inj (h.resolves.symm.trans h'.resolves)
  exact ⟨rfl, Except.ok.inj (h.parses.symm.trans h'.parses)⟩

/-! ## The code around the call -/

namespace Insn

theorem mem_unbox {param : String} {insn : Insn} (h : insn ∈ unbox param) :
    (∃ p, Primitive.ofDescriptor? param = some p ∧
        (insn = ofClass Opcode.checkcast p.wrapper ∨
          insn = call Opcode.invokevirtual ⟨p.wrapper, p.unboxMethod, "()" ++ p.descriptor⟩ false)) ∨
      ∃ className, Primitive.ofDescriptor? param = none ∧
        Descriptor.className? param = some className ∧ className ≠ objectClass ∧
          insn = ofClass Opcode.checkcast className := by
  unfold unbox at h
  split at h
  · rename_i p hp
    exact .inl ⟨p, hp, by simpa using h⟩
  · rename_i hp
    split at h
    · rename_i className hclass
      split_ifs at h with hobject
      · simp at h
      · exact .inr ⟨className, hp, hclass, hobject, List.mem_singleton.mp h⟩
    · simp at h

theorem mem_box {ret : String} {insn : Insn} (h : insn ∈ box ret) :
    insn = op Opcode.aconstNull ∨ ∃ p, Primitive.ofDescriptor? ret = some p ∧
      insn = call Opcode.invokestatic
        ⟨p.wrapper, "valueOf", "(" ++ p.descriptor ++ ")" ++ Descriptor.ofClassName p.wrapper⟩
          false := by
  unfold box at h
  split_ifs at h with hvoid
  · exact .inl (List.mem_singleton.mp h)
  · split at h
    · rename_i p hp
      exact .inr ⟨p, hp, List.mem_singleton.mp h⟩
    · simp at h

theorem mem_elements {var : UInt16} {params : List String} {insn : Insn}
    (h : insn ∈ elements var params) :
    (∃ index : Nat, insn = .var Opcode.aload var ∨ insn = pushInt (Int32.ofNat index) ∨
        insn = op Opcode.aaload) ∨ ∃ param ∈ params, insn ∈ unbox param := by
  obtain ⟨⟨param, index⟩, hparam, h⟩ := List.mem_flatMap.mp h
  simp only [element, List.mem_append, List.mem_cons, List.not_mem_nil, or_false] at h
  rcases h with h | h
  · exact .inl ⟨index, h⟩
  · exact .inr ⟨param, (List.of_mem_zip hparam).1, h⟩

/-- An instruction that names neither a method nor a class. -/
def IsPlain : Insn → Prop
  | op _ => True
  | push _ _ => True
  | var _ _ => True
  | ldc _ (.int _) => True
  | _ => False

theorem isPlain_pushInt (value : Int32) : (pushInt value).IsPlain := by
  unfold pushInt
  split_ifs <;> trivial

end Insn

/-- An instruction of the code around a direct call. -/
inductive PlannedSite.Adapts (p : PlannedSite) : Insn → Prop where
  | plain {insn : Insn} : insn.IsPlain → p.Adapts insn
  | receiver : p.resolved.isStatic = false → p.resolved.owner ≠ objectClass →
      p.Adapts (.ofClass Opcode.checkcast p.resolved.owner)
  | argument {param : String} {insn : Insn} : param ∈ p.parsed.params → insn ∈ Insn.unbox param →
      p.Adapts insn
  | result {insn : Insn} : insn ∈ Insn.box p.parsed.ret → p.Adapts insn

namespace PlannedSite

variable {p : PlannedSite} {var : Option UInt16}

/-- The code ahead of the call. -/
def leadCode (p : PlannedSite) (var : Option UInt16) : List Insn :=
  p.resolved.receiverCode ++ match var with
    | some var => Insn.elements var p.parsed.params
    | none => []

/-- The call itself. -/
def directCall (p : PlannedSite) : Insn :=
  .call p.resolved.callOpcode p.resolved.member p.resolved.ownerIsInterface

theorem callCode_eq (p : PlannedSite) (var : Option UInt16) :
    p.callCode var = p.leadCode var ++ p.directCall :: Insn.box p.parsed.ret := by
  cases var <;> simp [callCode, leadCode, directCall]

theorem adapts_leadCode {insn : Insn} (h : insn ∈ p.leadCode var) : p.Adapts insn := by
  rcases List.mem_append.mp h with h | h
  · unfold ResolvedMethod.receiverCode at h
    split_ifs at h with hstatic howner
    · exact .plain (List.mem_singleton.mp h ▸ trivial)
    · simp at h
    · exact List.mem_singleton.mp h ▸ .receiver (by simpa using hstatic) howner
  · split at h
    · rcases Insn.mem_elements h with ⟨index, rfl | rfl | rfl⟩ | ⟨param, hparam, h⟩
      · exact .plain trivial
      · exact .plain (Insn.isPlain_pushInt _)
      · exact .plain trivial
      · exact .argument hparam h
    · simp at h

/-- The code of a call: the call, and what adapts its operands and its result. -/
theorem mem_callCode {insn : Insn} (h : insn ∈ p.callCode var) :
    insn = p.directCall ∨ p.Adapts insn := by
  rw [callCode_eq] at h
  rcases List.mem_append.mp h with h | h
  · exact .inr (adapts_leadCode h)
  · exact (List.mem_cons.mp h).imp_right .result

theorem directCall_mem_callCode (p : PlannedSite) (var : Option UInt16) :
    p.directCall ∈ p.callCode var := by
  rw [callCode_eq]
  simp

/-! ## Which methods the code calls -/

theorem parse_unbox (k : Primitive) :
    MethodDescriptor.parse ("()" ++ k.descriptor) = .ok ⟨[], k.descriptor⟩ := by
  cases k <;> decide

theorem ofClassName_wrapper (k : Primitive) :
    Descriptor.ofClassName k.wrapper = "L" ++ k.wrapper ++ ";" := by
  cases k <;> simp [Descriptor.ofClassName, Descriptor.isArray, Primitive.wrapper]

theorem parse_valueOf (k : Primitive) :
    MethodDescriptor.parse ("(" ++ k.descriptor ++ ")" ++ Descriptor.ofClassName k.wrapper) =
      .ok ⟨[k.descriptor], "L" ++ k.wrapper ++ ";"⟩ := by
  rw [ofClassName_wrapper]
  cases k <;> decide

/-- The conversions around a call are other methods than the called one: they take no parameter, where
a parameter of it is converted, or give an object, where it gives a primitive value. -/
theorem Adapts.other (hparse : MethodDescriptor.parse p.resolved.descriptor = .ok p.parsed)
    {insn : Insn} (h : p.Adapts insn) : insn.invoked? ≠ some p.resolved.member := by
  intro hinvoked
  cases h with
  | plain hplain => cases insn <;> simp_all [Insn.IsPlain, Insn.invoked?]
  | receiver => simp [Insn.ofClass, Insn.invoked?] at hinvoked
  | argument hparam hmem =>
    rcases Insn.mem_unbox hmem with ⟨k, _, rfl | rfl⟩ | ⟨className, _, _, _, rfl⟩
    · simp [Insn.ofClass, Insn.invoked?] at hinvoked
    · simp only [Insn.call, Insn.invoked?, Option.some.injEq, ResolvedMethod.member,
        MemberRef.mk.injEq] at hinvoked
      rw [← hinvoked.2.2, parse_unbox, Except.ok.injEq] at hparse
      rw [← hparse] at hparam
      simp at hparam
    · simp [Insn.ofClass, Insn.invoked?] at hinvoked
  | result hmem =>
    rcases Insn.mem_box hmem with rfl | ⟨k, hk, rfl⟩
    · simp [Insn.invoked?] at hinvoked
    · simp only [Insn.call, Insn.invoked?, Option.some.injEq, ResolvedMethod.member,
        MemberRef.mk.injEq] at hinvoked
      rw [← hinvoked.2.2, parse_valueOf, Except.ok.injEq] at hparse
      rw [← hparse] at hk
      revert hk
      cases k <;> decide

/-- The method is called once. -/
theorem countP_callCode (hparse : MethodDescriptor.parse p.resolved.descriptor = .ok p.parsed)
    (var : Option UInt16) :
    (p.callCode var).countP (fun insn => insn.invoked? = some p.resolved.member) = 1 := by
  have hlead : (p.leadCode var).countP (fun insn => insn.invoked? = some p.resolved.member) = 0 :=
    List.countP_eq_zero.mpr fun insn h => by simpa using (adapts_leadCode h).other hparse
  have hbox : (Insn.box p.parsed.ret).countP
      (fun insn => insn.invoked? = some p.resolved.member) = 0 :=
    List.countP_eq_zero.mpr fun insn h => by
      simpa using (Adapts.result (p := p) h).other hparse
  rw [callCode_eq, List.countP_append, List.countP_cons, hlead, hbox]
  simp [directCall, Insn.call, Insn.invoked?]

/-- No conversion is a call of `invoke`. -/
theorem Adapts.not_reflective {insn : Insn} (h : p.Adapts insn) : insn.isReflectiveInvoke = false := by
  cases h with
  | plain hplain => cases insn <;> simp_all [Insn.IsPlain, Insn.isReflectiveInvoke]
  | receiver => rfl
  | argument hparam hmem =>
    rcases Insn.mem_unbox hmem with ⟨k, _, rfl | rfl⟩ | ⟨className, _, _, _, rfl⟩
    · rfl
    · cases k <;> rfl
    · rfl
  | result hmem =>
    rcases Insn.mem_box hmem with rfl | ⟨k, _, rfl⟩
    · rfl
    · cases k <;> rfl

/-! ## The edit -/

variable (a : SiteAnalysis) (site : PlannedSite) (fresh : UInt16)

theorem edit_site : (site.edit a fresh).site = a.idAt site.position := by
  unfold edit
  split <;> rfl

variable {a site fresh}

/-- The code of the method object goes away, and that of an array which is not needed any more. -/
theorem mem_edit_remove {id : NodeId} :
    id ∈ (site.edit a fresh).remove ↔ id ∈ a.realIds site.methodCode ∨
      ∃ code, (site.arguments = .none (some code) ∨ ∃ var, site.arguments = .inLocal var code) ∧
        id ∈ a.realIds code := by
  unfold edit
  cases site.arguments with
  | none code => cases code <;> simp
  | inLocal var load => simp
  | stored => simp
  | moved code receiver => simp

/-- Only the code of an array moves. -/
theorem moved_of_edit {target : NodeId} {ids : List NodeId} {store : Insn}
    (h : (site.edit a fresh).move = some (target, ids, store)) :
    ∃ code receiver, site.arguments = .moved code receiver ∧ target = a.idAt receiver ∧
      ids = code.positions.map a.idAt ∧ store = .var Opcode.astore fresh := by
  unfold edit at h
  cases harguments : site.arguments with
  | moved code receiver =>
    simp only [harguments, Option.some.injEq, Prod.mk.injEq] at h
    obtain ⟨rfl, rfl, rfl⟩ := h
    exact ⟨code, receiver, rfl, rfl, rfl, rfl⟩
  | none code => cases code <;> simp [harguments] at h
  | inLocal var load => simp [harguments] at h
  | stored => simp [harguments] at h

variable (a site fresh)

theorem edit_atSite : ∃ first var, (site.edit a fresh).atSite = first ++ site.callCode var ∧
    (first = [] ∨ first = [.op Opcode.pop] ∨ ∃ fresh, first = [.var Opcode.astore fresh]) ∧
    (var = none → ∃ code, site.arguments = .none code) := by
  unfold edit
  cases site.arguments with
  | none code =>
    cases code with
    | none => exact ⟨[.op Opcode.pop], none, rfl, by simp, fun _ => ⟨none, rfl⟩⟩
    | some code => exact ⟨[], none, rfl, by simp, fun _ => ⟨some code, rfl⟩⟩
  | inLocal var load => exact ⟨[], some var, rfl, by simp, by simp⟩
  | stored => exact ⟨[.var Opcode.astore fresh], some fresh, rfl, by simp, by simp⟩
  | moved code receiver => exact ⟨[], some fresh, rfl, by simp, by simp⟩

end PlannedSite

end DirectCall
