import DirectCall.Proofs.Code.Rule
import DirectCall.Proofs.Frame.Settles
import DirectCall.Proofs.Hierarchy.Meaning
import DirectCall.Proofs.Verification.Join
import DirectCall.Verification.StackMap

/-!
# Stack maps are typings

The frames of a stack map are what a verifier checks: each instruction is executed on the frame ahead of
it, and what it hands on has to be assignable, slot by slot, to the frame at every successor and at every
handler. The limit of the stack is read off the frames ahead of instructions; it holds after them as well,
since a successor has slots of the same sizes, and an instruction without successors only takes from the
stack.
-/

namespace DirectCall

open Hierarchy (freeze)

namespace VerificationType

/-- A verifier takes a value of the first type for one of the second. -/
inductive AssignableTo (h : Hierarchy) : VerificationType → VerificationType → Prop where
  | refl (v : VerificationType) : AssignableTo h v v
  | top (v : VerificationType) : AssignableTo h v top
  | null (name : String) : AssignableTo h null (object name)
  | object {name above : String} (hsub : h.isSubtype above name = some true) :
      AssignableTo h (object name) (object above)

theorem Absorbs.assignableTo {table : ClassTable} {x v : VerificationType} (h : Absorbs table x v) :
    AssignableTo (freeze table) v x := by
  cases h with
  | refl => exact .refl _
  | top => exact .top _
  | null name => exact .null name
  | object hwidens => exact .object hwidens.isSubtype

theorem AssignableTo.size_eq {h : Hierarchy} {v x : VerificationType} (hvx : AssignableTo h v x)
    (hx : x ≠ VerificationType.top) : v.size = x.size := by
  cases hvx with
  | refl => rfl
  | top => exact absurd rfl hx
  | null => rfl
  | object => rfl

end VerificationType

namespace Frame

open VerificationType

/-- There is a frame at the position, and the given one can be used for it. -/
def UsableAt (h : Hierarchy) (frames : Frames VerificationType) (position : Nat)
    (f : Frame VerificationType) : Prop :=
  ∃ g, frames.getD position none = some g ∧ f.Rel (AssignableTo h) g

/-- An instruction leads from one frame to the other, which can be used at every successor; an
instruction that may raise an exception leaves a frame that can be used at every handler. -/
structure TypedAt (h : Hierarchy) (m : MethodSig) (flow : Flow) (frames : Frames VerificationType)
    (position : Nat) (before after : Frame VerificationType) : Prop where
  executes : before.execute (domain h m) (flow.idAt position) (flow.insnAt position) = .ok after
  continues : ∃ targets, flow.successors position = .ok targets ∧
    ∀ target ∈ targets, UsableAt h frames target after
  raises : (flow.insnAt position).isReal = true → ∀ edge ∈ flow.handlersAt position,
    UsableAt h frames edge.handler ⟨before.locals, [.object (edge.catchType.getD "java/lang/Throwable")]⟩

theorem Absorbs.usableAt {table : ClassTable} {frames : Frames VerificationType} {position : Nat}
    {f : Frame VerificationType} (h : Frame.Absorbs (VerificationType.Absorbs table) frames position f) :
    UsableAt (freeze table) frames position f := by
  obtain ⟨g, hg, hrel⟩ := h
  have hassignable := hrel.imp fun _ _ => VerificationType.Absorbs.assignableTo
  exact ⟨g, hg, hassignable.locals.flip, hassignable.stack.flip⟩

/-- What is closed is typed. -/
theorem ClosedAt.typedAt {table : ClassTable} {m : MethodSig} {flow : Flow}
    {frames : Frames VerificationType} {position : Nat} {before : Frame VerificationType}
    (h : ClosedAt (domain (freeze table) m) (VerificationType.Absorbs table) flow frames position before) :
    ∃ after, TypedAt (freeze table) m flow frames position before after := by
  obtain ⟨after, hafter⟩ := h.executes
  obtain ⟨targets, htargets⟩ := h.continues
  refine ⟨after, hafter, ⟨targets, htargets, fun target htarget => ?_⟩, fun hreal edge hedge => ?_⟩
  · obtain ⟨g, hg, habsorbs⟩ := h.absorbed (.next target) ⟨targets, htargets, htarget⟩
    obtain rfl := Except.ok.inj (hafter.symm.trans hg)
    exact habsorbs.usableAt
  · obtain ⟨g, hg, habsorbs⟩ := h.absorbed (.raise edge) ⟨hreal, hedge⟩
    obtain rfl := Except.ok.inj hg
    exact habsorbs.usableAt

/-! ## Sizes of stacks -/

section Slots

variable {h : Hierarchy} {m : MethodSig} {flow : Flow} {before after : Frame VerificationType}

theorem Rel.stackSlots_eq {f g : Frame VerificationType} (hrel : f.Rel (AssignableTo h) g)
    (htop : VerificationType.top ∉ g.stack) :
    f.stackSlots (domain h m) = g.stackSlots (domain h m) := by
  have hslots : ∀ {vs xs : List VerificationType}, List.Forall₂ (AssignableTo h) vs xs →
      VerificationType.top ∉ xs →
        vs.foldr (fun v slots => v.size + slots) 0 = xs.foldr (fun v slots => v.size + slots) 0 := by
    intro vs xs hall htop
    induction hall with
    | nil => rfl
    | cons hhead _ ih =>
      obtain ⟨hx, hrest⟩ := not_or.mp fun hmem => htop (List.mem_cons.mpr hmem)
      rw [List.foldr_cons, List.foldr_cons, hhead.size_eq (Ne.symm hx), ih hrest]
  exact hslots hrel.stack htop

theorem effect_of_ends : ∀ code : UInt8,
    (Opcode.between Opcode.ireturn Opcode.returnVoid code || code == Opcode.athrow) = true →
      Opcode.effect code = .nothing ∨ Opcode.effect code = .unary false := by
  apply Code.forall_byte
  decide +kernel

/-- An instruction with which control ends takes from the stack, if anything. -/
theorem stackSlots_le_of_ends {id : NodeId} {insn : Insn} (hends : insn.endsFlow = true)
    (htargets : insn.targets = []) (hafter : before.execute (domain h m) id insn = .ok after) :
    after.stackSlots (domain h m) ≤ before.stackSlots (domain h m) := by
  cases insn with
  | op code =>
    obtain ⟨s, hs, hafter⟩ := bind_eq_ok.mp hafter
    -- Only the call of a constructor refines.
    obtain rfl : s.2 = after := Except.ok.inj hafter
    unfold step at hs
    rcases effect_of_ends code hends with heffect | heffect
    · rw [heffect] at hs
      obtain rfl := Except.ok.inj hs
      exact Nat.le_refl _
    · rw [heffect] at hs
      obtain ⟨a, rest, hstack, rfl⟩ := stepUnary_eq_ok.mp hs
      rw [stackSlots, stackSlots, hstack]
      exact Nat.le_add_left _ _
  | var code _ =>
    obtain rfl : code = Opcode.ret := by simpa [Insn.endsFlow] using hends
    cases hafter
  | jump => cases htargets
  | tableSwitch => cases htargets
  | lookupSwitch => cases htargets
  | _ => cases hends

theorem ends_of_successors {position : Nat} (hnone : flow.successors position = .ok []) :
    (flow.insnAt position).endsFlow = true ∧ (flow.insnAt position).targets = [] := by
  obtain ⟨jumps, hjumps, hnone⟩ := bind_eq_ok.mp hnone
  split_ifs at hnone with hends hnext
  · obtain rfl := Except.ok.inj hnone
    exact ⟨hends, List.forall₂_nil_right_iff.mp (mapM_eq_ok.mp hjumps)⟩
  · cases List.append_ne_nil_of_right_ne_nil jumps (List.cons_ne_nil _ _) (Except.ok.inj hnone)

/-- A bound of the stacks ahead of instructions is one of the stacks after them. -/
theorem TypedAt.stackSlots_le {frames : Frames VerificationType} {position bound : Nat}
    (htyped : TypedAt h m flow frames position before after)
    (htop : ∀ p f, frames.getD p none = some f → VerificationType.top ∉ f.stack)
    (hbefore : frames.getD position none = some before)
    (hbound : ∀ p f, frames.getD p none = some f → f.stackSlots (domain h m) ≤ bound) :
    after.stackSlots (domain h m) ≤ bound := by
  obtain ⟨targets, htargets, husable⟩ := htyped.continues
  cases targets with
  | nil =>
    obtain ⟨hends, hnone⟩ := ends_of_successors htargets
    exact (stackSlots_le_of_ends hends hnone htyped.executes).trans (hbound position before hbefore)
  | cons target _ =>
    obtain ⟨g, hg, hrel⟩ := husable target List.mem_cons_self
    rw [hrel.stackSlots_eq (htop target g hg)]
    exact hbound target g hg

end Slots

end Frame

namespace StackMap

open VerificationType

theorem mem_of_getD {frames : Frame.Frames VerificationType} {position : Nat}
    {f : Frame VerificationType} (hf : frames.getD position none = some f) : some f ∈ frames := by
  rw [Array.getD_eq_getD_getElem?] at hf
  cases hget : frames[position]? with
  | none => simp [hget] at hf
  | some g =>
    obtain rfl : g = some f := by simpa [hget] using hf
    exact Array.mem_of_getElem? hget

/-- Going through frames, the depth never falls, and it comes to the size of each stack. -/
theorem le_foldl_depth (d : Domain VerificationType) (all : List (Option (Frame VerificationType))) (n : Nat) :
    n ≤ all.foldl (fun deepest f => max deepest ((f.map (·.stackSlots d)).getD 0)) n ∧
      ∀ f, some f ∈ all →
        f.stackSlots d ≤ all.foldl (fun deepest f => max deepest ((f.map (·.stackSlots d)).getD 0)) n := by
  induction all generalizing n with
  | nil => exact ⟨Nat.le_refl n, nofun⟩
  | cons g all ih =>
    obtain ⟨hle, hmem⟩ := ih (max n ((g.map (·.stackSlots d)).getD 0))
    refine ⟨(Nat.le_max_left _ _).trans hle, fun f h => ?_⟩
    rcases List.mem_cons.mp h with rfl | h
    · exact (Nat.le_max_right _ _).trans hle
    · exact hmem f h

/-- The limit bounds every stack. -/
theorem stackSlots_le_depth {d : Domain VerificationType} {frames : Frame.Frames VerificationType}
    {position : Nat} {f : Frame VerificationType} (hf : frames.getD position none = some f) :
    f.stackSlots d ≤ depth d frames := by
  rw [depth, ← Array.foldl_toList]
  exact (le_foldl_depth d frames.toList 0).2 f (Array.mem_toList_iff.mpr (mem_of_getD hf))

theorem maxStack_of_compute {h : Hierarchy} {m : MethodSig} {body : Body} {map : StackMap}
    (hmap : compute h m body = .ok map) : ∃ maxLocals frames, requiredLocals m body = .ok maxLocals ∧
      Frame.analyze (domain h m) m { body with maxLocals := maxLocals } = .ok frames ∧
        map.maxStack.toNat = depth (domain h m) frames := by
  obtain ⟨maxLocals, hlocals, hmap⟩ := bind_eq_ok.mp hmap
  obtain ⟨frames, hframes, hmap⟩ := bind_eq_ok.mp hmap
  obtain ⟨needed, _, hmap⟩ := bind_eq_ok.mp hmap
  refine ⟨maxLocals, frames, hlocals, hframes, ?_⟩
  split_ifs at hmap with hdepth
  obtain rfl := Except.ok.inj hmap
  rw [Nat.toUInt16_eq, UInt16.toNat_ofNat', Nat.mod_eq_of_lt (by omega)]

/-- The frames that a stack map is made of type the body, provided that interfaces are named as
interfaces; and no stack exceeds the limit of the map, provided that no frame has an unusable value on
its stack. -/
theorem frames_typed {table : ClassTable} (himplemented : table.Implemented) {m : MethodSig} {body : Body}
    {maxLocals : UInt16} (hlocals : requiredLocals m body = .ok maxLocals)
    {frames : Frame.Frames VerificationType}
    (hframes : Frame.analyze (domain (freeze table) m) m { body with maxLocals := maxLocals } = .ok frames) :
    ∃ flow, Flow.ofBody body = .ok flow ∧ ∀ position, flow.Reaches position →
      ∃ before after, frames.getD position none = some before ∧
        Frame.TypedAt (freeze table) m flow frames position before after ∧
          ∀ map, compute (freeze table) m body = .ok map →
            (∀ p f, frames.getD p none = some f → VerificationType.top ∉ f.stack) →
              after.stackSlots (domain (freeze table) m) ≤ map.maxStack.toNat := by
  obtain ⟨flow, _, hflow, _, hclosed⟩ := Frame.analyze_absorbs (joinAbsorbs himplemented m) hframes
  refine ⟨flow, hflow, fun position hreaches => ?_⟩
  obtain ⟨before, hbefore⟩ :=
    Option.isSome_iff_exists.mp ((Frame.isSome_iff_reaches hframes hflow position).mpr hreaches)
  obtain ⟨after, htyped⟩ := (hclosed.closedAt position before hbefore).typedAt
  refine ⟨before, after, hbefore, htyped, fun map hmap htop => ?_⟩
  obtain ⟨maxLocals', frames', hlocals', hframes', hdepth⟩ := maxStack_of_compute hmap
  obtain rfl := Except.ok.inj (hlocals.symm.trans hlocals')
  obtain rfl := Except.ok.inj (hframes.symm.trans hframes')
  rw [hdepth]
  exact htyped.stackSlots_le htop hbefore fun _ _ hf => stackSlots_le_depth hf

/-! ## Two arrays that meet

An array of numbers and an array of arrays have only the root class in common. -/

/-- A static method without parameters. -/
def arraysSig : MethodSig := ⟨"a/A", "m", "()V", 0x0008⟩

/-- The loop starts at position 2. The arrays are made ahead of it and in it, the second one under a
handler. -/
def arraysBody : Body where
  insns := InsnList.ofInsns #[
    .op 0x03, .newArray 10, .label, .op Opcode.pop, .op 0x03,
    .type Opcode.anewarray 0 "[I", .jump Opcode.goto ⟨2⟩, .label, .op Opcode.athrow]
  regions := [⟨⟨4⟩, ⟨6⟩, ⟨7⟩, none⟩]
  locals := []
  maxStack := 1
  maxLocals := 0

def arraysFrames : Frame.Frames VerificationType :=
  let meeting := some ⟨#[], [.object objectClass]⟩
  let caught := some ⟨#[], [.object "java/lang/Throwable"]⟩
  #[some ⟨#[], []⟩, some ⟨#[], [.int]⟩, meeting, meeting, some ⟨#[], []⟩, some ⟨#[], [.int]⟩,
    some ⟨#[], [.object "[[I"]⟩, caught, caught]

theorem size_shapes : (freeze ClassTable.shapes).size = 4 := by
  show ClassTable.shapes.size = 4
  simp [ClassTable.shapes, ClassTable.ofHeaders, ClassTable.add, ClassTable.objectHeader,
    ClassTable.shapeHeader, ClassTable.baseHeader, ClassTable.roundHeader, objectClass, Except.toOption,
    Std.HashMap.size_insert]

/-- Only joins of classes look into the hierarchy. -/
theorem domain_shapes : domain (freeze ClassTable.shapes) arraysSig = { domain (freeze ∅) arraysSig with
    join := join (freeze ClassTable.shapes), height := fun brackets => 2 * brackets + 7 } := by
  rw [domain, size_shapes]
  rfl

theorem arrays_typed : ClassTable.shapes.Implemented ∧ requiredLocals arraysSig arraysBody = .ok 0 ∧
    Frame.analyze (domain (freeze ClassTable.shapes) arraysSig) arraysSig arraysBody = .ok arraysFrames ∧
      ∃ map, compute (freeze ClassTable.shapes) arraysSig arraysBody = .ok map ∧
        ∃ flow, Flow.ofBody arraysBody = .ok flow ∧ ∀ position, flow.Reaches position →
          ∃ before after, arraysFrames.getD position none = some before ∧
            Frame.TypedAt (freeze ClassTable.shapes) arraysSig flow arraysFrames position before after ∧
              after.stackSlots (domain (freeze ClassTable.shapes) arraysSig) ≤ map.maxStack.toNat := by
  have hlocals : (requiredLocals arraysSig arraysBody).toOption = some 0 := by decide +kernel
  have hframes : (Frame.analyze (domain (freeze ClassTable.shapes) arraysSig) arraysSig
      arraysBody).toOption = some arraysFrames := by
    rw [domain_shapes]
    decide +kernel
  have hmap : (compute (freeze ClassTable.shapes) arraysSig arraysBody).toOption.isSome = true := by
    unfold compute
    rw [domain_shapes]
    decide +kernel
  have htop : ∀ g ∈ arraysFrames, ∀ f ∈ g, VerificationType.top ∉ f.stack := by decide
  have himplemented : ClassTable.shapes.Implemented := ClassTable.shapes_regular.implemented
  obtain ⟨flow, hflow, htyped⟩ :=
    frames_typed himplemented (ok_of_toOption hlocals) (ok_of_toOption hframes)
  refine ⟨himplemented, ok_of_toOption hlocals, ok_of_toOption hframes, _, eq_ok_get hmap, flow, hflow, ?_⟩
  intro position hreaches
  obtain ⟨before, after, hbefore, hat, hstack⟩ := htyped position hreaches
  exact ⟨before, after, hbefore, hat,
    hstack _ (eq_ok_get hmap) fun _ f hf => htop _ (mem_of_getD hf) f rfl⟩

end StackMap

end DirectCall
