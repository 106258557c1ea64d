import DirectCall.Proofs.CallSite.WellTyped
import DirectCall.Proofs.Frame.Kept
import DirectCall.Proofs.Frame.Walk

/-!
# Widths of the code at a call

Straight code turns the widths at the top of a stack into others, wherever it stands (`TurnsAll`). The code that takes
the place of a call of `invoke` turns those of the receiver, and of the array if it is left on the stack, into that of
one narrow value (`PlannedSite.turnsAll_atSite`).
-/

namespace DirectCall

/-! ## Straight code -/

namespace Frame

variable {V : Type} [DecidableEq V] {d : Domain V} {kept : SourceValue → Bool} {count : Nat}
  {known : Array SourceValue} {code code' : List Insn} {W W' X : List Nat}

/-- Wherever it stands, the instruction takes a stack that starts with some widths to one that starts with others,
and keeps what is known of the locals. -/
structure Turns (d : Domain V) (kept : SourceValue → Bool) (count : Nat) (known : Array SourceValue) (insn : Insn)
    (W W' : List Nat) : Prop where
  straight : insn.IsStraight
  execute : ∀ id f base, Keeps d kept count known (W ++ base) f →
    ∃ after, f.execute d id insn = .ok after ∧ Keeps d kept count known (W' ++ base) after

/-- Instructions that do so one after the other. -/
inductive TurnsAll (d : Domain V) (kept : SourceValue → Bool) (count : Nat) (known : Array SourceValue) :
    List Insn → List Nat → List Nat → Prop
  | nil (W : List Nat) : TurnsAll d kept count known [] W W
  | cons {insn : Insn} {code : List Insn} {W W' X : List Nat} : Turns d kept count known insn W W' →
      TurnsAll d kept count known code W' X → TurnsAll d kept count known (insn :: code) W X

theorem Turns.frame {insn : Insn} (h : Turns d kept count known insn W W') (X : List Nat) :
    Turns d kept count known insn (W ++ X) (W' ++ X) where
  straight := h.straight
  execute id f base hf := by
    rw [List.append_assoc] at hf ⊢
    exact h.execute id f _ hf

theorem TurnsAll.frame (h : TurnsAll d kept count known code W W') (X : List Nat) :
    TurnsAll d kept count known code (W ++ X) (W' ++ X) := by
  induction h with
  | nil W => exact .nil _
  | cons hfirst _ ih => exact .cons (hfirst.frame X) ih

theorem TurnsAll.append (h : TurnsAll d kept count known code W W')
    (h' : TurnsAll d kept count known code' W' X) : TurnsAll d kept count known (code ++ code') W X := by
  induction h with
  | nil W => exact h'
  | cons hfirst _ ih => exact .cons hfirst (ih h')

theorem Turns.single {insn : Insn} (h : Turns d kept count known insn W W') :
    TurnsAll d kept count known [insn] W W' :=
  .cons h (.nil _)

/-- Straight code passes stage after stage. -/
theorem TurnsAll.exists_stages (hd : d.Measured) (h : TurnsAll d kept count known code W W') {list : InsnList}
    {nodes : List NodeId} (hnodes : nodes.map list.get = code) {base : List Nat}
    {jumps : NodeId → Frame V → Prop} {raises next : Frame V → Prop}
    (hraises : ∀ stack f, Keeps d kept count known stack f → raises f)
    (hnext : ∀ f, Keeps d kept count known (W' ++ base) f → next f) :
    ∃ stages : List (Stage V), stages.map (·.1) = nodes ∧
      (∀ f, Keeps d kept count known (W ++ base) f → Lands stages next f) ∧
        Stage.PassesAll d list jumps raises stages next := by
  induction h generalizing nodes with
  | nil W =>
    rw [List.map_eq_nil_iff.mp hnodes]
    exact ⟨[], rfl, hnext, trivial⟩
  | @cons insn code W W' X hfirst _ ih =>
    obtain ⟨id, rest, rfl, rfl, hrest⟩ := List.map_eq_cons_iff.mp hnodes
    obtain ⟨stages, hids, hlands, hpasses⟩ := ih hrest hnext
    refine ⟨(id, Keeps d kept count known (W ++ base)) :: stages, by simp [hids], fun f hf => hf, ⟨?_, ?_, ?_⟩,
      hpasses⟩
    · exact Keeps.steady hd
    · intro f hf
      obtain ⟨after, hafter, hkeeps⟩ := hfirst.execute id f base hf
      refine ⟨after, hafter, fun target htarget => ?_, fun _ => hlands after hkeeps⟩
      rw [hfirst.straight.targets] at htarget
      cases htarget
    · exact fun _ f hf => hraises _ f hf

/-! ## The widths that instructions turn -/

section Turns

/-- What an instruction does to widths alone. -/
theorem turns_of_step (hd : d.Measured) {insn : Insn} {code : UInt8} (hcode : insn.opcode? = some code)
    (hstraight : insn.IsStraight)
    (hstep : ∀ (id : NodeId) (f : Frame V) (base : List Nat), f.stack.map d.size = W ++ base →
      ∃ operands stack, f.step d id insn code = .ok (operands, ⟨f.locals, stack⟩) ∧
        stack.map d.size = W' ++ base) : Turns d kept count known insn W W' where
  straight := hstraight
  execute id f base hf := by
    obtain ⟨operands, stack, hs, hstack⟩ := hstep id f base hf.stack
    obtain ⟨after, hafter, hsame⟩ := execute_of_step_widths hd hcode hs
    refine ⟨after, hafter, ?_, ?_, hf.locals.of_widths (forall₂_width.mp hsame.locals)⟩
    · rw [← forall₂_width.mp hsame.stack, hstack]
    · rw [← hsame.locals_size]
      exact hf.count

variable (kept count known)

theorem turns_pop (hd : d.Measured) (width : Nat) : Turns d kept count known (.op Opcode.pop) [width] [] := by
  refine turns_of_step hd rfl ⟨rfl, rfl⟩ fun id f base hf => ?_
  obtain ⟨v, rest, hstack, _, hrest⟩ := List.map_eq_cons_iff.mp hf
  exact ⟨_, _, pop_cons hstack, hrest⟩

theorem turns_unary (hd : d.Measured) {insn : Insn} {code : UInt8} (hcode : insn.opcode? = some code)
    (hstraight : insn.IsStraight) (heffect : Opcode.effect code = .unary true) (width : Nat) :
    Turns d kept count known insn [width] [Descriptor.size insn.result?] := by
  refine turns_of_step hd hcode hstraight fun id f base hf => ?_
  obtain ⟨v, rest, hstack, _, hrest⟩ := List.map_eq_cons_iff.mp hf
  refine ⟨[v], d.unary id insn v :: rest, ?_, by rw [List.map_cons, hd.unary, hrest]; rfl⟩
  simp only [step, heffect]
  exact stepUnary_eq_ok.mpr ⟨v, rest, hstack, rfl⟩

theorem turns_binary (hd : d.Measured) {insn : Insn} {code : UInt8} (hcode : insn.opcode? = some code)
    (hstraight : insn.IsStraight) (heffect : Opcode.effect code = .binary true) (first second : Nat) :
    Turns d kept count known insn [first, second] [Descriptor.size insn.result?] := by
  refine turns_of_step hd hcode hstraight fun id f base hf => ?_
  obtain ⟨v, rest, hstack, _, hrest⟩ := List.map_eq_cons_iff.mp hf
  obtain ⟨w, rest, rfl, _, hrest⟩ := List.map_eq_cons_iff.mp hrest
  refine ⟨[w, v], d.binary id insn w v :: rest, ?_, by rw [List.map_cons, hd.binary, hrest]; rfl⟩
  simp only [step, heffect]
  exact stepBinary_eq_ok.mpr ⟨w, v, rest, hstack, rfl⟩

theorem turns_produce (hd : d.Measured) {insn : Insn} {code : UInt8} (hcode : insn.opcode? = some code)
    (hstraight : insn.IsStraight) (heffect : Opcode.effect code = .produce) :
    Turns d kept count known insn [] [Descriptor.size insn.result?] := by
  refine turns_of_step hd hcode hstraight fun id f base hf => ⟨[], d.produce id insn :: f.stack, ?_, ?_⟩
  · simp only [step, heffect]
    rfl
  · rw [List.map_cons, hd.produce, hf]
    rfl

/-- What a call leaves. -/
def returnedWidths (parsed : MethodDescriptor) : List Nat :=
  if parsed.ret = "V" then [] else [Descriptor.size (some parsed.ret)]

theorem turns_call (hd : d.Measured) {code : UInt8} {member : MemberRef} {interface : Bool}
    {parsed : MethodDescriptor} (heffect : Opcode.effect code = .call)
    (hparse : MethodDescriptor.parse member.descriptor = .ok parsed) (hclosing : ')' ∉ parsed.ret.toList)
    (hoperands : W.length = parsed.params.length + if code = Opcode.invokestatic then 0 else 1) :
    Turns d kept count known (.call code member interface) W (returnedWidths parsed) := by
  refine turns_of_step hd rfl ⟨rfl, rfl⟩ fun id f base hf => ?_
  have hshape : callShape (.call code member interface) = .ok (W.length, parsed.ret != "V") := by
    rw [Insn.call, callShape, callShape.shape, hparse, hoperands]
  have hcount : W.length ≤ f.stack.length := by
    have hlength := congrArg List.length hf
    rw [List.length_map, List.length_append] at hlength
    omega
  have hrest : (f.stack.drop W.length).map d.size = base := by
    rw [List.map_drop, hf, List.drop_left]
  have hresult : Descriptor.size (Insn.call code member interface).result? = Descriptor.size (if parsed.ret = "V"
      then none else some parsed.ret) := by
    rw [Insn.call, Insn.result?, MethodDescriptor.resultOf?_of_parse hparse hclosing]
  refine ⟨(f.stack.take W.length).reverse, (pushIf ⟨f.locals, f.stack.drop W.length⟩ (parsed.ret != "V")
    (d.nary id (.call code member interface) (f.stack.take W.length).reverse)).stack, ?_, ?_⟩
  · simp only [step, heffect]
    refine bind_eq_ok.mpr ⟨_, hshape, stepNary_eq_ok.mpr ⟨hcount, ?_⟩⟩
    rw [pushIf]
    split_ifs <;> rfl
  · rw [pushIf, returnedWidths]
    by_cases hvoid : parsed.ret = "V"
    · rw [if_neg (by simp [hvoid]), if_pos hvoid]
      exact hrest
    · rw [if_pos (by simpa using hvoid), if_neg hvoid, push, List.map_cons, hd.nary, hresult, if_neg hvoid, hrest]
      rfl

/-- A local that is narrow: it is fresh, or what is known of it is kept. -/
def Narrow (kept : SourceValue → Bool) (count : Nat) (known : Array SourceValue) (var : Nat) : Prop :=
  var < count ∧ (known.size ≤ var ∨ ∃ v, known[var]? = some v ∧ kept v = true ∧ v.size = 1)

variable {kept count known}

omit [DecidableEq V] in
theorem Keeps.narrow {stack : List Nat} {f : Frame V} (h : Keeps d kept count known stack f) {var : Nat}
    (hvar : Narrow kept count known var) : ∃ w, f.locals[var]? = some w ∧ d.size w = 1 := by
  have hw := Array.getElem?_eq_getElem (h.count ▸ hvar.1)
  refine ⟨_, hw, ?_⟩
  rcases hvar.2 with hfresh | ⟨v, hv, hkept, hsize⟩
  · exact h.locals.fresh var _ hfresh hw
  · rw [h.locals.width var v _ hv hkept hw, hsize]

theorem turns_aload (hd : d.Measured) {var : UInt16} (hvar : Narrow kept count known var.toNat) :
    Turns d kept count known (.var Opcode.aload var) [] [1] where
  straight := ⟨rfl, rfl⟩
  execute id f base hf := by
    obtain ⟨w, hw, hsize⟩ := hf.narrow hvar
    have hs : f.step d id (.var Opcode.aload var) Opcode.aload =
        .ok ([], f.push (d.copy id (.var Opcode.aload var) w)) :=
      bind_eq_ok.mpr ⟨var.toNat, rfl, bind_eq_ok.mpr ⟨w, getLocal_eq_ok.mpr hw, rfl⟩⟩
    obtain ⟨after, hafter, hsame⟩ := execute_of_step_widths hd rfl hs
    refine ⟨after, hafter, ?_, ?_, hf.locals.of_widths (forall₂_width.mp hsame.locals)⟩
    · rw [← forall₂_width.mp hsame.stack, push, List.map_cons, hd.copy, hsize]
      exact congrArg (1 :: ·) hf.stack
    · rw [← hsame.locals_size]
      exact hf.count

/-- A store into a fresh local, if the last known one is not the first half of a kept value. -/
theorem turns_astore (hd : d.Measured) {var : UInt16} (hfresh : known.size ≤ var.toNat) (hvar : var.toNat < count)
    (hlast : ∀ v, known[known.size - 1]? = some v → v.size ≠ 2) :
    Turns d kept count known (.var Opcode.astore var) [1] [] where
  straight := ⟨rfl, rfl⟩
  execute id f base hf := by
    obtain ⟨v, rest, hstack, hsize, hrest⟩ := List.map_eq_cons_iff.mp hf.stack
    have hcopy : d.size (d.copy id (.var Opcode.astore var) v) = 1 := (hd.copy id _ v).trans hsize
    have hunset : d.size (d.ofDescriptor none) = 1 := hd.ofDescriptor none
    obtain ⟨g, hset⟩ : ∃ g, setLocal d ⟨f.locals, rest⟩ var.toNat (d.copy id (.var Opcode.astore var) v) = .ok g :=
      setLocal_ok_iff.mpr (by rw [hcopy, if_neg (by omega)]; exact hf.count ▸ hvar)
    have hget := getElem?_setLocal hset
    have hs : f.step d id (.var Opcode.astore var) Opcode.astore = .ok ([v], g) :=
      stepStore_eq_ok.mpr ⟨var.toNat, v, rest, g, rfl, hstack, hset, rfl⟩
    have hcount : g.locals.size = f.locals.size := setLocal_locals_size (f := ⟨f.locals, rest⟩) hset
    have hlocals : KeepsLocals d kept known g.locals := by
      refine ⟨hcount ▸ hf.locals.size, fun i u w hu hkept hw => ?_, fun i w hi hw => ?_⟩
      · have hlt := (Array.getElem?_eq_some_iff.mp hu).1
        rw [hget, if_neg (by omega), if_neg (by rw [hcopy]; omega)] at hw
        split_ifs at hw with hcutting
        · obtain ⟨hi, x, hx, hwide⟩ := hcutting
          rw [hf.locals.width i u x hu hkept hx] at hwide
          exact absurd hwide (hlast u (by rwa [show known.size - 1 = i by omega]))
        · exact hf.locals.width i u w hu hkept hw
      · rw [hget] at hw
        split_ifs at hw with hi' hwide hcutting
        · exact Option.some.inj hw ▸ hcopy
        · exact Option.some.inj hw ▸ hunset
        · exact Option.some.inj hw ▸ hunset
        · exact hf.locals.fresh i w hi hw
    obtain ⟨after, hafter, hsame⟩ := execute_of_step_widths hd rfl hs
    refine ⟨after, hafter, ?_, ?_, hlocals.of_widths (forall₂_width.mp hsame.locals)⟩
    · rw [← forall₂_width.mp hsame.stack, setLocal_stack hset]
      exact hrest
    · rw [← hsame.locals_size]
      exact hcount.trans hf.count

end Turns

end Frame

open Frame

namespace Descriptor

/-- Only primitive types are wide. -/
theorem size_of_not_primitive {d : String} (h : Primitive.ofDescriptor? d = none) : size (some d) = 1 := by
  rw [size, if_neg]
  intro hwide
  rw [isWide, Bool.or_eq_true, beq_iff_eq, beq_iff_eq] at hwide
  rcases hwide with rfl | rfl <;> exact absurd h (by decide)

end Descriptor

section Code

variable {V : Type} [DecidableEq V] {d : Domain V} (kept : SourceValue → Bool) (count : Nat)
  (known : Array SourceValue)

/-! ## Widths of the code around a call -/

theorem turns_checkcast (hd : d.Measured) (name : String) (width : Nat) :
    Turns d kept count known (.ofClass Opcode.checkcast name) [width] [1] := by
  have hturns : Turns d kept count known (.ofClass Opcode.checkcast name) [width] _ :=
    turns_unary kept count known hd rfl ⟨rfl, rfl⟩ (by decide) width
  have hsize : Descriptor.size (Insn.ofClass Opcode.checkcast name).result? = 1 := Descriptor.size_ofClassName name
  rwa [hsize] at hturns

theorem turns_pushInt (hd : d.Measured) (value : Int32) : Turns d kept count known (Insn.pushInt value) [] [1] := by
  have hproduce : ∀ {insn : Insn} {code : UInt8}, insn.opcode? = some code → insn.IsStraight →
      Opcode.effect code = .produce → Descriptor.size insn.result? = 1 → Turns d kept count known insn [] [1] := by
    intro insn code hcode hstraight heffect hsize
    exact hsize ▸ turns_produce kept count known hd hcode hstraight heffect
  unfold Insn.pushInt
  split_ifs with hsmall
  · obtain ⟨hlow, hhigh⟩ := hsmall
    rw [Int32.le_iff_toInt_le] at hlow hhigh
    have hcases : value.toInt = -1 ∨ value.toInt = 0 ∨ value.toInt = 1 ∨ value.toInt = 2 ∨ value.toInt = 3 ∨
        value.toInt = 4 ∨ value.toInt = 5 := by
      have : (-1 : Int32).toInt = -1 := rfl
      have : (5 : Int32).toInt = 5 := rfl
      omega
    rcases hcases with h | h | h | h | h | h | h <;> rw [h] <;> exact hproduce rfl ⟨rfl, rfl⟩ (by decide) rfl
  · exact hproduce rfl ⟨rfl, rfl⟩ (by decide) rfl
  · exact hproduce rfl ⟨rfl, rfl⟩ (by decide) rfl
  · exact hproduce rfl ⟨rfl, rfl⟩ rfl rfl

theorem turnsAll_unbox (hd : d.Measured) (param : String) :
    TurnsAll d kept count known (Insn.unbox param) [1] [Descriptor.size (some param)] := by
  unfold Insn.unbox
  split
  · rename_i p hp
    obtain rfl := VerificationType.eq_descriptor hp
    obtain ⟨hclosing, hvoid⟩ := VerificationType.not_closing_descriptor p
    have hcall : Turns d kept count known (.call Opcode.invokevirtual ⟨p.wrapper, p.unboxMethod,
        "()" ++ p.descriptor⟩ false) [1] _ :=
      turns_call kept count known hd (by decide) (PlannedSite.parse_unbox p) hclosing rfl
    rw [returnedWidths, if_neg hvoid] at hcall
    exact .cons (turns_checkcast kept count known hd p.wrapper 1) hcall.single
  · rename_i hprimitive
    rw [Descriptor.size_of_not_primitive hprimitive]
    split
    · split_ifs
      · exact .nil _
      · exact (turns_checkcast kept count known hd _ 1).single
    · exact .nil _

theorem turnsAll_element (hd : d.Measured) {var : UInt16} (hvar : Narrow kept count known var.toNat) (index : Nat)
    (param : String) :
    TurnsAll d kept count known (Insn.element var index param) [] [Descriptor.size (some param)] := by
  refine TurnsAll.append ?_ (turnsAll_unbox kept count known hd param)
  exact .cons (turns_aload hd hvar) (.cons ((turns_pushInt kept count known hd _).frame [1])
    (turns_binary kept count known hd rfl ⟨rfl, rfl⟩ (by decide) 1 1).single)

theorem turnsAll_elements (hd : d.Measured) {var : UInt16} (hvar : Narrow kept count known var.toNat)
    (params : List String) :
    TurnsAll d kept count known (Insn.elements var params) []
      (params.map fun param => Descriptor.size (some param)).reverse := by
  have hpairs : ∀ (pairs : List (String × Nat)) (W : List Nat),
      TurnsAll d kept count known (pairs.flatMap fun pair => Insn.element var pair.2 pair.1) W
        (((pairs.map (·.1)).map fun param => Descriptor.size (some param)).reverse ++ W) := by
    intro pairs
    induction pairs with
    | nil => exact fun W => .nil W
    | cons pair rest ih =>
      intro W
      rw [List.flatMap_cons, List.map_cons, List.map_cons, List.reverse_cons, List.append_assoc]
      exact ((turnsAll_element kept count known hd hvar pair.2 pair.1).frame W).append (ih _)
  have hall := hpairs (params.zip (List.range params.length)) []
  rwa [List.map_fst_zip (Nat.le_of_eq List.length_range.symm), List.append_nil] at hall

/-- Boxed, a result is narrow. -/
theorem turnsAll_box (hd : d.Measured) (parsed : MethodDescriptor) :
    TurnsAll d kept count known (Insn.box parsed.ret) (returnedWidths parsed) [1] := by
  unfold Insn.box returnedWidths
  by_cases hvoid : parsed.ret = "V"
  · rw [if_pos hvoid, if_pos hvoid]
    exact (turns_produce kept count known hd rfl ⟨rfl, rfl⟩ (by decide)).single
  · rw [if_neg hvoid, if_neg hvoid]
    split
    · rename_i p hp
      obtain ⟨hclosing, hother⟩ : ')' ∉ ("L" ++ p.wrapper ++ ";").toList ∧ "L" ++ p.wrapper ++ ";" ≠ "V" := by
        cases p <;> decide
      have hcall : Turns d kept count known (.call Opcode.invokestatic ⟨p.wrapper, "valueOf",
          "(" ++ p.descriptor ++ ")" ++ Descriptor.ofClassName p.wrapper⟩ false)
          [Descriptor.size (some parsed.ret)] _ :=
        turns_call kept count known hd (by decide) (PlannedSite.parse_valueOf p) hclosing rfl
      rw [returnedWidths, if_neg hother, ← PlannedSite.ofClassName_wrapper, Descriptor.size_ofClassName] at hcall
      exact hcall.single
    · rename_i hprimitive
      rw [Descriptor.size_of_not_primitive hprimitive]
      exact .nil _

theorem exists_turnsAll_receiverCode (hd : d.Measured) (m : ResolvedMethod) (receiver : Nat) :
    ∃ W, TurnsAll d kept count known m.receiverCode [receiver] W ∧ W.length = if m.isStatic then 0 else 1 := by
  unfold ResolvedMethod.receiverCode
  split_ifs
  · exact ⟨[], (turns_pop kept count known hd receiver).single, rfl⟩
  · exact ⟨[receiver], .nil _, rfl⟩
  · exact ⟨[1], (turns_checkcast kept count known hd _ receiver).single, rfl⟩

namespace PlannedSite

/-- What the code at the call finds: the width of the receiver, and that of the array if it is on the stack. An
array that is taken from a local is narrow. -/
def FindsWidths (p : PlannedSite) (fresh : UInt16) (receiver : Nat) (W : List Nat) : Prop :=
  match p.arguments with
  | .none (some _) => W = [receiver]
  | .none none => ∃ array, W = [array, receiver]
  | .inLocal var _ => W = [receiver] ∧ Narrow kept count known var.toNat
  | .stored => W = [1, receiver] ∧ known.size ≤ fresh.toNat ∧ fresh.toNat < count
  | .moved _ _ => W = [receiver] ∧ known.size ≤ fresh.toNat ∧ fresh.toNat < count

variable {kept count known}

theorem exists_turnsAll_first (hd : d.Measured) (p : PlannedSite) (a : SiteAnalysis) {fresh : UInt16}
    {receiver : Nat} {W : List Nat} (hfinds : p.FindsWidths kept count known fresh receiver W)
    (hlast : ∀ v, known[known.size - 1]? = some v → v.size ≠ 2) :
    ∃ first var, (p.edit a fresh).atSite = first ++ p.callCode var ∧
      TurnsAll d kept count known first W [receiver] ∧ (var = none → ∃ code, p.arguments = .none code) ∧
        ∀ v ∈ var, Narrow kept count known v.toNat := by
  unfold edit
  unfold FindsWidths at hfinds
  cases harguments : p.arguments with
  | none code =>
    cases code with
    | none =>
      rw [harguments] at hfinds
      obtain ⟨array, rfl⟩ := hfinds
      exact ⟨_, none, rfl, ((turns_pop kept count known hd array).frame [receiver]).single, fun _ => ⟨_, rfl⟩, nofun⟩
    | some code =>
      rw [harguments] at hfinds
      obtain rfl := hfinds
      exact ⟨[], none, rfl, .nil _, fun _ => ⟨_, rfl⟩, nofun⟩
  | inLocal var load =>
    rw [harguments] at hfinds
    obtain ⟨rfl, hvar⟩ := hfinds
    exact ⟨[], some var, rfl, .nil _, nofun, fun v hv => Option.some.inj hv ▸ hvar⟩
  | stored =>
    rw [harguments] at hfinds
    obtain ⟨rfl, hfresh, hvar⟩ := hfinds
    exact ⟨_, some fresh, rfl, ((turns_astore hd hfresh hvar hlast).frame [receiver]).single, nofun,
      fun v hv => Option.some.inj hv ▸ ⟨hvar, .inl hfresh⟩⟩
  | moved code start =>
    rw [harguments] at hfinds
    obtain ⟨rfl, hfresh, hvar⟩ := hfinds
    exact ⟨[], some fresh, rfl, .nil _, nofun, fun v hv => Option.some.inj hv ▸ ⟨hvar, .inl hfresh⟩⟩

theorem exists_turnsAll_leadCode (hd : d.Measured) (p : PlannedSite) {var : Option UInt16}
    (hnone : var = none → p.parsed.params = []) (hvar : ∀ v ∈ var, Narrow kept count known v.toNat)
    (receiver : Nat) :
    ∃ W, TurnsAll d kept count known (p.leadCode var) [receiver] W ∧
      W.length = p.parsed.params.length + if p.resolved.isStatic then 0 else 1 := by
  obtain ⟨R, hreceiver, hlength⟩ := exists_turnsAll_receiverCode kept count known hd p.resolved receiver
  cases var with
  | none =>
    refine ⟨R, ?_, by rw [hnone rfl, hlength, List.length_nil, Nat.zero_add]⟩
    rw [leadCode, List.append_nil]
    exact hreceiver
  | some v =>
    refine ⟨_, hreceiver.append ((turnsAll_elements kept count known hd (hvar v rfl) p.parsed.params).frame R), ?_⟩
    rw [List.length_append, List.length_reverse, List.length_map, hlength]

/-- The code at a planned call takes the receiver and the array that it finds to one narrow value. -/
theorem turnsAll_atSite (hd : d.Measured) {a : SiteAnalysis} {ctx : MethodContext} {position : Nat}
    {frame : Frame ConstantValue} {p : PlannedSite} (hplanned : a.Planned ctx position frame p)
    (hclosing : ')' ∉ p.parsed.ret.toList) {fresh : UInt16} {receiver : Nat} {W : List Nat}
    (hfinds : p.FindsWidths kept count known fresh receiver W)
    (hlast : ∀ v, known[known.size - 1]? = some v → v.size ≠ 2) :
    TurnsAll d kept count known (p.edit a fresh).atSite W [1] := by
  obtain ⟨_, length, _, htarget, _⟩ := hplanned.known
  have hparse := (MethodContext.targets_of_target htarget).parses
  obtain ⟨heffect, _, hstatic⟩ := effect_callOpcode p.resolved
  obtain ⟨first, var, hatSite, hfirst, hnone, hvar⟩ := p.exists_turnsAll_first hd a hfinds hlast
  have hparams : var = none → p.parsed.params = [] := by
    intro hv
    obtain ⟨code, harguments⟩ := hnone hv
    exact hplanned.params_of_none harguments
  obtain ⟨R, hlead, hlength⟩ := p.exists_turnsAll_leadCode hd hparams hvar receiver
  have hcall : Turns d kept count known (.call p.resolved.callOpcode p.resolved.member p.resolved.ownerIsInterface) R
      (returnedWidths p.parsed) :=
    turns_call kept count known hd heffect hparse hclosing (by rw [hlength, if_congr hstatic rfl rfl])
  rw [hatSite, callCode_eq]
  exact hfirst.append (hlead.append (.cons hcall (turnsAll_box kept count known hd p.parsed)))

end PlannedSite

end Code

end DirectCall
