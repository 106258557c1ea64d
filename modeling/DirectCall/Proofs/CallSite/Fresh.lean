import DirectCall.Proofs.CallSite.Ahead
import DirectCall.Proofs.CallSite.Repeat
import DirectCall.Proofs.CallSite.Replacement
import DirectCall.Proofs.Frame.Halves

/-!
# Fresh locals

An array that is stored or moved gets a local of its own. These locals are numbered from the number of locals
that the body states on (`exists_addedStores`), while the analysis makes room for the parameters as well, and
only looks at the first half of a wide local. So they are fresh exactly if the body has room for its
parameters and no wide access reaches beyond its locals (`storesFresh_iff`).
-/

namespace DirectCall

/-! ## Accesses of locals -/

namespace Opcode

/-- Loads and stores of wide values. -/
def isWideAccess (code : UInt8) : Bool :=
  code == lload || code == dload || code == lstore || code == dstore

/-- Loads, stores and the other instructions, all bytes at once. -/
theorem accesses : ∀ code : UInt8,
    (between iload aload code = true → isWideAccess code = (code == lload || code == dload) ∧ effect code = .load) ∧
      (between istore astore code = true → between iload aload code = false ∧
        isWideAccess code = (code == lstore || code == dstore) ∧ effect code = .store) ∧
        (between iload aload code = false → between istore astore code = false → isWideAccess code = false) := by
  apply Code.forall_byte
  decide +kernel

theorem isWideAccess_of_load (code : UInt8) (h : between iload aload code = true) :
    isWideAccess code = (code == lload || code == dload) :=
  ((accesses code).1 h).1

theorem isWideAccess_of_store (code : UInt8) (h : between istore astore code = true) :
    between iload aload code = false ∧ isWideAccess code = (code == lstore || code == dstore) :=
  have ⟨hload, hwide, _⟩ := (accesses code).2.1 h
  ⟨hload, hwide⟩

theorem not_wideAccess (code : UInt8) (hload : between iload aload code = false)
    (hstore : between istore astore code = false) : isWideAccess code = false :=
  (accesses code).2.2 hload hstore

theorem effect_of_load (code : UInt8) (h : between iload aload code = true) : effect code = .load :=
  ((accesses code).1 h).2

theorem effect_of_store (code : UInt8) (h : between istore astore code = true) : effect code = .store :=
  ((accesses code).2.1 h).2.2

end Opcode

namespace Insn

/-- The locals that an instruction reads or writes. -/
def accessedSlots (insn : Insn) : List Nat := insn.loadedSlots ++ insn.writtenSlots

/-- The local that a load, a store or an increment names. -/
def accessedLocal? : Insn → Option UInt16
  | .var code slot =>
    if Opcode.between Opcode.iload Opcode.aload code || Opcode.between Opcode.istore Opcode.astore code then
      some slot
    else none
  | .iinc slot _ => some slot
  | _ => none

/-- The first half of a wide local that is loaded or stored. -/
def wideLocal? : Insn → Option UInt16
  | .var code slot => if Opcode.isWideAccess code then some slot else none
  | _ => none

/-- The local that a store writes. -/
def storedLocal? : Insn → Option UInt16
  | .var code slot => if Opcode.between Opcode.istore Opcode.astore code then some slot else none
  | _ => none

variable {insn : Insn}

theorem mem_slotsFrom {slot : UInt16} {wide : Bool} {n : Nat} :
    n ∈ slotsFrom slot wide ↔ n = slot.toNat ∨ wide = true ∧ n = slot.toNat + 1 := by
  cases wide <;> simp [slotsFrom]

/-- An access is to the local that is named, and if it is wide to the next one. -/
theorem mem_accessedSlots {n : Nat} : n ∈ insn.accessedSlots ↔
    (∃ slot, insn.accessedLocal? = some slot ∧ n = slot.toNat) ∨
      ∃ slot, insn.wideLocal? = some slot ∧ n = slot.toNat + 1 := by
  cases insn with
  | var code slot =>
    simp only [accessedSlots, loadedSlots, writtenSlots, accessedLocal?, wideLocal?]
    by_cases hload : Opcode.between Opcode.iload Opcode.aload code = true
    · simp [hload, Opcode.not_store_of_load code hload, mem_slotsFrom, Opcode.isWideAccess_of_load code hload]
    · rw [Bool.not_eq_true] at hload
      by_cases hstore : Opcode.between Opcode.istore Opcode.astore code = true
      · simp [hload, hstore, mem_slotsFrom, (Opcode.isWideAccess_of_store code hstore).2]
      · rw [Bool.not_eq_true] at hstore
        simp [hload, hstore, Opcode.not_wideAccess code hload hstore]
  | _ => simp [accessedSlots, loadedSlots, writtenSlots, accessedLocal?, wideLocal?]

theorem accessedLocal?_of_wideLocal? {slot : UInt16} (h : insn.wideLocal? = some slot) :
    insn.accessedLocal? = some slot := by
  cases insn with
  | var code slot' =>
    rw [wideLocal?] at h
    split_ifs at h with hwide
    by_cases hload : Opcode.between Opcode.iload Opcode.aload code = true
    · rw [accessedLocal?, hload]
      exact h
    · by_cases hstore : Opcode.between Opcode.istore Opcode.astore code = true
      · rw [accessedLocal?, hstore, Bool.or_true]
        exact h
      · rw [Bool.not_eq_true] at hload hstore
        rw [Opcode.not_wideAccess code hload hstore] at hwide
        cases hwide
  | _ => cases h

end Insn

namespace Frame

variable {V : Type} {d : Domain V} {id : NodeId} {insn : Insn} {f g : Frame V}

theorem setLocal_lt {var : Nat} {v : V} (h : f.setLocal d var v = .ok g) : var < f.locals.size := by
  simp only [setLocal] at h
  split_ifs at h with _ hlast <;> omega

/-- An instruction that can be executed names a local of the frame. -/
theorem execute_accesses [DecidableEq V] (h : f.execute d id insn = .ok g) {slot : UInt16}
    (haccess : insn.accessedLocal? = some slot) : slot.toNat < f.locals.size := by
  unfold execute at h
  cases insn with
  | var code slot' =>
    obtain ⟨s, hstep, _⟩ := bind_eq_ok.mp h
    unfold step at hstep
    rw [Insn.accessedLocal?] at haccess
    split_ifs at haccess with hcode
    obtain rfl := Option.some.inj haccess
    rcases Bool.or_eq_true _ _ ▸ hcode with hload | hstore
    · rw [Opcode.effect_of_load code hload] at hstep
      obtain ⟨var, hvar, hstep⟩ := bind_eq_ok.mp hstep
      obtain rfl := Except.ok.inj hvar
      obtain ⟨v, hv, _⟩ := bind_eq_ok.mp hstep
      exact (Array.getElem?_eq_some_iff.mp (getLocal_eq_ok.mp hv)).1
    · rw [Opcode.effect_of_store code hstore] at hstep
      obtain ⟨var, _, _, _, hvar, _, hset, _⟩ := stepStore_eq_ok.mp hstep
      obtain rfl := Except.ok.inj hvar
      have hlt := setLocal_lt hset
      exact hlt
  | iinc slot' delta =>
    obtain ⟨s, hstep, _⟩ := bind_eq_ok.mp h
    obtain rfl := Option.some.inj haccess
    have hincrement : stepIncrement d id (.iinc slot' delta) f = .ok s := hstep
    obtain ⟨_, _, v, _, heq, hv, _⟩ := stepIncrement_eq_ok.mp hincrement
    cases heq
    exact (Array.getElem?_eq_some_iff.mp hv).1
  | _ => cases haccess

end Frame

/-! ## New stores -/

namespace PlannedSite

variable {p : PlannedSite} {var : Option UInt16}

/-- The code of a direct call stores nothing. -/
theorem storedLocal?_callCode {insn : Insn} (h : insn ∈ p.callCode var) : insn.storedLocal? = none := by
  have hunbox : ∀ {param}, insn ∈ Insn.unbox param → insn.storedLocal? = none := by
    intro param hmem
    rcases Insn.mem_unbox hmem with ⟨k, _, rfl | rfl⟩ | ⟨className, _, _, _, rfl⟩ <;> rfl
  rw [callCode_eq] at h
  rcases List.mem_append.mp h with h | h
  · rcases List.mem_append.mp h with h | h
    · unfold ResolvedMethod.receiverCode at h
      split_ifs at h
      · rw [List.mem_singleton.mp h]
        rfl
      · simp at h
      · rw [List.mem_singleton.mp h]
        rfl
    · cases var with
      | none => simp at h
      | some var =>
        rcases Insn.mem_elements h with ⟨index, rfl | rfl | rfl⟩ | ⟨param, _, h⟩
        · rfl
        · unfold Insn.pushInt
          split_ifs <;> rfl
        · rfl
        · exact hunbox h
  · rcases List.mem_cons.mp h with rfl | h
    · rfl
    · rcases Insn.mem_box h with rfl | ⟨k, _, rfl⟩ <;> rfl

/-- One store is made if the site needs a local, and it is to that local. -/
theorem stores_of_edit (p : PlannedSite) (a : SiteAnalysis) (fresh : UInt16) :
    (p.edit a fresh).made.filterMap Insn.storedLocal? = if p.needsLocal then [fresh] else [] := by
  have hcode : ∀ var, (p.callCode var).filterMap Insn.storedLocal? = [] := fun var =>
    List.filterMap_eq_nil_iff.mpr fun _ => storedLocal?_callCode
  have hstore : (Insn.var Opcode.astore fresh).storedLocal? = some fresh := rfl
  have hpop : (Insn.op Opcode.pop).storedLocal? = none := rfl
  unfold edit needsLocal
  cases p.arguments with
  | none code => cases code <;> simp [SiteEdit.made, SiteEdit.stores, hcode, hpop]
  | inLocal var load => simp [SiteEdit.made, SiteEdit.stores, hcode]
  | stored => simp [SiteEdit.made, SiteEdit.stores, hcode, hstore]
  | moved code receiver => simp [SiteEdit.made, SiteEdit.stores, hcode, hstore]

end PlannedSite

/-- Consecutive locals. -/
def localsFrom (first : UInt16) (count : Nat) : List UInt16 :=
  (List.range count).map fun k => first + UInt16.ofNat k

theorem localsFrom_succ (first : UInt16) (count : Nat) :
    localsFrom first (count + 1) = localsFrom first count ++ [first + UInt16.ofNat count] := by
  simp [localsFrom, List.range_succ]

theorem toNat_localsFrom {first : UInt16} {count k : Nat} (hroom : first.toNat + count < 65536) (hk : k < count) :
    (first + UInt16.ofNat k).toNat = first.toNat + k := by
  rw [UInt16.toNat_add, UInt16.toNat_ofNat']
  omega

theorem nodup_localsFrom {first : UInt16} {count : Nat} (hroom : first.toNat + count < 65536) :
    (localsFrom first count).Nodup := by
  refine List.Nodup.map_on (fun k hk k' hk' heq => ?_) List.nodup_range
  rw [List.mem_range] at hk hk'
  have hnat := congrArg UInt16.toNat heq
  rw [toNat_localsFrom hroom hk, toNat_localsFrom hroom hk'] at hnat
  omega

namespace Planning

/-- The locals that the edits planned so far store into. -/
def stores (s : Planning) : List UInt16 := (s.edits.reverse.flatMap (·.made)).filterMap Insn.storedLocal?

/-- The locals of the stores are consecutive, and the next one is fresh. -/
def Numbered (first : UInt16) (s : Planning) : Prop :=
  ∃ count, s.stores = localsFrom first count ∧ s.fresh = first + UInt16.ofNat count

theorem stores_accept (s : Planning) (a : SiteAnalysis) (line : Option UInt16) (p : PlannedSite) :
    (s.accept a line p).stores = s.stores ++ if p.needsLocal then [s.fresh] else [] := by
  rw [← p.stores_of_edit a s.fresh]
  simp [stores, accept]

variable {ctx : MethodContext} {a : SiteAnalysis} {body : Body} {first : UInt16} {s : Planning}

theorem Numbered.accept (h : s.Numbered first) (line : Option UInt16) (p : PlannedSite) :
    (s.accept a line p).Numbered first := by
  obtain ⟨count, hstores, hfresh⟩ := h
  by_cases hneeds : p.needsLocal = true
  · refine ⟨count + 1, ?_, ?_⟩
    · rw [stores_accept, if_pos hneeds, hstores, hfresh, localsFrom_succ]
    · rw [Planning.accept, if_pos hneeds, hfresh, UInt16.ofNat_add, UInt16.add_assoc]
      rfl
  · refine ⟨count, ?_, ?_⟩
    · rw [stores_accept, if_neg hneeds, hstores, List.append_nil]
    · rw [Planning.accept, if_neg hneeds, hfresh]

theorem Numbered.visit (h : s.Numbered first) (position : Nat) : (s.visit ctx a body position).Numbered first := by
  rcases visit_cases ctx a body s position with
    ⟨hvisit, _⟩ | ⟨_, line, p, _, _, _, hvisit⟩ | ⟨_, outcome, _, _, _, hvisit⟩
  · rwa [hvisit]
  · rw [hvisit]
    exact h.accept line p
  · rw [hvisit]
    exact h

theorem Numbered.foldl (h : s.Numbered first) (positions : List Nat) :
    (positions.foldl (Planning.visit ctx a body) s).Numbered first := by
  induction positions generalizing s with
  | nil => exact h
  | cons position rest ih => exact ih (h.visit position)

theorem run_numbered (ctx : MethodContext) (a : SiteAnalysis) (body : Body) :
    (run ctx a body).Numbered body.maxLocals :=
  Numbered.foldl ⟨0, rfl, by simp⟩ _

end Planning

namespace Body

/-- The locals that new nodes store into. There is such a node for each array that is stored or moved. -/
def addedStores (body body' : Body) : List UInt16 :=
  (body'.insns.nodes.toList.drop body.insns.nodes.size).filterMap Insn.storedLocal?

/-- Some path leads to the position. -/
def Reaches (body : Body) (p : Nat) : Prop := ∃ flow, Flow.ofBody body = .ok flow ∧ flow.Reaches p

/-- No new local is one of the receiver or of a parameter, no instruction that is reached accesses one, and
they are distinct. -/
structure StoresFresh (m : MethodSig) (body body' : Body) : Prop where
  parameters : ∀ parsed, MethodDescriptor.parse m.descriptor = .ok parsed →
    ∀ slot ∈ body.addedStores body', Frame.entrySlots m parsed ≤ slot.toNat
  untouched : ∀ p, body.Reaches p → ∀ slot ∈ body.addedStores body',
    slot.toNat ∉ (body.insns.insnAt p).accessedSlots
  distinct : (body.addedStores body').Nodup

/-- The locals that the body states have room for the receiver and the parameters, and for both halves of
each wide local that is accessed. -/
structure HasRoom (m : MethodSig) (body : Body) : Prop where
  parameters : ∀ parsed, MethodDescriptor.parse m.descriptor = .ok parsed →
    Frame.entrySlots m parsed ≤ body.maxLocals.toNat
  wide : ∀ p, body.Reaches p → ∀ slot, (body.insns.insnAt p).wideLocal? = some slot →
    slot.toNat + 1 ≠ body.maxLocals.toNat

variable {ctx : MethodContext} {body body' : Body} {outcomes : List SiteOutcome}

theorem addedStores_self (body : Body) : body.addedStores body = [] := by
  rw [addedStores, ← Array.length_toList, List.drop_length]
  rfl

theorem addedStores_of_planning {a : SiteAnalysis} (ha : SiteAnalysis.run ctx.method body = .ok a)
    (hany : body.insns.insns.any (·.isReflectiveInvoke) = true) (h : body.replaceInvokes ctx = .ok (body', outcomes)) :
    body.addedStores body' = (Planning.run ctx a body).stores := by
  unfold replaceInvokes at h
  rw [if_neg (by simp [hany]), ha] at h
  simp only [bind, Except.bind] at h
  split_ifs at h with hnone
  · cases h
    rw [addedStores_self, Planning.stores, List.isEmpty_iff.mp hnone]
    rfl
  · cases h
    rw [addedStores, InsnList.commit, (recording_foldl body.insns (Planning.run ctx a body).edits.reverse).made]
    simp [Planning.stores]

/-- The new locals are consecutive, from the number of locals on. -/
theorem exists_addedStores (h : body.replaceInvokes ctx = .ok (body', outcomes)) :
    body.addedStores body' = [] ∨ ∃ a count, SiteAnalysis.run ctx.method body = .ok a ∧
      body.addedStores body' = localsFrom body.maxLocals count := by
  by_cases hany : body.insns.insns.any (·.isReflectiveInvoke) = true
  · have ha : ∃ a, SiteAnalysis.run ctx.method body = .ok a := by
      unfold replaceInvokes at h
      rw [if_neg (by simp [hany])] at h
      obtain ⟨a, ha, _⟩ := bind_eq_ok.mp h
      exact ⟨a, ha⟩
    obtain ⟨a, ha⟩ := ha
    obtain ⟨count, hstores, _⟩ := Planning.run_numbered ctx a body
    exact .inr ⟨a, count, ha, (addedStores_of_planning ha hany h).trans hstores⟩
  · unfold replaceInvokes at h
    rw [if_pos (by simp [hany])] at h
    cases h
    exact .inl (addedStores_self body)

/-- In an analysed body with room, what is accessed are locals that the body states. -/
theorem HasRoom.accessed_lt {m : MethodSig} {a : SiteAnalysis} (hroom : body.HasRoom m)
    (ha : SiteAnalysis.run m body = .ok a) {p : Nat} (hp : body.Reaches p) {n : Nat}
    (hn : n ∈ (body.insns.insnAt p).accessedSlots) : n < body.maxLocals.toNat := by
  obtain ⟨flow, hflow, hreaches⟩ := hp
  obtain ⟨hflow', hconstants⟩ := SiteAnalysis.flow_of_run ha
  obtain rfl := Except.ok.inj (hflow'.symm.trans hflow)
  obtain ⟨_, entry, hflow', hentry, hclosed⟩ :=
    Frame.analyze_closed (Frame.Progress.joinBounds_true _) hconstants
  obtain rfl := Except.ok.inj (hflow.symm.trans hflow')
  obtain ⟨frame, hframe⟩ := Option.isSome_iff_exists.mp
    ((Frame.isSome_iff_reaches hconstants hflow p).mpr hreaches)
  obtain ⟨after, hafter⟩ := (hclosed.closedAt p frame hframe).executes
  obtain ⟨parsed, hparsed, hsize⟩ := Frame.entry_locals_size hentry
  have hparameters := hroom.parameters parsed hparsed
  have hlocals : frame.locals.size = body.maxLocals.toNat := by
    rw [Frame.locals_size_of_analyze hconstants hentry hframe, hsize]
    omega
  have hbase : ∀ slot, (body.insns.insnAt p).accessedLocal? = some slot →
      slot.toNat < body.maxLocals.toNat := by
    intro slot hslot
    rw [← hlocals]
    refine Frame.execute_accesses hafter ?_
    rwa [Flow.insnAt, Flow.list_of_ofBody hflow]
  rcases Insn.mem_accessedSlots.mp hn with ⟨slot, hslot, rfl⟩ | ⟨slot, hslot, rfl⟩
  · exact hbase slot hslot
  · have hlt := hbase slot (Insn.accessedLocal?_of_wideLocal? hslot)
    have hne := hroom.wide p ⟨_, hflow, hreaches⟩ slot hslot
    omega

/-- The new locals are fresh exactly if there are none, or the body has room for its parameters and its wide
locals. -/
theorem storesFresh_iff (h : body.replaceInvokes ctx = .ok (body', outcomes))
    (hroom : body.maxLocals.toNat + (body.addedStores body').length < 65536) :
    body.StoresFresh ctx.method body' ↔ body.addedStores body' = [] ∨ body.HasRoom ctx.method := by
  rcases exists_addedStores h with hnone | ⟨a, count, ha, hstores⟩
  · refine ⟨fun _ => .inl hnone, fun _ => ⟨?_, ?_, ?_⟩⟩ <;> simp [hnone]
  rw [hstores, localsFrom, List.length_map, List.length_range] at hroom
  constructor
  · intro hfresh
    rcases Nat.eq_zero_or_pos count with rfl | hpos
    · exact .inl hstores
    · -- The first new local is the number of locals.
      have hfirst : body.maxLocals ∈ body.addedStores body' := by
        rw [hstores]
        exact List.mem_map.mpr ⟨0, List.mem_range.mpr hpos, by simp⟩
      refine .inr ⟨fun parsed hparsed => hfresh.parameters parsed hparsed _ hfirst, fun p hp slot hslot heq => ?_⟩
      exact hfresh.untouched p hp _ hfirst (Insn.mem_accessedSlots.mpr (.inr ⟨slot, hslot, heq.symm⟩))
  · rintro (hnone | hr)
    · refine ⟨?_, ?_, ?_⟩ <;> simp [hnone]
    · have hge : ∀ slot ∈ body.addedStores body', body.maxLocals.toNat ≤ slot.toNat := by
        intro slot hslot
        rw [hstores] at hslot
        obtain ⟨k, hk, rfl⟩ := List.mem_map.mp hslot
        rw [toNat_localsFrom hroom (List.mem_range.mp hk)]
        exact Nat.le_add_right _ _
      refine ⟨fun parsed hparsed slot hslot => (hr.parameters parsed hparsed).trans (hge slot hslot),
        fun p hp slot hslot hmem => ?_, by rw [hstores]; exact nodup_localsFrom hroom⟩
      exact absurd (hr.accessed_lt ha hp hmem) (Nat.not_lt.mpr (hge slot hslot))

end Body

/-! ## A parameter that is overwritten

The body states one local, but the method has two parameters. The second one is loaded behind the call. -/

def parameterContext : MethodContext :=
  { calleeContext with method := ⟨"a/B", "m", "(Ljava/lang/Object;Ljava/lang/Object;)V", 0x0008⟩ }

def parameterBody : Body where
  insns := InsnList.ofInsns #[
    .op 0x04, .ofClass Opcode.anewarray "java/lang/Class", .op Opcode.dup, .op Opcode.iconst0,
    .load (.classRef "java/lang/String"), .op Opcode.aastore, .var Opcode.astore 0,
    .load (.classRef "a/A"), .load (.string "f"), .var Opcode.aload 0, lookupCall,
    .op Opcode.aconstNull, .op 0x04, .ofClass Opcode.anewarray "java/lang/Object", invokeCall, .op Opcode.pop,
    .var Opcode.aload 1, .op Opcode.pop, .op Opcode.returnVoid]
  regions := []
  locals := []
  maxStack := 4
  maxLocals := 1

def parameterAnalysis : SiteAnalysis :=
  (SiteAnalysis.run parameterContext.method parameterBody).toOption.get (by decide +kernel)

theorem parameterAnalysis_run :
    SiteAnalysis.run parameterContext.method parameterBody = .ok parameterAnalysis :=
  eq_ok_get _

def parameterFrame : Frame ConstantValue :=
  ⟨#[.unknown .single, .unknown .single], [.array (some ⟨13⟩) "java/lang/Object" 1 [], .unknown .single,
    .method ⟨⟨10⟩, "a/A", "f", ["Ljava/lang/String;"], false⟩]⟩

def parameterSite : PlannedSite :=
  ⟨14, Candidate.resolved ⟨calleeClass, calleeF⟩, ⟨["Ljava/lang/String;"], "V"⟩, ⟨7, 11⟩, none,
    .moved ⟨12, 14⟩ 11⟩

theorem parameterAnalysis_evidence :
    parameterAnalysis.sources.evidence 14 [0] = [7, 8, 9, 10] ∧
      parameterAnalysis.sources.evidence 14 [1] = [11] ∧
        parameterAnalysis.sources.evidence 14 [2] = [12, 13] := by
  have hall : [[0], [1], [2]].map (parameterAnalysis.sources.evidence 14) =
      [[7, 8, 9, 10], [11], [12, 13]] :=
    SourceAnalysis.evidence_map_of_reachWithin 100 (by decide +kernel)
  simpa using hall

theorem parameterAnalysis_call :
    ((List.range parameterAnalysis.flow.size).filter fun p =>
        (parameterAnalysis.insnAt p).isReflectiveInvoke) = [14] ∧
      parameterAnalysis.constants.getD 14 none = some parameterFrame ∧
        parameterAnalysis.methodCode? 14 = some ⟨7, 11⟩ ∧ parameterAnalysis.methodLoad? ⟨7, 11⟩ = none ∧
          parameterAnalysis.arguments 14 1 = .moved ⟨12, 14⟩ 11 := by
  obtain ⟨hmethod, hreceiver, harray⟩ := parameterAnalysis_evidence
  simp only [SiteAnalysis.methodCode?, SiteAnalysis.arguments, SiteAnalysis.storedArguments,
    SiteAnalysis.spanOf, SiteAnalysis.spanOfSlots, hmethod, hreceiver, harray]
  decide +kernel

theorem parameterSite_plan {spent : Std.HashSet Nat} (hspent : ∀ p, spent.contains p = false) :
    parameterAnalysis.plan parameterContext spent 14 parameterFrame = .ok parameterSite := by
  obtain ⟨_, _, hcode, hload, harguments⟩ := parameterAnalysis_call
  have htarget : parameterContext.target ⟨⟨10⟩, "a/A", "f", ["Ljava/lang/String;"], false⟩ (parameterFrame.peek? 0) =
      .ok (Candidate.resolved ⟨calleeClass, calleeF⟩, ⟨["Ljava/lang/String;"], "V"⟩, 1) :=
    target_f ⟨10⟩ (some ⟨13⟩) "java/lang/Object"
  have hplan := SiteAnalysis.plan_of_unspent parameterFrame hspent rfl htarget hcode
  rw [hload, harguments] at hplan
  exact hplan

/-- The array gets local 1, which is the second parameter. -/
theorem parameterBody_stores : ∃ body' outcomes,
    parameterBody.replaceInvokes parameterContext = .ok (body', outcomes) ∧ parameterBody.addedStores body' = [1] := by
  obtain ⟨body', outcomes, h⟩ := Body.replaceInvokes_total parameterContext parameterAnalysis_run
  refine ⟨body', outcomes, h, ?_⟩
  obtain ⟨hcalls, hframe, _⟩ := parameterAnalysis_call
  have hcall := isReflectiveInvoke_of_mem hcalls (p := 14) (by simp)
  have hany : parameterBody.insns.insns.any (·.isReflectiveInvoke) = true :=
    (Body.any_insns_ofInsns _ _).trans rfl
  rw [Body.addedStores_of_planning parameterAnalysis_run hany h, Planning.run_eq_foldl_calls, hcalls,
    List.foldl_cons, List.foldl_nil, Planning.visit_of_plan hcall hframe (parameterSite_plan (by simp)),
    Planning.stores_accept]
  rfl

theorem parameterContext_parse :
    MethodDescriptor.parse parameterContext.method.descriptor =
      .ok ⟨["Ljava/lang/Object;", "Ljava/lang/Object;"], "V"⟩ := by rfl

/-- The body has no room for its parameters, so the new local is not fresh. -/
theorem storesFresh_iff_parameter : ∃ body' outcomes,
    parameterBody.replaceInvokes parameterContext = .ok (body', outcomes) ∧
      parameterBody.maxLocals.toNat + (parameterBody.addedStores body').length < 65536 ∧
        ¬ parameterBody.StoresFresh parameterContext.method body' := by
  obtain ⟨body', outcomes, h, hstores⟩ := parameterBody_stores
  have hroom : parameterBody.maxLocals.toNat + (parameterBody.addedStores body').length < 65536 := by
    rw [hstores]
    decide
  refine ⟨body', outcomes, h, hroom, fun hfresh => ?_⟩
  rcases (Body.storesFresh_iff h hroom).mp hfresh with hnone | hr
  · rw [hstores] at hnone
    cases hnone
  · exact absurd (hr.parameters _ parameterContext_parse) (by decide)

/-- A new local may be one of a parameter. -/
theorem not_forall_storesFresh :
    ¬ ∀ (ctx : MethodContext) (body body' : Body) (outcomes : List SiteOutcome),
      body.replaceInvokes ctx = .ok (body', outcomes) →
        body.maxLocals.toNat + (body.addedStores body').length < 65536 → body.StoresFresh ctx.method body' := by
  intro hclaim
  obtain ⟨body', outcomes, h, hstores⟩ := parameterBody_stores
  have hfresh := hclaim parameterContext parameterBody body' outcomes h (by rw [hstores]; decide)
  have hslot := hfresh.parameters _ parameterContext_parse 1 (by rw [hstores]; exact List.mem_cons_self)
  exact absurd hslot (by decide)

end DirectCall
