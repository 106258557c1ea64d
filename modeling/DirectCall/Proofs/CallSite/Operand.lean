import DirectCall.Proofs.CallSite.Adapter

/-!
# Operand code of a replaced call

The code that goes away or moves with a call stands ahead of it and has no effect but on the operand
stack. In particular no call of `invoke` is in it (`edit_carries`), and none is in a dead look-up
(`deadLookups_spec`).
-/

namespace DirectCall

/-! ## Where spans end -/

theorem firstBetween_bounds {test : Nat → Bool} {start stop n : Nat}
    (h : firstBetween test start stop = some n) : start ≤ n ∧ n < stop := by
  have hgo : ∀ count start, firstBetween.go test count start = some n →
      start ≤ n ∧ n < start + count := by
    intro count
    induction count with
    | zero => simp [firstBetween.go]
    | succ count ih =>
      intro start h
      rw [firstBetween.go] at h
      split_ifs at h
      · rw [Option.some.injEq] at h
        omega
      · have := ih (start + 1) h
        omega
  have := hgo (stop - start) start h
  omega

theorem firstBetween_skipped {test : Nat → Bool} {start stop n : Nat}
    (h : firstBetween test start stop = some n) : ∀ m, start ≤ m → m < n → test m = false := by
  have hgo : ∀ count start, firstBetween.go test count start = some n →
      ∀ m, start ≤ m → m < n → test m = false := by
    intro count
    induction count with
    | zero => simp [firstBetween.go]
    | succ count ih =>
      intro start h m hle hlt
      rw [firstBetween.go] at h
      split_ifs at h with htest
      · rw [Option.some.injEq] at h
        omega
      · rcases Nat.eq_or_lt_of_le hle with rfl | hlt'
        · simpa using htest
        · exact ih (start + 1) h m hlt' hlt
  exact hgo (stop - start) start h

theorem Span.mem_positions {s : Span} {q : Nat} : q ∈ s.positions ↔ s.start ≤ q ∧ q < s.stop := by
  rw [Span.positions, List.mem_range'_1]
  omega

namespace SiteAnalysis

variable {a : SiteAnalysis} {consumer slot arity : Nat} {settled : List SourceValue}

theorem spanOfSlots_bounds {slots : List Nat} {s : Span} (h : a.spanOfSlots consumer slots = some s) :
    s.start < s.stop ∧ s.stop ≤ consumer := by
  obtain ⟨values, _, h⟩ := Option.bind_eq_some_iff.mp h
  obtain ⟨start, _, h⟩ := Option.bind_eq_some_iff.mp h
  obtain ⟨last, _, h⟩ := Option.bind_eq_some_iff.mp h
  obtain ⟨producer, _, h⟩ := Option.bind_eq_some_iff.mp h
  dsimp only at h
  split_ifs at h with hbounds
  rw [Option.some.injEq] at h
  exact h ▸ ⟨hbounds.1, hbounds.2.2⟩

theorem elementStoreEnd_bounds {s : Span} {stop : Nat}
    (h : a.elementStoreEnd s consumer settled = some stop) : s.stop < stop ∧ stop ≤ consumer := by
  obtain ⟨copy, hcopy, h⟩ := Option.bind_eq_some_iff.mp h
  split_ifs at h
  obtain ⟨stop', hstop, h⟩ := Option.bind_eq_some_iff.mp h
  dsimp only at h
  split_ifs at h
  rw [Option.some.injEq] at h
  have hcopyBounds := firstBetween_bounds hcopy
  have hstopBounds := firstBetween_bounds hstop
  omega

theorem withElementStores_bounds (a : SiteAnalysis) (settled : List SourceValue) (count : Nat) (s : Span)
    (hstop : s.stop ≤ consumer) :
    (a.withElementStores consumer settled count s).start = s.start ∧
      s.stop ≤ (a.withElementStores consumer settled count s).stop ∧
      (a.withElementStores consumer settled count s).stop ≤ consumer := by
  induction count generalizing s with
  | zero => exact ⟨rfl, Nat.le_refl _, hstop⟩
  | succ count ih =>
    rw [withElementStores]
    split
    · rename_i stop hend
      obtain ⟨hlt, hle⟩ := elementStoreEnd_bounds hend
      obtain ⟨hstart, hgrows, hbound⟩ := ih ⟨s.start, stop⟩ hle
      simp only at hgrows
      exact ⟨hstart, by omega, hbound⟩
    · exact ⟨rfl, Nat.le_refl _, hstop⟩

theorem spanOf_bounds {s : Span} (h : a.spanOf consumer slot arity = some s) :
    s.start < s.stop ∧ s.stop ≤ consumer := by
  obtain ⟨operand, hoperand, h⟩ := Option.bind_eq_some_iff.mp h
  obtain ⟨settled, _, h⟩ := Option.bind_eq_some_iff.mp h
  obtain ⟨hlt, hle⟩ := spanOfSlots_bounds hoperand
  simp only [pure, Option.some.injEq] at h
  generalize hstop : (firstBetween (fun p => decide (a.stackAt p = some settled)) operand.stop
    consumer).getD consumer = stop at h
  have hsettles : operand.stop ≤ stop ∧ stop ≤ consumer := by
    cases hfirst : firstBetween (fun p => decide (a.stackAt p = some settled)) operand.stop consumer with
    | none =>
      rw [hfirst, Option.getD_none] at hstop
      omega
    | some first =>
      rw [hfirst, Option.getD_some] at hstop
      have := firstBetween_bounds hfirst
      omega
  obtain ⟨hstart, hgrows, hbound⟩ :=
    a.withElementStores_bounds settled (consumer - stop) ⟨operand.start, stop⟩ hsettles.2
  rw [h] at hstart hgrows hbound
  simp only at hstart hgrows
  omega

/-! ## Code without effects -/

theorem isPure_not_reflective {q : Nat} {s : Span} (h : a.isPure q s = true) :
    (a.insnAt q).isReflectiveInvoke = false := by
  unfold isPure at h
  dsimp only at h
  cases hinsn : a.insnAt q with
  | invoke code index member interface =>
    rw [hinsn] at h
    simp only [Bool.or_eq_true, Bool.and_eq_true, beq_iff_eq] at h
    rw [Bool.eq_false_iff]
    intro hreflective
    simp only [Insn.isReflectiveInvoke, Bool.and_eq_true, beq_iff_eq] at hreflective
    obtain ⟨⟨⟨hcode, howner⟩, _⟩, _⟩ := hreflective
    rcases h with hlookup | ⟨hstatic, _⟩
    · simp [Insn.isMethodLookup, howner] at hlookup
    · rw [hcode] at hstatic
      exact absurd hstatic (by decide)
  | _ => rfl

theorem isRemovable_pure {s : Span} (h : a.isRemovable s consumer slot arity = true) {q : Nat}
    (hq : q ∈ s.positions) : (a.insnAt q).isReflectiveInvoke = false := by
  unfold isRemovable at h
  split at h
  · simp only [Bool.and_eq_true, List.all_eq_true] at h
    exact isPure_not_reflective (h.2 q hq).1.1
  · simp at h

/-- The instruction is in the code of the method object or of the argument array of a call. -/
def InOperandCode (a : SiteAnalysis) (call q : Nat) : Prop :=
  ∃ slot code, (slot = 0 ∨ slot = 2) ∧ a.spanOf call slot invokeArity = some code ∧
    q ∈ code.positions

/-! ## The code of the arguments -/

/-- Code that moves ahead of a receiver. -/
structure Swaps (a : SiteAnalysis) (call : Nat) (code : Span) (receiver : Nat) : Prop where
  array : a.spanOf call 2 invokeArity = some code
  ahead : receiver < code.start
  /-- No other call of `invoke` is passed on the way. -/
  pure : ∀ q, receiver ≤ q → q < call → (a.insnAt q).isReflectiveInvoke = false

theorem real_of_reflective {insn : Insn} (h : insn.isReflectiveInvoke = true) : insn.isReal = true := by
  cases insn <;> simp [Insn.isReflectiveInvoke, Insn.isReal] at h ⊢

theorem storedArguments_eq_moved {call : Nat} {code : Span} {receiver : Nat}
    (h : a.storedArguments call (a.spanOf call 2 invokeArity) = .moved code receiver) :
    a.Swaps call code receiver := by
  unfold storedArguments at h
  split at h
  · rename_i array s harray hs
    split_ifs at h with hswap
    simp only [Arguments.moved.injEq] at h
    obtain ⟨rfl, rfl⟩ := h
    have hreceiver := spanOf_bounds hs
    simp only [canSwap, isMovable, Bool.and_eq_true, decide_eq_true_eq, List.all_eq_true] at hswap
    obtain ⟨⟨⟨⟨⟨hbefore, ⟨hremovable, _⟩, _⟩, _⟩, hbetween⟩, _⟩, hbehind⟩ := hswap
    refine ⟨harray, by omega, fun q hle hlt => ?_⟩
    rcases Nat.lt_or_ge q array.start with hq | hq
    · have hpure := hbetween q (Span.mem_positions.mpr ⟨hle, hq⟩)
      rcases Bool.or_eq_true_iff.mp hpure with hpure | hpure
      · exact isPure_not_reflective hpure
      · exact isPure_not_reflective hpure
    · rcases Nat.lt_or_ge q array.stop with hq' | hq'
      · exact isRemovable_pure hremovable (Span.mem_positions.mpr ⟨hq, hq'⟩)
      · have hmarker := hbehind q (Span.mem_positions.mpr ⟨hq', hlt⟩)
        rw [Bool.eq_false_iff]
        intro hreflective
        simp [isReal, real_of_reflective hreflective] at hmarker
  · simp at h

/-- What the arguments of a call may do to code: some of the array goes away, or moves. -/
inductive Carried (a : SiteAnalysis) (call : Nat) : Arguments → Prop where
  | popped : Carried a call (.none none)
  | dropped {code : Span} : a.spanOf call 2 invokeArity = some code →
      a.isRemovable code call 2 invokeArity = true → Carried a call (.none (some code))
  | loaded {code : Span} (var : UInt16) : a.spanOf call 2 invokeArity = some code →
      a.isRemovable code call 2 invokeArity = true → Carried a call (.inLocal var code)
  | stored : Carried a call .stored
  | moved {code : Span} {receiver : Nat} : a.Swaps call code receiver →
      Carried a call (.moved code receiver)

theorem arguments_carried (a : SiteAnalysis) (call : Nat) (length : Int32) :
    a.Carried call (a.arguments call length) := by
  have hstored : a.Carried call (a.storedArguments call (a.spanOf call 2 invokeArity)) := by
    have hcases : a.storedArguments call (a.spanOf call 2 invokeArity) = .stored ∨
        ∃ code receiver, a.storedArguments call (a.spanOf call 2 invokeArity) =
          .moved code receiver := by
      unfold storedArguments
      split
      · split_ifs
        · exact .inr ⟨_, _, rfl⟩
        · exact .inl rfl
      · exact .inl rfl
    rcases hcases with h | ⟨code, receiver, h⟩
    · exact h ▸ .stored
    · exact h ▸ .moved (storedArguments_eq_moved h)
  unfold arguments
  dsimp only
  split_ifs with hlength
  · cases h : (a.spanOf call 2 invokeArity).filter fun s => a.isRemovable s call 2 invokeArity with
    | none => exact .popped
    | some code =>
      obtain ⟨harray, hremovable⟩ := Option.filter_eq_some_iff.mp h
      exact .dropped harray hremovable
  · split
    · exact .stored
    · rename_i s hs
      rw [hs] at hstored
      split_ifs with hsingle
      · split
        · split_ifs with hload
          · exact .loaded _ hs hload.1
          · exact hstored
        · exact hstored
      · exact hstored

/-- Only an empty array is not put into a local. -/
theorem length_of_arguments_none {call : Nat} {length : Int32} {code : Option Span}
    (h : a.arguments call length = .none code) : length = 0 := by
  by_contra hlength
  have hstored : a.storedArguments call (a.spanOf call 2 invokeArity) ≠ .none code := by
    unfold storedArguments
    split
    · split_ifs <;> simp
    · simp
  unfold arguments at h
  dsimp only at h
  rw [if_neg hlength] at h
  split at h
  · simp at h
  · rename_i s hs
    rw [hs] at hstored
    split_ifs at h
    · split at h
      · split_ifs at h
        exact hstored h
      · exact hstored h
    · exact hstored h

/-! ## The edit of a call -/

/-- What an edit takes from the body and puts into it, in view of the plan that it carries out. -/
structure Carries (a : SiteAnalysis) (site : PlannedSite) (e : SiteEdit) : Prop where
  call : e.site = a.idAt site.position
  /-- All real instructions of the method object go away. -/
  method : ∀ q ∈ site.methodCode.positions, a.isReal q = true → a.idAt q ∈ e.remove
  removed : ∀ id ∈ e.remove, ∃ q, q < site.position ∧ id = a.idAt q ∧ a.isReal q = true ∧
    (a.insnAt q).isReflectiveInvoke = false ∧ a.InOperandCode site.position q
  moved : ∀ target ids store, e.move = some (target, ids, store) → ∃ code receiver,
    a.Swaps site.position code receiver ∧ target = a.idAt receiver ∧
      ids = code.positions.map a.idAt ∧ ∃ var, store = .var Opcode.astore var
  /-- The array is popped or stored first, unless its code is gone or has moved. It is in a local, unless
  there are no arguments. -/
  atSite : ∃ first var, e.atSite = first ++ site.callCode var ∧
    (first = [] ∨ first = [.op Opcode.pop] ∨ ∃ fresh, first = [.var Opcode.astore fresh]) ∧
    (var = none → site.parsed.params = [])

theorem mem_realIds {s : Span} {id : NodeId} :
    id ∈ a.realIds s ↔ ∃ q ∈ s.positions, a.isReal q = true ∧ id = a.idAt q := by
  simp only [realIds, List.mem_map, List.mem_filter]
  constructor
  · rintro ⟨q, ⟨hq, hreal⟩, rfl⟩
    exact ⟨q, hq, hreal, rfl⟩
  · rintro ⟨q, hq, hreal, rfl⟩
    exact ⟨q, ⟨hq, hreal⟩, rfl⟩

/-- Code of an operand that can be removed goes away as it has to. -/
theorem removed_of_isRemovable {call slot : Nat} {code : Span} (hslot : slot = 0 ∨ slot = 2)
    (hspan : a.spanOf call slot invokeArity = some code)
    (hremovable : a.isRemovable code call slot invokeArity = true) {id : NodeId}
    (hid : id ∈ a.realIds code) :
    ∃ q, q < call ∧ id = a.idAt q ∧ a.isReal q = true ∧
      (a.insnAt q).isReflectiveInvoke = false ∧ a.InOperandCode call q := by
  obtain ⟨q, hq, hreal, rfl⟩ := mem_realIds.mp hid
  have hinside := Span.mem_positions.mp hq
  have hstop := (spanOf_bounds hspan).2
  exact ⟨q, by omega, rfl, hreal, isRemovable_pure hremovable hq, slot, code, hslot, hspan, hq⟩

/-- A call of a method with parameters has its arguments in a local. -/
theorem Planned.params_of_none {ctx : MethodContext} {call : Nat} {frame : Frame ConstantValue}
    {site : PlannedSite} (h : a.Planned ctx call frame site) {code : Option Span}
    (hnone : site.arguments = .none code) : site.parsed.params = [] := by
  obtain ⟨m, length, _, htarget, harguments⟩ := h.known
  have hlength := (MethodContext.targets_of_target htarget).length
  rw [length_of_arguments_none (harguments.symm.trans hnone)] at hlength
  exact List.length_eq_zero_iff.mp (Int.ofNat_inj.mp hlength.symm)

/-- The edit for a planned call. -/
theorem edit_carries {ctx : MethodContext} {spent : Std.HashSet Nat} {position : Nat}
    {frame : Frame ConstantValue} {site : PlannedSite}
    (h : a.plan ctx spent position frame = .ok site) (fresh : UInt16) :
    a.Carries site (site.edit a fresh) := by
  have hplanned := planned_of_plan h
  have hcarried : a.Carried site.position site.arguments := by
    obtain ⟨m, length, _, _, harguments⟩ := hplanned.known
    rw [harguments, hplanned.call]
    exact a.arguments_carried position length
  obtain ⟨hmethod, hremovable⟩ := Option.filter_eq_some_iff.mp hplanned.methodCode
  rw [← hplanned.call] at hmethod hremovable
  refine ⟨site.edit_site a fresh, fun q hq hreal => ?method, fun id hid => ?removed,
    fun target ids store hmove => ?moved, ?atSite⟩
  case method => exact PlannedSite.mem_edit_remove.mpr (.inl (mem_realIds.mpr ⟨q, hq, hreal, rfl⟩))
  case removed =>
    rcases PlannedSite.mem_edit_remove.mp hid with hid | ⟨code, harguments, hid⟩
    · exact removed_of_isRemovable (.inl rfl) hmethod hremovable hid
    · have harray : a.spanOf site.position 2 invokeArity = some code ∧
          a.isRemovable code site.position 2 invokeArity = true := by
        rcases harguments with harguments | ⟨var, harguments⟩
        · rw [harguments] at hcarried
          cases hcarried with
          | dropped harray hpure => exact ⟨harray, hpure⟩
        · rw [harguments] at hcarried
          cases hcarried with
          | loaded _ harray hpure => exact ⟨harray, hpure⟩
      exact removed_of_isRemovable (.inr rfl) harray.1 harray.2 hid
  case moved =>
    obtain ⟨code, receiver, harguments, rfl, rfl, rfl⟩ := PlannedSite.moved_of_edit hmove
    rw [harguments] at hcarried
    cases hcarried with
    | moved hswaps => exact ⟨code, receiver, hswaps, rfl, rfl, fresh, rfl⟩
  case atSite =>
    obtain ⟨first, var, hatSite, hfirst, hnone⟩ := site.edit_atSite a fresh
    refine ⟨first, var, hatSite, hfirst, fun hvar => ?_⟩
    obtain ⟨code, harguments⟩ := hnone hvar
    exact hplanned.params_of_none harguments

/-! ## Dead look-ups -/

/-- The instruction is in a look-up that is gone: its method object was stored in a local at once, and
nothing is left that may load it. -/
def InDeadLookup (a : SiteAnalysis) (gone : NodeId → Prop) (q : Nat) : Prop :=
  ∃ lookup operands store var, (a.insnAt lookup).isMethodLookup = true ∧
    a.spanOfSlots lookup [0, 1, 2] = some operands ∧ a.storeAfter? lookup = some (store, var) ∧
    a.readers (a.idAt store) var ≠ [] ∧ (∀ id ∈ a.readers (a.idAt store) var, gone id) ∧
    (∀ id ∈ a.realIds ⟨operands.start, store + 1⟩, gone id) ∧ operands.start ≤ q ∧ q ≤ store

theorem InDeadLookup.mono {gone gone' : NodeId → Prop} {q : Nat} (h : a.InDeadLookup gone q)
    (hgone : ∀ id, gone id → gone' id) : a.InDeadLookup gone' q := by
  obtain ⟨lookup, operands, store, var, hlookup, hoperands, hstore, hreaders, hloads, hcode, hq⟩ := h
  exact ⟨lookup, operands, store, var, hlookup, hoperands, hstore, hreaders,
    fun id hid => hgone id (hloads id hid), fun id hid => hgone id (hcode id hid), hq⟩

theorem storeAfter?_spec {lookup store : Nat} {var : UInt16}
    (h : a.storeAfter? lookup = some (store, var)) :
    lookup < store ∧ store < a.flow.size ∧ a.insnAt store = .var Opcode.astore var ∧
      ∀ q, lookup < q → q < store → a.isReal q = false := by
  obtain ⟨next, hnext, h⟩ := Option.bind_eq_some_iff.mp h
  split at h
  · rename_i code read hinsn
    split_ifs at h with hcode
    simp only [Option.some.injEq, Prod.mk.injEq] at h
    obtain ⟨rfl, rfl⟩ := h
    have hbounds := firstBetween_bounds hnext
    refine ⟨by omega, hbounds.2, hcode ▸ hinsn, fun q hlt hq => ?_⟩
    have hline := firstBetween_skipped hnext q hlt hq
    simp only [Bool.not_eq_false'] at hline
    split at hline
    · rename_i hq'
      simp [isReal, hq', Insn.isReal]
    · simp at hline
  · simp at h

theorem deadLookupAt_spec {gone : Std.HashSet NodeId} {spent : Std.HashSet Nat} {lookup : Nat}
    {id : NodeId} (h : id ∈ a.deadLookupAt gone spent lookup) :
    ∃ operands store var, (a.insnAt lookup).isMethodLookup = true ∧
      a.spanOfSlots lookup [0, 1, 2] = some operands ∧ a.storeAfter? lookup = some (store, var) ∧
      a.readers (a.idAt store) var ≠ [] ∧
      (∀ n ∈ a.readers (a.idAt store) var, gone.contains n = true) ∧
      a.isRemovable ⟨operands.start, lookup + 1⟩ store 0 1 = true ∧
      a.deadLookupAt gone spent lookup = a.realIds ⟨operands.start, store + 1⟩ := by
  unfold deadLookupAt at h ⊢
  split_ifs at h with hcall
  · simp at h
  · rw [if_neg hcall]
    split at h
    · simp at h
    · rename_i store var hstore
      dsimp only at h ⊢
      split_ifs at h with hreaders
      · simp at h
      · rw [if_neg hreaders]
        split at h
        · simp at h
        · rename_i operands hoperands
          split_ifs at h with hdead
          · rw [if_pos hdead]
            simp only [Bool.and_eq_true] at hdead
            simp only [Bool.or_eq_true, List.isEmpty_iff, Bool.not_eq_true', not_or,
              Bool.not_eq_false, List.all_eq_true] at hreaders
            exact ⟨operands, store, var, by simpa using hcall, hoperands, hstore, hreaders.1,
              hreaders.2, hdead.1, rfl⟩
          · simp at h

theorem deadLookups_spec {gone : Std.HashSet NodeId} {spent : Std.HashSet Nat} {id : NodeId}
    (h : id ∈ a.deadLookups gone spent) :
    ∃ q, q < a.flow.size ∧ id = a.idAt q ∧ a.isReal q = true ∧
      (a.insnAt q).isReflectiveInvoke = false ∧
        a.InDeadLookup (fun n => gone.contains n = true ∨ n ∈ a.deadLookups gone spent) q := by
  have hall : a.deadLookups gone spent =
      (List.range a.flow.size).flatMap (a.deadLookupAt gone spent) := by
    rw [deadLookups] at h ⊢
    split_ifs at h ⊢
    · simp at h
    · rfl
  rw [hall] at h ⊢
  obtain ⟨lookup, hlookup, h⟩ := List.mem_flatMap.mp h
  obtain ⟨operands, store, var, hcall, hoperands, hstore, hsome, hloads, hremovable, hcode⟩ :=
    deadLookupAt_spec h
  obtain ⟨hafter, hinside, hstores, hlines⟩ := storeAfter?_spec hstore
  rw [hcode] at h
  obtain ⟨q, hq, hreal, rfl⟩ := mem_realIds.mp h
  have hbounds := Span.mem_positions.mp hq
  simp only at hbounds
  refine ⟨q, by omega, rfl, hreal, ?_, lookup, operands, store, var, hcall, hoperands, hstore, hsome,
    fun n hn => .inl (hloads n hn),
    fun n hn => .inr (List.mem_flatMap.mpr ⟨lookup, hlookup, hcode ▸ hn⟩), hbounds.1, by omega⟩
  rcases Nat.lt_or_ge lookup q with hlt | hle
  · rcases Nat.lt_or_ge q store with hq' | hq'
    · simp [hlines q hlt hq'] at hreal
    · obtain rfl : q = store := by omega
      rw [hstores]
      rfl
  · exact isRemovable_pure hremovable (Span.mem_positions.mpr ⟨hbounds.1, by simp; omega⟩)

end SiteAnalysis

end DirectCall
