import DirectCall.Proofs.CallSite.Ahead
import DirectCall.Proofs.Sources.Realised

/-!
# The code of a dead look-up

A look-up whose method object is stored in a local may go away, with its code and the store. Control leaves
that code behind the store only, exceptions apart (`DeadLookup.leaves_at_store`), and the stack there is the one
ahead of the code. So if no value on that stack was pushed by the code, none that the code pushed is taken off
the stack by another instruction (`DeadLookup.takesWithin_of_carriesNone`).
-/

namespace DirectCall

open SourceAnalysis (domainOf)
open SourceValue

/-! ## Where producers are -/

namespace SourceValue

variable {size : Nat} {id : NodeId} {insn : Insn} {f g : Frame SourceValue} {v : SourceValue}

/-- A store into a local takes the top off the stack. -/
theorem execute_astore_stack {var : UInt16} (h : f.execute (domain size) id (.var Opcode.astore var) = .ok g) :
    g.stack = f.stack.drop 1 := by
  rcases execute_eq_ok.mp h with ⟨hnone, _⟩ | ⟨code, operands, hcode, hstep⟩
  · cases hnone
  · obtain rfl := Option.some.inj hcode
    obtain ⟨_, top, rest, left, _, hstack, hset, heq⟩ := Frame.stepStore_eq_ok.mp hstep
    obtain ⟨_, rfl⟩ := Prod.mk.inj heq
    rw [Frame.setLocal_stack hset, hstack]
    rfl

/-- What is in a local behind a store was there ahead of it, or has no producer, or is what was stored. -/
theorem setLocal_cases {var slot : Nat} {w : SourceValue} (h : f.setLocal (domain size) var w = .ok g)
    (hv : g.locals[slot]? = some v) :
    f.locals[slot]? = some v ∨ v.producers = [] ∨ slot = var ∧ v = w := by
  have hput : ∀ {locals : Array SourceValue} {k : Nat} {u : SourceValue},
      (locals.setIfInBounds k u)[slot]? = some v → locals[slot]? = some v ∨ slot = k ∧ v = u := by
    intro locals k u hu
    rw [Array.getElem?_setIfInBounds] at hu
    split_ifs at hu with heq
    · exact .inr ⟨heq.symm, (Option.some.inj hu).symm⟩
    · exact .inl hu
  have hcut : (if 0 < var then Frame.cutWide (domain size) f.locals (var - 1) else f.locals)[slot]? = some v →
      f.locals[slot]? = some v ∨ v.producers = [] := by
    intro hu
    split_ifs at hu
    · unfold Frame.cutWide at hu
      split at hu
      · split_ifs at hu
        · rcases hput hu with hu | ⟨_, rfl⟩
          · exact .inl hu
          · exact .inr rfl
        · exact .inl hu
      · exact .inl hu
    · exact .inl hu
  simp only [Frame.setLocal] at h
  by_cases hlast : (if (domain size).size w = 2 then var + 1 else var) < f.locals.size
  · rw [if_pos hlast] at h
    obtain rfl := Except.ok.inj h
    by_cases hwide : (domain size).size w = 2
    · simp only [if_pos hwide] at hv
      rcases hput hv with hv | ⟨_, rfl⟩
      · exact (hput hv).elim (fun hv => (hcut hv).imp_right .inl) fun heq => .inr (.inr heq)
      · exact .inr (.inl rfl)
    · simp only [if_neg hwide] at hv
      exact (hput hv).elim (fun hv => (hcut hv).imp_right .inl) fun heq => .inr (.inr heq)
  · rw [if_neg hlast] at h
    cases h

/-- What is in a local behind an instruction was there ahead of it, or has no producer, or the instruction
wrote it. -/
theorem execute_local (h : f.execute (domain size) id insn = .ok g) {slot : Nat}
    (hv : g.locals[slot]? = some v) :
    f.locals[slot]? = some v ∨ v.producers = [] ∨ v.producers = [id] ∧ slot ∈ insn.writtenSlots := by
  rcases execute_eq_ok.mp h with ⟨_, rfl⟩ | ⟨code, operands, hcode, hstep⟩
  · exact .inl hv
  by_cases hstore : Opcode.effect code = .store
  · unfold Frame.step at hstep
    rw [hstore] at hstep
    obtain ⟨var, top, rest, left, hvar, _, hset, heq⟩ := Frame.stepStore_eq_ok.mp hstep
    obtain ⟨_, rfl⟩ := Prod.mk.inj heq
    refine (setLocal_cases hset hv).imp_right (Or.imp_right ?_)
    rintro ⟨rfl, rfl⟩
    refine ⟨rfl, ?_⟩
    cases insn with
    | var code' local' =>
      obtain rfl := Option.some.inj hcode
      obtain rfl := Except.ok.inj hvar
      rw [Insn.writtenSlots, if_pos (Opcode.between_of_effect_store hstore)]
      unfold Insn.slotsFrom
      split_ifs <;> exact List.mem_cons_self
    | _ => cases hvar
  · by_cases hincrement : Opcode.effect code = .increment
    · unfold Frame.step at hstep
      rw [hincrement] at hstep
      obtain ⟨var, delta, w, left, rfl, _, hset, heq⟩ := Frame.stepIncrement_eq_ok.mp hstep
      obtain ⟨_, rfl⟩ := Prod.mk.inj heq
      refine (setLocal_cases hset hv).imp_right (Or.imp_right ?_)
      rintro ⟨rfl, rfl⟩
      exact ⟨rfl, List.mem_cons_self⟩
    · left
      rw [← Frame.step_locals_of_effect hstore hincrement hstep]
      exact hv

end SourceValue

namespace SourceAnalysis

variable {m : MethodSig} {body : Body} {a : SourceAnalysis} {entry : Frame SourceValue}

/-- The producers that a local may have write that local. -/
def Written (body : Body) (f : Frame SourceValue) : Prop :=
  ∀ (slot : Nat) v, f.locals[slot]? = some v → ∀ id ∈ v.producers, slot ∈ (body.insns.get id).writtenSlots

theorem joinKeeps_written : Frame.Progress.JoinKeeps (domainOf body) fun _ => Written body := by
  intro _ f g joined hf hg hjoined slot v hv id hid
  unfold Frame.join at hjoined
  split_ifs at hjoined
  obtain rfl := Except.ok.inj hjoined
  rw [Array.getElem?_zipWith_eq_some] at hv
  obtain ⟨x, y, hx, hy, rfl⟩ := hv
  rcases mem_union.mp hid with hid | hid
  · exact hf slot x hx id hid
  · exact hg slot y hy id hid

/-- In the frames of the analysis, the producers of a local write it. -/
theorem written_of_run (h : run m body = .ok a) {p : Nat} {known : Frame SourceValue}
    (hknown : a.frameAt p = some known) : Written body known := by
  obtain ⟨hframes, hflow, _⟩ := run_eq_ok h
  obtain ⟨_, entry, _, hentry, _⟩ := Frame.analyze_closed (joinBounds _) hframes
  refine Frame.analyze_invariant hframes hflow hentry joinKeeps_written ?start ?move p known hknown
  case start =>
    intro slot v hv id hid
    have hall : entry.All fun v => v.producers = [] := Frame.entry_all rfl rfl (fun _ _ _ _ => rfl) hentry
    rw [hall v (List.mem_append_left _ (Array.mem_toList_iff.mpr (Array.mem_of_getElem? hv)))] at hid
    exact absurd hid List.not_mem_nil
  case move =>
    intro p before move after hbefore _ hpass slot v hv id hid
    cases move with
    | raise edge =>
      obtain rfl := Except.ok.inj hpass
      exact hbefore slot v hv id hid
    | next target =>
      rcases execute_local hpass hv with hv | hnone | ⟨hone, hwritten⟩
      · exact hbefore slot v hv id hid
      · rw [hnone] at hid
        exact absurd hid List.not_mem_nil
      · rw [hone, List.mem_singleton] at hid
        rw [hid, ← Flow.list_of_ofBody hflow]
        exact hwritten

end SourceAnalysis

namespace SiteAnalysis

open SourceAnalysis (agrees_of_widthsMeet popsWithin_iff run_eq_ok)

variable {m : MethodSig} {body : Body} {a : SiteAnalysis}

theorem sources_of_run (h : run m body = .ok a) :
    SourceAnalysis.run m body = .ok a.sources ∧ a.flow = a.sources.flow := by
  obtain ⟨constants, _, h⟩ := bind_eq_ok.mp h
  obtain ⟨sources, hsources, h⟩ := bind_eq_ok.mp h
  cases h
  exact ⟨hsources, rfl⟩

/-! ## The code that goes away -/

/-- A look-up whose loads are all gone goes away with its code and the store, if nothing of it is used up. -/
theorem deadLookupAt_eq {gone : Std.HashSet NodeId} {spent : Std.HashSet Nat} {lookup store : Nat} {var : UInt16}
    {operands : Span} (hlookup : (a.insnAt lookup).isMethodLookup = true)
    (hstore : a.storeAfter? lookup = some (store, var)) (hsome : a.readers (a.idAt store) var ≠ [])
    (hreaders : ∀ n ∈ a.readers (a.idAt store) var, gone.contains n = true)
    (hoperands : a.spanOfSlots lookup [0, 1, 2] = some operands)
    (hremovable : a.isRemovable ⟨operands.start, lookup + 1⟩ store 0 1 = true)
    (hunspent : ∀ p ∈ (Span.mk operands.start (store + 1)).positions, spent.contains p = false) :
    a.deadLookupAt gone spent lookup = a.realIds ⟨operands.start, store + 1⟩ := by
  have hkept : (Span.mk operands.start (store + 1)).positions.any spent.contains = false :=
    List.any_eq_false.mpr fun p hp => Bool.not_eq_true _ ▸ hunspent p hp
  simp [deadLookupAt, hlookup, hstore, hsome, List.all_eq_true.mpr hreaders, hoperands, hremovable, hkept]

/-- A look-up that goes away, with the store of the method object. `gone` are the loads of method objects that
go away, `spent` the positions whose code is used up. -/
structure DeadLookup (a : SiteAnalysis) (gone : Std.HashSet NodeId) (spent : Std.HashSet Nat) where
  lookup : Nat
  operands : Span
  store : Nat
  var : UInt16
  call_operands : a.spanOfSlots lookup [0, 1, 2] = some operands
  stores : a.storeAfter? lookup = some (store, var)
  dead : a.idAt store ∈ a.deadLookupAt gone spent lookup

/-- No value on the stack ahead of the code was pushed by the code. -/
def CarriesNone (a : SiteAnalysis) (code : Span) : Prop :=
  ∀ known, a.sources.frameAt code.start = some known →
    ∀ v ∈ known.stack, ∀ id ∈ v.producers, id ∉ a.realIds code

namespace DeadLookup

variable {gone : Std.HashSet NodeId} {spent : Std.HashSet Nat} (d : a.DeadLookup gone spent)

/-- The code of the operands, the look-up and the store. -/
def code : Span := ⟨d.operands.start, d.store + 1⟩

theorem spec : (a.insnAt d.lookup).isMethodLookup = true ∧
    a.deadLookupAt gone spent d.lookup = a.realIds d.code ∧
      (∀ n ∈ a.readers (a.idAt d.store) d.var, gone.contains n = true) ∧
        a.readers (a.idAt d.store) d.var ≠ [] ∧
          a.isRemovable ⟨d.operands.start, d.lookup + 1⟩ d.store 0 1 = true := by
  obtain ⟨operands, store, var, hlookup, hoperands, hstore, hsome, hreaders, hremovable, hcode⟩ :=
    deadLookupAt_spec d.dead
  obtain rfl := Option.some.inj (d.call_operands.symm.trans hoperands)
  obtain ⟨rfl, rfl⟩ := Prod.mk.inj (Option.some.inj (d.stores.symm.trans hstore))
  exact ⟨hlookup, hcode, hreaders, hsome, hremovable⟩

theorem bounds : d.operands.start < d.lookup ∧ d.lookup < d.store ∧ d.store < a.flow.size := by
  obtain ⟨hlt, hle⟩ := spanOfSlots_bounds d.call_operands
  obtain ⟨hbefore, hinside, _⟩ := storeAfter?_spec d.stores
  exact ⟨by omega, hbefore, hinside⟩

theorem contains_iff {q : Nat} : d.code.contains q = true ↔ d.operands.start ≤ q ∧ q ≤ d.store := by
  rw [SiteAnalysis.contains_iff, code, Nat.lt_succ_iff]

theorem insnAt_store : a.insnAt d.store = .var Opcode.astore d.var := (storeAfter?_spec d.stores).2.2.1

/-- Control leaves the code behind the store only, exceptions apart. -/
theorem leaves_at_store {p q : Nat} (hp : d.code.contains p = true) (hmove : a.flow.Allows p (.next q))
    (hq : d.code.contains q = false) : p = d.store := by
  obtain ⟨hle, hge⟩ := d.contains_iff.mp hp
  obtain ⟨_, hlookup, _⟩ := d.bounds
  by_contra hstore
  refine absurd (d.contains_iff.mpr ?_) (Bool.eq_false_iff.mp hq)
  rcases Flow.next_cases hmove with rfl | hjump
  · omega
  · by_cases hbefore : p ≤ d.lookup
    · -- Jumps of the look-up and its operands lead there, or right behind the look-up.
      have hremovable := d.spec.2.2.2.2
      unfold isRemovable at hremovable
      split at hremovable
      · simp only [Bool.and_eq_true, List.all_eq_true] at hremovable
        have hstays := (hremovable.2 p (Span.mem_positions.mpr ⟨hle, Nat.lt_succ_of_le hbefore⟩)).1.2
        have htarget := List.all_eq_true.mp hstays q hjump
        simp only [Bool.and_eq_true, decide_eq_true_eq] at htarget
        omega
      · cases hremovable
    · -- Between the look-up and the store there are lines only.
      have hline := (storeAfter?_spec d.stores).2.2.2 p (by omega) (by omega)
      change (a.flow.insnAt p).isReal = false at hline
      cases hinsn : a.flow.insnAt p with
      | label | line _ =>
        rw [hinsn] at hjump
        cases hjump
      | _ =>
        rw [hinsn] at hline
        cases hline

/-- What the store leaves on the stack is what was there ahead of the code. -/
theorem stack_at_store : ∃ known before, a.sources.frameAt d.store = some known ∧
    a.sources.frameAt d.operands.start = some before ∧ before.stack = known.stack.drop 1 := by
  have hremovable := d.spec.2.2.2.2
  unfold isRemovable at hremovable
  split at hremovable
  · rename_i before _ stack hbefore _ hstack
    obtain ⟨frame, hframe, rfl⟩ := Option.map_eq_some_iff.mp hbefore
    obtain ⟨known, hknown, rfl⟩ := Option.map_eq_some_iff.mp hstack
    simp only [Bool.and_eq_true, beq_iff_eq] at hremovable
    exact ⟨known, frame, hknown, hframe, hremovable.1.1.2⟩
  · cases hremovable

section Paths

variable (hproper : body.insns.Proper) (hrun : run m body = .ok a)

include hproper hrun

/-- The nodes of the code are at its positions only. -/
theorem idAt_not_mem {p : Nat} (hp : p < a.flow.size) (houtside : d.code.contains p = false) :
    a.idAt p ∉ a.realIds d.code := by
  intro hmem
  obtain ⟨q, hq, _, heq⟩ := mem_realIds.mp hmem
  have hcontains : d.code.contains q = true :=
    SiteAnalysis.contains_iff.mpr (Span.mem_positions.mp hq)
  have hinside := (d.contains_iff.mp hcontains).2.trans_lt d.bounds.2.2
  have hlist := Body.list_of_run hrun
  rw [idAt, idAt, Flow.idAt, Flow.idAt, hlist] at heq
  have hsize : a.flow.size = body.insns.size := by rw [Flow.size, hlist]
  obtain rfl := hproper.idAt_inj (hsize ▸ hp) (hsize ▸ hinside) heq
  rw [hcontains] at houtside
  cases houtside

/-- If the code pushed no value that is on the stack ahead of it, then no path finds one on the stack at a
position outside the code. -/
theorem none_outside (hmeet : a.sources.WidthsMeet m body) (hcarries : a.CarriesNone d.code)
    {entry held : Frame SourceValue} (hentry : Frame.entry (domainOf body) m body.maxLocals = .ok entry)
    {path : List Move} (hpath : a.flow.IsPath 0 path)
    (hheld : entry.follow (domainOf body) a.flow 0 path = .ok held)
    (houtside : d.code.contains (Flow.endOf 0 path) = false) :
    ∀ v ∈ held.stack, ∀ id ∈ v.producers, id ∉ a.realIds d.code := by
  obtain ⟨hsources, hflow⟩ := sources_of_run hrun
  induction path using List.reverseRecOn generalizing held with
  | nil =>
    obtain rfl := Except.ok.inj hheld
    rw [Frame.entry_stack hentry]
    exact nofun
  | append_singleton path move ih =>
    obtain ⟨hahead, hmove⟩ := (a.flow.isPath_append 0 path move).mp hpath
    obtain ⟨known, f, hknown, hf, hrel⟩ := agrees_of_widthsMeet hsources hmeet hentry (hflow ▸ hahead)
    rw [← hflow] at hf
    rw [Frame.follow_append_ok (domainOf body) a.flow hf] at hheld
    rw [Flow.endOf_append] at houtside
    cases move with
    | raise edge =>
      -- A handler starts with the exception alone, which nothing pushed.
      obtain rfl := Except.ok.inj hheld
      intro v hv id hid
      obtain rfl := List.mem_singleton.mp hv
      exact absurd hid List.not_mem_nil
    | next target =>
      by_cases hinside : d.code.contains (Flow.endOf 0 path) = true
      · -- The path comes from the store, which leaves the stack that was ahead of the code.
        have hstore := d.leaves_at_store hinside hmove houtside
        have hinsn : a.flow.insnAt (Flow.endOf 0 path) = .var Opcode.astore d.var := hstore ▸ d.insnAt_store
        obtain ⟨known', before, hknown', hbefore, hsame⟩ := d.stack_at_store
        rw [hstore, hknown', Option.some.injEq] at hknown
        subst hknown
        change f.execute (domainOf body) _ (a.flow.insnAt (Flow.endOf 0 path)) = .ok held at hheld
        rw [hinsn] at hheld
        intro v hv id hid
        rw [execute_astore_stack hheld] at hv
        obtain ⟨u, hu, hagrees⟩ := exists_of_forall₂ (List.forall₂_drop 1 hrel.stack).flip hv
        exact hcarries before hbefore u (hsame ▸ hu) id (hagrees.2 id hid)
      · rw [Bool.not_eq_true] at hinside
        have hbounds := d.bounds
        have hsize := Flow.Reaches.lt (flow_of_run hrun).1 (by omega) ⟨path, hahead, rfl⟩
        intro v hv id hid
        rcases execute_stack hheld hv with hv | hone
        · exact ih hahead hf hinside v hv id hid
        · rw [hone, List.mem_singleton] at hid
          exact hid ▸ d.idAt_not_mem hproper hrun hsize hinside

/-- If the code pushed no value that is on the stack ahead of it, then what it pushes is taken off the stack by
the code only. -/
theorem takesWithin_of_carriesNone (hmeet : a.sources.WidthsMeet m body) (hcarries : a.CarriesNone d.code) :
    a.sources.TakesWithin (a.realIds d.code) := by
  obtain ⟨hsources, hflow⟩ := sources_of_run hrun
  refine (popsWithin_iff hsources hmeet).mp fun entry path held hentry hpath hheld hid v hv => ?_
  rw [← hflow] at hpath hheld hid hv
  by_cases hinside : d.code.contains (Flow.endOf 0 path) = true
  · -- A label or a line takes nothing.
    have hreal : (a.flow.insnAt (Flow.endOf 0 path)).isReal = false := by
      by_contra hreal
      rw [Bool.not_eq_false] at hreal
      exact hid (mem_realIds.mpr ⟨_, Span.mem_positions.mpr (SiteAnalysis.contains_iff.mp hinside), hreal, rfl⟩)
    rw [Insn.taken_of_marker hreal] at hv
    exact absurd hv List.not_mem_nil
  · rw [Bool.not_eq_true] at hinside
    exact d.none_outside hproper hrun hmeet hcarries hentry hpath hheld hinside v
      (Insn.mem_stack_of_mem_taken hv)

end Paths

end DeadLookup

end SiteAnalysis

end DirectCall
