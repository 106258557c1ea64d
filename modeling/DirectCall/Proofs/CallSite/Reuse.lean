import DirectCall.Proofs.CallSite.Planning
import DirectCall.Proofs.CallSite.Operand
import DirectCall.Proofs.CallSite.Repeat
import DirectCall.Proofs.Code.Rule
import DirectCall.Proofs.Frame.Step

/-!
# The array in a local

If the argument array comes from a local, the direct call loads it from there again. Between the first load
and the call the local must not be written. The plan looks at the positions from the load up to the call; but
control may leave these and come back (`strayBody`). `keepsLoaded_iff` says what the plan guarantees, and what
it leaves open: writes outside that stretch, on a path through them.
-/

namespace DirectCall

open SiteAnalysis (keepsLocal)

/-- The domain replaces no values in other slots, and increments give narrow values. -/
structure Domain.Plain {V : Type} (d : Domain V) : Prop where
  refine : ∀ id insn operands, d.refine id insn operands = []
  increment : ∀ id slot delta v, d.size (d.unary id (.iinc slot delta) v) ≠ 2

/-! ## A local that is not written -/

theorem Opcode.between_of_effect_store {code : UInt8} (h : effect code = .store) :
    between istore astore code = true := by
  revert code
  apply Code.forall_byte
  decide +kernel

namespace Frame

variable {V : Type} {d : Domain V} {id : NodeId} {insn : Insn} {f g : Frame V} {v : V}

/-- A narrow value is not cut in half. -/
theorem cutWide_narrow {locals : Array V} {var : Nat} (hv : locals[var]? = some v) (hsize : d.size v ≠ 2)
    (slot : Nat) : (cutWide d locals slot)[var]? = some v := by
  unfold cutWide
  split
  · rename_i w hw
    split_ifs with hwide
    · rw [Array.getElem?_setIfInBounds_ne, hv]
      rintro rfl
      rw [hv] at hw
      exact hsize (Option.some.inj hw ▸ hwide)
    · exact hv
  · exact hv

/-- A store into another local, and not across this one, keeps a narrow value. -/
theorem setLocal_narrow {var slot : Nat} {w : V} (h : f.setLocal d slot w = .ok g)
    (hv : f.locals[var]? = some v) (hsize : d.size v ≠ 2) (hother : slot ≠ var)
    (hacross : d.size w = 2 → slot + 1 ≠ var) : g.locals[var]? = some v := by
  have hcut : (if 0 < slot then cutWide d f.locals (slot - 1) else f.locals)[var]? = some v := by
    split_ifs
    · exact cutWide_narrow hv hsize _
    · exact hv
  simp only [setLocal] at h
  by_cases hlast : (if d.size w = 2 then slot + 1 else slot) < f.locals.size
  · rw [if_pos hlast] at h
    obtain rfl := Except.ok.inj h
    have hset := hcut
    rw [← Array.getElem?_setIfInBounds_ne hother] at hset
    by_cases hwide : d.size w = 2
    · simp only [if_pos hwide]
      rw [Array.getElem?_setIfInBounds_ne (hacross hwide)]
      exact hset
    · simp only [if_neg hwide]
      exact hset
  · rw [if_neg hlast] at h
    cases h

/-- An instruction that does not write a local keeps a narrow value in it. -/
theorem execute_keepsLocal [DecidableEq V] (hd : d.Plain) {var : UInt16} (hkeeps : keepsLocal var insn = true)
    (hv : f.locals[var.toNat]? = some v) (hsize : d.size v ≠ 2) (h : f.execute d id insn = .ok g) :
    g.locals[var.toNat]? = some v := by
  unfold execute at h
  cases hcode : insn.opcode? with
  | none =>
    rw [hcode] at h
    obtain rfl := Except.ok.inj h
    exact hv
  | some code =>
    rw [hcode] at h
    obtain ⟨⟨operands, left⟩, hstep, h⟩ := bind_eq_ok.mp h
    obtain rfl := Except.ok.inj h
    rw [hd.refine]
    show left.locals[var.toNat]? = some v
    by_cases hstore : Opcode.effect code = .store
    · unfold step at hstep
      rw [hstore] at hstep
      obtain ⟨slot, a, rest, g, hslot, _, hset, heq⟩ := stepStore_eq_ok.mp hstep
      obtain ⟨_, rfl⟩ := Prod.mk.inj heq
      cases insn with
      | var code' slot' =>
        obtain rfl := Except.ok.inj hslot
        obtain rfl := Option.some.inj hcode
        simp only [keepsLocal, Opcode.between_of_effect_store hstore, Bool.true_and, Bool.not_eq_true',
          Bool.or_eq_false_iff, beq_eq_false_iff_ne] at hkeeps
        refine setLocal_narrow hset hv hsize (fun heq => hkeeps.1 (UInt16.toNat_inj.mp heq))
          fun _ => hkeeps.2
      | _ => cases hslot
    · by_cases hincrement : Opcode.effect code = .increment
      · unfold step at hstep
        rw [hincrement] at hstep
        obtain ⟨slot, delta, w, g, rfl, _, hset, heq⟩ := stepIncrement_eq_ok.mp hstep
        obtain ⟨_, rfl⟩ := Prod.mk.inj heq
        simp only [keepsLocal, bne_iff_ne] at hkeeps
        exact setLocal_narrow hset hv hsize (fun heq => hkeeps (UInt16.toNat_inj.mp heq))
          fun hwide => absurd hwide (hd.increment id slot delta w)
      · rw [step_locals_of_effect hstore hincrement hstep]
        exact hv

end Frame

/-! ## Paths from the load to the call -/

/-- The positions that a path leaves, one after another. -/
def Flow.passes : Nat → List Move → List Nat
  | _, [] => []
  | position, move :: rest => position :: passes move.target rest

/-- A path whose instructions do not write a local keeps a narrow value in it. -/
theorem Frame.follow_keepsLocal {V : Type} [DecidableEq V] {d : Domain V} (hd : d.Plain) {flow : Flow}
    {var : UInt16} {v : V} (hsize : d.size v ≠ 2) {path : List Move} {position : Nat} {f g : Frame V}
    (hkeeps : ∀ q ∈ Flow.passes position path, keepsLocal var (flow.insnAt q) = true)
    (hv : f.locals[var.toNat]? = some v) (h : f.follow d flow position path = .ok g) :
    g.locals[var.toNat]? = some v := by
  induction path generalizing position f with
  | nil =>
    obtain rfl := Except.ok.inj h
    exact hv
  | cons move rest ih =>
    rw [Flow.passes, List.forall_mem_cons] at hkeeps
    obtain ⟨handed, hpass, h⟩ := bind_eq_ok.mp h
    have hkept : handed.locals[var.toNat]? = some v := by
      cases move with
      | next target => exact execute_keepsLocal hd hkeeps.1 hv hsize hpass
      | raise edge =>
        obtain rfl := Except.ok.inj hpass
        exact hv
    exact ih hkeeps.2 hkept h

namespace SiteAnalysis

variable {a : SiteAnalysis} {var : UInt16} {load call : Nat} {code : Span}

/-- The path leads from the load to the call, and not through the load again. -/
structure Leads (a : SiteAnalysis) (load call : Nat) (path : List Move) : Prop where
  isPath : a.flow.IsPath load path
  ends : Flow.endOf load path = call
  once : load ∉ (Flow.passes load path).tail

/-- No path from the load to the call writes the local. -/
def KeepsLoaded (a : SiteAnalysis) (var : UInt16) (load call : Nat) : Prop :=
  ∀ path, a.Leads load call path → ∀ q ∈ Flow.passes load path, keepsLocal var (a.insnAt q) = true

/-- Where a path from the load to the call has left the stretch between them, it does not write the local. -/
def KeepsStray (a : SiteAnalysis) (var : UInt16) (load call : Nat) : Prop :=
  ∀ path, a.Leads load call path →
    ∀ q ∈ Flow.passes load path, q < load ∨ call ≤ q → keepsLocal var (a.insnAt q) = true

/-- Control does not leave the stretch between the load and the call but at its end. -/
def StaysBetween (a : SiteAnalysis) (load call : Nat) : Prop :=
  ∀ q move, load ≤ q → q < call → a.flow.Allows q move → load ≤ move.target ∧ move.target ≤ call

/-- In a stretch that control does not leave, a path that has not come to the call yet is still in it. -/
theorem StaysBetween.mem_passes (h : a.StaysBetween load call) {path : List Move} {position : Nat}
    (hposition : load ≤ position ∧ position ≤ call) (hpath : a.flow.IsPath position path)
    (hcall : call ∉ Flow.passes position path) : ∀ q ∈ Flow.passes position path, load ≤ q ∧ q < call := by
  induction path generalizing position with
  | nil => exact nofun
  | cons move rest ih =>
    rw [Flow.passes, List.mem_cons, not_or] at hcall
    have hlt : position < call := by omega
    rw [Flow.passes, List.forall_mem_cons]
    exact ⟨⟨hposition.1, hlt⟩, ih (h position move hposition.1 hlt hpath.1) hpath.2 hcall.2⟩

/-! ## What the plan looks at -/

/-- A plan that takes the array from a local has found a single load, and no write behind it. -/
theorem arguments_inLocal {length : Int32} (h : a.arguments call length = .inLocal var code) :
    a.spanOf call 2 invokeArity = some code ∧ (code.stop - code.start = 1 ∨ a.realCount code = 1) ∧
      a.loadedLocal? code = some var ∧ a.localUnchanged var code.stop call = true := by
  have hstored : ∀ array, a.storedArguments call array ≠ .inLocal var code := by
    intro array
    unfold storedArguments
    split
    · split_ifs <;> exact nofun
    · exact nofun
  unfold arguments at h
  dsimp only at h
  split_ifs at h with hlength
  split at h
  · cases h
  · rename_i s hs
    split_ifs at h with hsingle
    · split at h
      · rename_i loaded hloaded
        split_ifs at h with hload
        · obtain ⟨rfl, rfl⟩ := Arguments.inLocal.inj h
          exact ⟨hs, hsingle, hloaded, hload.2⟩
        · exact absurd h (hstored _)
      · exact absurd h (hstored _)
    · exact absurd h (hstored _)

theorem exists_load (h : a.loadedLocal? code = some var) :
    ∃ load ∈ code.positions, a.insnAt load = .var Opcode.aload var := by
  obtain ⟨load, hload, hfound⟩ := List.exists_of_findSome?_eq_some h
  refine ⟨load, hload, ?_⟩
  split at hfound
  · rename_i opcode loaded hinsn
    split_ifs at hfound with hopcode
    rw [hinsn, hopcode, Option.some.inj hfound]
  · cases hfound

/-- The load is the only instruction of its code. -/
theorem eq_load (h : code.stop - code.start = 1 ∨ a.realCount code = 1) (hload : load ∈ code.positions)
    (hinsn : a.insnAt load = .var Opcode.aload var) {q : Nat} (hq : q ∈ code.positions)
    (hreal : a.isReal q = true) : q = load := by
  rcases h with hone | hone
  · have := Span.mem_positions.mp hload
    have := Span.mem_positions.mp hq
    omega
  · obtain ⟨only, honly⟩ := List.length_eq_one_iff.mp hone
    have hmem : ∀ p ∈ code.positions, a.isReal p = true → p = only := by
      intro p hp hreal
      have : p ∈ code.positions.filter a.isReal := List.mem_filter.mpr ⟨hp, hreal⟩
      rw [honly] at this
      exact List.mem_singleton.mp this
    have hloadReal : a.isReal load = true := by
      rw [isReal, hinsn]
      rfl
    rw [hmem q hq hreal, hmem load hload hloadReal]

theorem keepsLocal_of_not_isReal {insn : Insn} (h : insn.isReal = false) : keepsLocal var insn = true := by
  cases insn with
  | label | line _ => rfl
  | _ => cases h

/-- No instruction between the load and the call writes the local. -/
theorem keepsLocal_between (h : code.stop - code.start = 1 ∨ a.realCount code = 1)
    (hload : load ∈ code.positions) (hinsn : a.insnAt load = .var Opcode.aload var)
    (hunchanged : a.localUnchanged var code.stop call = true) {q : Nat} (hle : load ≤ q) (hlt : q < call) :
    keepsLocal var (a.insnAt q) = true := by
  by_cases hq : q < code.stop
  · by_cases hreal : a.isReal q = true
    · have hinside := Span.mem_positions.mp hload
      rw [eq_load h hload hinsn (Span.mem_positions.mpr ⟨by omega, hq⟩) hreal, hinsn]
      rfl
    · exact keepsLocal_of_not_isReal (Bool.not_eq_true _ ▸ hreal)
  · exact List.all_eq_true.mp hunchanged q (Span.mem_positions.mpr ⟨Nat.le_of_not_lt hq, hlt⟩)

/-- A plan that takes the array from a local knows the load that pushed it. No path from there to the call
writes the local exactly if none does outside the stretch between the two, so none does on the way to the call
if control stays in that stretch. Along a path that does not write the local, it holds what was loaded. -/
theorem keepsLoaded_iff {ctx : MethodContext} {spent : Std.HashSet Nat} {frame : Frame ConstantValue}
    {site : PlannedSite} (h : a.plan ctx spent call frame = .ok site)
    (harguments : site.arguments = .inLocal var code) :
    ∃ load, code.contains load = true ∧ a.insnAt load = .var Opcode.aload var ∧
      (∀ q, code.contains q = true → a.isReal q = true → q = load) ∧
      (a.KeepsLoaded var load call ↔ a.KeepsStray var load call) ∧
      (a.StaysBetween load call → ∀ path, a.Leads load call path → call ∉ Flow.passes load path →
        ∀ q ∈ Flow.passes load path, keepsLocal var (a.insnAt q) = true) ∧
      ∀ path, a.Leads load call path →
        (∀ q ∈ Flow.passes load path, keepsLocal var (a.insnAt q) = true) →
          ∀ (V : Type) [DecidableEq V] (d : Domain V) (f g : Frame V) (v : V), d.Plain → d.size v ≠ 2 →
            f.locals[var.toNat]? = some v → f.follow d a.flow load path = .ok g →
              g.locals[var.toNat]? = some v := by
  obtain ⟨m, length, _, _, hplanned⟩ := (planned_of_plan h).known
  obtain ⟨hcode, hsingle, hloaded, hunchanged⟩ := arguments_inLocal (hplanned.symm.trans harguments)
  obtain ⟨load, hload, hinsn⟩ := exists_load hloaded
  have hcontains : ∀ q, code.contains q = true ↔ q ∈ code.positions := by
    intro q
    rw [Span.mem_positions, Span.contains, Bool.and_eq_true, decide_eq_true_iff, decide_eq_true_iff]
  have hbetween : ∀ q, load ≤ q → q < call → keepsLocal var (a.insnAt q) = true :=
    fun q hle hlt => keepsLocal_between hsingle hload hinsn hunchanged hle hlt
  refine ⟨load, (hcontains load).mpr hload, hinsn,
    fun q hq hreal => eq_load hsingle hload hinsn ((hcontains q).mp hq) hreal, ?_, ?_, ?_⟩
  · constructor
    · exact fun hkeeps path hpath q hq _ => hkeeps path hpath q hq
    · intro hkeeps path hpath q hq
      by_cases hstray : q < load ∨ call ≤ q
      · exact hkeeps path hpath q hq hstray
      · exact hbetween q (by omega) (by omega)
  · intro hstays path hpath hcall q hq
    have hahead : load ≤ call := by
      have := Span.mem_positions.mp hload
      have := spanOf_bounds hcode
      omega
    obtain ⟨hle, hlt⟩ := hstays.mem_passes ⟨le_rfl, hahead⟩ hpath.isPath hcall q hq
    exact hbetween q hle hlt
  · intro path _ hkeeps V _ d f g v hd hsize hv hfollow
    exact Frame.follow_keepsLocal hd hsize hkeeps hv hfollow

end SiteAnalysis

/-! ## A local that is written elsewhere

The array is loaded, then control leaves for the end of the body, where the local is set to null, and comes
back to the call. -/

def strayBody : Body where
  insns := InsnList.ofInsns #[
    .op 0x04, .ofClass Opcode.anewarray "java/lang/Object", .var Opcode.astore 0,
    .op 0x04, .ofClass Opcode.anewarray "java/lang/Class", .op Opcode.dup, .op Opcode.iconst0,
    .load (.classRef "java/lang/String"), .op Opcode.aastore, .var Opcode.astore 1,
    .load (.classRef "a/A"), .load (.string "f"), .var Opcode.aload 1, lookupCall,
    .op Opcode.aconstNull, .var Opcode.aload 0, .jump Opcode.goto ⟨21⟩,
    .label, invokeCall, .op Opcode.pop, .op Opcode.returnVoid,
    .label, .op Opcode.aconstNull, .var Opcode.astore 0, .jump Opcode.goto ⟨17⟩]
  regions := []
  locals := []
  maxStack := 4
  maxLocals := 2

def strayAnalysis : SiteAnalysis :=
  (SiteAnalysis.run calleeContext.method strayBody).toOption.get (by decide +kernel)

theorem strayAnalysis_run : SiteAnalysis.run calleeContext.method strayBody = .ok strayAnalysis :=
  eq_ok_get _

/-- The frame ahead of the call: the array is known, though its local does not hold it any more. -/
def strayFrame : Frame ConstantValue :=
  ⟨#[.unknown .single, .unknown .single], [.array (some ⟨1⟩) "java/lang/Object" 1 [], .unknown .single,
    .method ⟨⟨13⟩, "a/A", "f", ["Ljava/lang/String;"], false⟩]⟩

def straySite : PlannedSite :=
  ⟨18, Candidate.resolved ⟨calleeClass, calleeF⟩, ⟨["Ljava/lang/String;"], "V"⟩, ⟨10, 14⟩, none,
    .inLocal 0 ⟨15, 16⟩⟩

theorem strayAnalysis_evidence :
    strayAnalysis.sources.evidence 18 [0] = [10, 11, 12, 13] ∧
      strayAnalysis.sources.evidence 18 [2] = [15] := by
  have hall : [[0], [2]].map (strayAnalysis.sources.evidence 18) = [[10, 11, 12, 13], [15]] :=
    SourceAnalysis.evidence_map_of_reachWithin 100 (by decide +kernel)
  simpa using hall

theorem strayAnalysis_call :
    strayAnalysis.constants.getD 18 none = some strayFrame ∧
      strayAnalysis.methodCode? 18 = some ⟨10, 14⟩ ∧ strayAnalysis.methodLoad? ⟨10, 14⟩ = none ∧
        strayAnalysis.arguments 18 1 = .inLocal 0 ⟨15, 16⟩ := by
  obtain ⟨hmethod, harray⟩ := strayAnalysis_evidence
  simp only [SiteAnalysis.methodCode?, SiteAnalysis.arguments, SiteAnalysis.spanOf,
    SiteAnalysis.spanOfSlots, hmethod, harray]
  decide +kernel

theorem straySite_plan {spent : Std.HashSet Nat} (hspent : ∀ p, spent.contains p = false) :
    strayAnalysis.plan calleeContext spent 18 strayFrame = .ok straySite := by
  obtain ⟨_, hcode, hload, harguments⟩ := strayAnalysis_call
  have hplan := SiteAnalysis.plan_of_unspent strayFrame hspent rfl
    (target_f ⟨13⟩ (some ⟨1⟩) "java/lang/Object") hcode
  rw [hload, harguments] at hplan
  exact hplan

/-- The way round by the end of the body. -/
def strayPath : List Move := [.next 16, .next 21, .next 22, .next 23, .next 24, .next 17, .next 18]

theorem strayPath_leads :
    strayAnalysis.Leads 15 18 strayPath ∧ strayAnalysis.insnAt 23 = .var Opcode.astore 0 := by
  obtain ⟨hflow, _⟩ := SiteAnalysis.flow_of_run strayAnalysis_run
  have hsame : strayAnalysis.flow = ⟨strayBody.insns, strayBody.insns.positions, []⟩ :=
    Except.ok.inj (hflow.symm.trans rfl)
  rw [SiteAnalysis.insnAt, hsame]
  refine ⟨⟨?_, rfl, by decide⟩, by decide +kernel⟩
  rw [hsame]
  decide +kernel

theorem strayBody_writes : ¬ strayAnalysis.KeepsLoaded 0 15 18 := by
  intro hkeeps
  obtain ⟨hleads, hstore⟩ := strayPath_leads
  have hwritten := hkeeps strayPath hleads 23 (by decide)
  rw [hstore] at hwritten
  exact absurd hwritten (by decide)

/-- A plan that takes the array from a local does not make sure that the local is not written. -/
theorem not_forall_keepsLoaded :
    ¬ ∀ (ctx : MethodContext) body a spent call frame site var code load,
      SiteAnalysis.run ctx.method body = .ok a → a.constants.getD call none = some frame →
        a.plan ctx spent call frame = .ok site → site.arguments = .inLocal var code →
          code.contains load = true → a.insnAt load = .var Opcode.aload var →
            a.KeepsLoaded var load call := by
  intro hkeeps
  obtain ⟨hframe, _⟩ := strayAnalysis_call
  have hload : strayAnalysis.insnAt 15 = .var Opcode.aload 0 := by decide +kernel
  exact strayBody_writes (hkeeps calleeContext strayBody strayAnalysis ∅ 18 strayFrame straySite 0 ⟨15, 16⟩ 15
    strayAnalysis_run hframe (straySite_plan (by simp)) rfl rfl hload)

/-- The write that is overlooked lies outside the stretch. -/
theorem keepsLoaded_iff_stray : ∃ spent site, strayAnalysis.plan calleeContext spent 18 strayFrame = .ok site ∧
    site.arguments = .inLocal 0 ⟨15, 16⟩ ∧ ¬ strayAnalysis.KeepsStray 0 15 18 := by
  refine ⟨∅, straySite, straySite_plan (by simp), rfl, fun hkeeps => ?_⟩
  have hplan : strayAnalysis.plan calleeContext ∅ 18 strayFrame = .ok straySite := straySite_plan (by simp)
  obtain ⟨load, hcontains, _, _, hiff, _⟩ :=
    SiteAnalysis.keepsLoaded_iff hplan (rfl : straySite.arguments = _)
  obtain rfl : load = 15 := by
    simp only [Span.contains, Bool.and_eq_true, decide_eq_true_iff] at hcontains
    omega
  exact strayBody_writes (hiff.mpr hkeeps)

end DirectCall
