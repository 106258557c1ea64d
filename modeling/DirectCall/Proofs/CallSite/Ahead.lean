import DirectCall.Proofs.CallSite.Reuse
import DirectCall.Proofs.Flow.Prune
import DirectCall.Proofs.Graph.Reach

/-!
# The array ahead of the receiver

The code of the argument array may move ahead of the code of the receiver, if all that the two pass over is
pure. The plan looks at the positions between the two; control may leave these, write a local that the array
reads, and come back (`detourBody`). `keepsOperands_iff` says what the plan guarantees, and what it leaves open:
writes outside that stretch, on a path through them. Into the code of the receiver control comes at its start.
-/

namespace DirectCall

/-! ## Locals that an instruction accesses -/

namespace Insn

/-- The locals that hold a value. -/
def slotsFrom (slot : UInt16) (wide : Bool) : List Nat :=
  if wide then [slot.toNat, slot.toNat + 1] else [slot.toNat]

/-- The locals that a load reads. -/
def loadedSlots : Insn → List Nat
  | .var code slot =>
    if Opcode.between Opcode.iload Opcode.aload code then
      slotsFrom slot (code == Opcode.lload || code == Opcode.dload)
    else []
  | _ => []

/-- The locals that an instruction writes. -/
def writtenSlots : Insn → List Nat
  | .var code slot =>
    if Opcode.between Opcode.istore Opcode.astore code then
      slotsFrom slot (code == Opcode.lstore || code == Opcode.dstore)
    else []
  | .iinc slot _ => [slot.toNat]
  | _ => []

theorem slotsFrom_ne_nil (slot : UInt16) (wide : Bool) : slotsFrom slot wide ≠ [] := by
  cases wide <;> exact List.cons_ne_nil _ _

end Insn

theorem Opcode.not_store_of_load : ∀ code : UInt8, between iload aload code = true →
    between istore astore code = false := by
  apply Code.forall_byte
  decide +kernel

namespace Frame

variable {V : Type} {d : Domain V} {id : NodeId} {insn : Insn} {f g : Frame V}

/-- An instruction that writes no local leaves all of them as they are. -/
theorem execute_locals [DecidableEq V] (hrefine : ∀ id insn operands, d.refine id insn operands = [])
    (hwrites : insn.writtenSlots = []) (h : f.execute d id insn = .ok g) : g.locals = f.locals := by
  unfold execute at h
  cases hcode : insn.opcode? with
  | none =>
    rw [hcode] at h
    obtain rfl := Except.ok.inj h
    rfl
  | some code =>
    rw [hcode] at h
    obtain ⟨⟨operands, left⟩, hstep, h⟩ := bind_eq_ok.mp h
    obtain rfl := Except.ok.inj h
    rw [hrefine]
    show left.locals = f.locals
    refine step_locals_of_effect (fun hstore => ?store) (fun hincrement => ?increment) hstep
    case store =>
      unfold step at hstep
      rw [hstore] at hstep
      obtain ⟨_, _, _, _, hslot, _⟩ := stepStore_eq_ok.mp hstep
      cases insn with
      | var code' slot =>
        obtain rfl := Option.some.inj hcode
        rw [Insn.writtenSlots, if_pos (Opcode.between_of_effect_store hstore)] at hwrites
        exact Insn.slotsFrom_ne_nil _ _ hwrites
      | _ => cases hslot
    case increment =>
      unfold step at hstep
      rw [hincrement] at hstep
      obtain ⟨_, _, _, _, rfl, _⟩ := stepIncrement_eq_ok.mp hstep
      exact List.cons_ne_nil _ _ hwrites

/-- So does a path of such instructions. -/
theorem follow_locals [DecidableEq V] (hrefine : ∀ id insn operands, d.refine id insn operands = [])
    {flow : Flow} {path : List Move} {position : Nat}
    (hwrites : ∀ q ∈ Flow.passes position path, (flow.insnAt q).writtenSlots = [])
    (h : f.follow d flow position path = .ok g) : g.locals = f.locals := by
  induction path generalizing position f with
  | nil =>
    obtain rfl := Except.ok.inj h
    rfl
  | cons move rest ih =>
    rw [Flow.passes, List.forall_mem_cons] at hwrites
    obtain ⟨handed, hpass, h⟩ := bind_eq_ok.mp h
    have hhanded : handed.locals = f.locals := by
      cases move with
      | next target => exact execute_locals hrefine hwrites.1 hpass
      | raise edge =>
        obtain rfl := Except.ok.inj hpass
        rfl
    rw [ih hwrites.2 h, hhanded]

end Frame

/-! ## How control comes to a position -/

/-- Two positions of a path, one after the other, with the move between them. -/
theorem Flow.IsPath.allows_of_passes {flow : Flow} {path : List Move} {position p q : Nat}
    {before after : List Nat} (h : flow.IsPath position path)
    (hpasses : passes position path = before ++ p :: q :: after) :
    ∃ move, flow.Allows p move ∧ move.target = q := by
  induction before generalizing position path with
  | nil =>
    match path with
    | [] => cases hpasses
    | [_] => cases hpasses
    | move :: next :: rest =>
      obtain ⟨hp, hpasses⟩ := List.cons.inj hpasses
      obtain ⟨hq, _⟩ := List.cons.inj hpasses
      exact ⟨move, hp ▸ h.1, hq⟩
  | cons first before ih =>
    match path with
    | [] => cases hpasses
    | move :: rest => exact ih h.2 (List.cons.inj hpasses).2

/-- A path passes positions inside the body only. -/
theorem Flow.IsPath.passes_lt {flow : Flow} {body : Body} (hflow : Flow.ofBody body = .ok flow)
    {path : List Move} {position : Nat} (h : flow.IsPath position path) (hposition : position < flow.size) :
    ∀ q ∈ passes position path, q < flow.size := by
  induction path generalizing position with
  | nil => exact nofun
  | cons move rest ih =>
    rw [passes, List.forall_mem_cons]
    exact ⟨hposition, ih h.2 (h.1.target_lt hflow)⟩

/-- Exceptions apart, control passes on to the next position or along a jump. -/
theorem Flow.next_cases {flow : Flow} {p q : Nat} (h : flow.Allows p (.next q)) :
    q = p + 1 ∨ q ∈ (flow.insnAt p).targets.filterMap flow.positions.find? := by
  obtain ⟨targets, hsuccessors, hmem⟩ := h
  rcases (Flow.mem_successors_iff hsuccessors).mp hmem with ⟨jumps, hjumps, hmem⟩ | ⟨_, _, rfl⟩
  · obtain ⟨id, hid, hfind⟩ := mem_mapM_ok hjumps hmem
    exact .inr (List.mem_filterMap.mpr ⟨id, hid, Positions.find_eq_ok.mp hfind⟩)
  · exact .inl rfl

namespace SiteAnalysis

variable {a : SiteAnalysis} {m : MethodSig} {body : Body}

theorem getD_modify_cons {table : Array (List Nat)} {target source q : Nat} (hq : q < table.size) :
    (table.modify target (source :: ·)).getD q [] =
      if q = target then source :: table.getD q [] else table.getD q [] := by
  simp only [Array.getD_eq_getD_getElem?, Array.getElem?_modify]
  by_cases htarget : target = q
  · simp [htarget, hq]
  · simp [htarget, Ne.symm htarget]

/-- A source recorded for some targets is in the rows of these, and rows only grow. -/
theorem mem_recorded {targets : List Nat} {source q : Nat} {table : Array (List Nat)} (hq : q < table.size)
    {p : Nat} (hp : p ∈ table.getD q [] ∨ p = source ∧ q ∈ targets) :
    p ∈ (targets.foldl (fun table target => table.modify target (source :: ·)) table).getD q [] := by
  induction targets generalizing table with
  | nil => exact hp.resolve_right fun h => List.not_mem_nil h.2
  | cons target rest ih =>
    rw [List.foldl_cons]
    refine ih (by rwa [Array.size_modify]) ?_
    rw [getD_modify_cons hq]
    rcases hp with hp | ⟨rfl, hmem⟩
    · left
      by_cases htarget : q = target
      · exact if_pos htarget ▸ List.mem_cons_of_mem _ hp
      · exact if_neg htarget ▸ hp
    · rcases List.mem_cons.mp hmem with rfl | hmem
      · left
        rw [if_pos rfl]
        exact List.mem_cons_self
      · exact .inr ⟨rfl, hmem⟩

theorem size_recorded (targets : List Nat) (source : Nat) (table : Array (List Nat)) :
    (targets.foldl (fun table target => table.modify target (source :: ·)) table).size = table.size := by
  induction targets generalizing table with
  | nil => rfl
  | cons target rest ih => rw [List.foldl_cons, ih, Array.size_modify]

/-- Every jump to a position is recorded there. -/
theorem mem_incomingJumps {flow : Flow} {p q : Nat} (hp : p < flow.size) (hq : q < flow.size)
    (htarget : q ∈ (flow.insnAt p).targets.filterMap flow.positions.find?) :
    p ∈ (incomingJumps flow).getD q [] := by
  have hsize : ∀ sources : List Nat, (sources.foldr (fun source table =>
      ((flow.insnAt source).targets.filterMap flow.positions.find?).foldl
        (fun table target => table.modify target (source :: ·)) table)
      (Array.replicate flow.size [])).size = flow.size := by
    intro sources
    induction sources with
    | nil => exact Array.size_replicate
    | cons source rest ih => rw [List.foldr_cons, size_recorded, ih]
  have hmem : ∀ sources : List Nat, p ∈ sources → p ∈ (sources.foldr (fun source table =>
      ((flow.insnAt source).targets.filterMap flow.positions.find?).foldl
        (fun table target => table.modify target (source :: ·)) table)
      (Array.replicate flow.size [])).getD q [] := by
    intro sources
    induction sources with
    | nil => exact nofun
    | cons source rest ih =>
      intro hsource
      rw [List.foldr_cons]
      refine mem_recorded (by rwa [hsize]) ?_
      rcases List.mem_cons.mp hsource with rfl | hsource
      · exact .inr ⟨rfl, htarget⟩
      · exact .inl (ih hsource)
  exact hmem _ (List.mem_range.mpr hp)

/-- Control comes to a position from the one ahead, by a jump that is recorded, or into a handler that is
marked. -/
theorem exists_way_in (h : run m body = .ok a) {p q : Nat} {move : Move} (hp : p < a.flow.size)
    (hmove : a.flow.Allows p move) (htarget : move.target = q) :
    q = p + 1 ∨ p ∈ a.incoming.getD q [] ∨ a.isHandler q = true := by
  have hflow := (flow_of_run h).1
  have hq : q < a.flow.size := htarget ▸ Flow.Allows.target_lt hflow hmove
  obtain ⟨constants, _, h⟩ := bind_eq_ok.mp h
  obtain ⟨sources, _, h⟩ := bind_eq_ok.mp h
  cases h
  cases move with
  | next target =>
    obtain rfl : target = q := htarget
    exact (Flow.next_cases hmove).imp_right fun hjump => .inl (mem_incomingJumps hp hq hjump)
  | raise edge =>
    obtain rfl : edge.handler = q := htarget
    obtain ⟨r, hr, start, stop, handler, _, _, hfind, _, _, rfl⟩ := (Flow.mem_handlersAt_iff hflow).mp hmove.2
    refine .inr (.inr (Graph.getD_mark.mpr ⟨List.mem_filterMap.mpr
      ⟨r.handler, List.mem_map_of_mem hr, ?_⟩, hq⟩))
    show sources.flow.positions.find? r.handler = some handler
    have hpositions : sources.flow.positions = body.insns.positions := by
      rw [Flow.positions_of_ofBody hflow, Flow.list_of_ofBody hflow]
    rw [hpositions, Positions.find_eq_ok.mp hfind]

/-! ## Into the receiver -/

variable {s : Span} {consumer slot arity : Nat}

/-- A path that comes into the code from outside does so at its start. -/
def EntersAtStart (a : SiteAnalysis) (s : Span) : Prop :=
  ∀ path, a.flow.IsPath 0 path → ∀ before q after, Flow.passes 0 path = before ++ q :: after →
    s.contains q = true → (∀ p ∈ before.getLast?, s.contains p = false) → q = s.start

theorem contains_iff {q : Nat} : s.contains q = true ↔ s.start ≤ q ∧ q < s.stop := by
  rw [Span.contains, Bool.and_eq_true, decide_eq_true_iff, decide_eq_true_iff]

/-- What can be removed has no effect but on the stack, and nothing comes into it behind its start. -/
theorem spec_of_isRemovable (h : a.isRemovable s consumer slot arity = true) {q : Nat}
    (hq : s.contains q = true) : a.isPure q s = true ∧ a.isClosedAt s q = true := by
  unfold isRemovable at h
  split at h
  · simp only [Bool.and_eq_true, List.all_eq_true] at h
    obtain ⟨⟨hpure, _⟩, hclosed⟩ := h.2 q (Span.mem_positions.mpr (contains_iff.mp hq))
    exact ⟨hpure, hclosed⟩
  · cases h

theorem entersAtStart_of_isRemovable (h : run m body = .ok a)
    (hremovable : a.isRemovable s consumer slot arity = true) : a.EntersAtStart s := by
  intro path hpath before q after hpasses hq hbefore
  rcases List.eq_nil_or_concat before with rfl | ⟨before, p, rfl⟩
  · obtain rfl : q = 0 := by
      match path with
      | [] => cases hpasses
      | _ :: _ => exact (List.cons.inj hpasses).1.symm
    have := contains_iff.mp hq
    omega
  · have hp : s.contains p = false := hbefore p (by simp)
    rw [List.concat_eq_append, List.append_assoc] at hpasses
    obtain ⟨move, hmove, htarget⟩ := hpath.allows_of_passes hpasses
    have hflow := (flow_of_run h).1
    have hsize : 0 < a.flow.size := Nat.zero_lt_of_lt (Flow.Allows.target_lt hflow hmove)
    have hinside : p < a.flow.size := hpath.passes_lt hflow hsize p (by rw [hpasses]; simp)
    by_contra hstart
    have hclosed := (spec_of_isRemovable hremovable hq).2
    simp only [isClosedAt, Bool.or_eq_true, beq_iff_eq, hstart, false_or, Bool.and_eq_true,
      Bool.not_eq_true', List.all_eq_true] at hclosed
    rcases exists_way_in h hinside hmove htarget with rfl | hjump | hhandler
    · have hq := contains_iff.mp hq
      rw [Bool.eq_false_iff, Ne, contains_iff] at hp
      omega
    · rw [hclosed.2 p hjump] at hp
      cases hp
    · rw [hclosed.1] at hhandler
      cases hhandler

/-! ## What the array reads -/

variable {code : Span} {call r : Nat}

/-- The instruction writes no local that the code loads. -/
def KeepsRead (a : SiteAnalysis) (code : Span) (insn : Insn) : Prop :=
  ∀ q, code.contains q = true → ∀ slot ∈ (a.insnAt q).loadedSlots, slot ∉ insn.writtenSlots

/-- No path from the receiver to the array code writes a local that the array code loads. -/
def KeepsOperands (a : SiteAnalysis) (code : Span) (r : Nat) : Prop :=
  ∀ path, a.Leads r code.start path → ∀ q ∈ Flow.passes r path, a.KeepsRead code (a.insnAt q)

/-- Where a path from the receiver to the array code has left the stretch from there up to the call, it does
not write a local that the array code loads. -/
def KeepsOperandsStray (a : SiteAnalysis) (code : Span) (r call : Nat) : Prop :=
  ∀ path, a.Leads r code.start path →
    ∀ q ∈ Flow.passes r path, q < r ∨ call ≤ q → a.KeepsRead code (a.insnAt q)

theorem writtenSlots_of_isPure {q : Nat} (h : a.isPure q s = true) : (a.insnAt q).writtenSlots = [] := by
  unfold isPure at h
  dsimp only at h
  cases hinsn : a.insnAt q with
  | var code slot =>
    rw [hinsn] at h
    rw [Insn.writtenSlots, Opcode.not_store_of_load code h, if_neg Bool.false_ne_true]
  | iinc slot delta =>
    rw [hinsn] at h
    cases h
  | _ => rfl

/-- Nothing from the receiver up to the call writes a local, if the array moves. -/
theorem writtenSlots_between {receiver : Span} (h : a.canSwap call code receiver = true) {q : Nat}
    (hle : receiver.start ≤ q) (hlt : q < call) : (a.insnAt q).writtenSlots = [] := by
  simp only [canSwap, isMovable, Bool.and_eq_true, decide_eq_true_eq, List.all_eq_true] at h
  obtain ⟨⟨⟨⟨⟨_, ⟨hremovable, _⟩, _⟩, _⟩, hbetween⟩, _⟩, hbehind⟩ := h
  rcases Nat.lt_or_ge q code.start with hq | hq
  · rcases Bool.or_eq_true_iff.mp (hbetween q (Span.mem_positions.mpr ⟨hle, hq⟩)) with hpure | hpure
    · exact writtenSlots_of_isPure hpure
    · exact writtenSlots_of_isPure hpure
  · rcases Nat.lt_or_ge q code.stop with hq' | hq'
    · exact writtenSlots_of_isPure (spec_of_isRemovable hremovable (contains_iff.mpr ⟨hq, hq'⟩)).1
    · have hmarker := hbehind q (Span.mem_positions.mpr ⟨hq', hlt⟩)
      rw [Bool.not_eq_true', isReal] at hmarker
      cases hinsn : a.insnAt q with
      | label | line _ => rfl
      | _ =>
        rw [hinsn] at hmarker
        cases hmarker

/-- Stored arguments move only ahead of a receiver that they can change places with. -/
theorem canSwap_of_storedArguments {array : Option Span} (h : a.storedArguments call array = .moved code r) :
    array = some code ∧ ∃ receiver, a.spanOf call 1 invokeArity = some receiver ∧ receiver.start = r ∧
      a.canSwap call code receiver = true := by
  unfold storedArguments at h
  split at h
  · rename_i receiver hreceiver
    split_ifs at h with hswap
    obtain ⟨rfl, rfl⟩ := Arguments.moved.inj h
    exact ⟨rfl, receiver, hreceiver, rfl, hswap⟩
  · cases h

theorem storedArguments_of_moved {length : Int32} (h : a.arguments call length = .moved code r) :
    a.storedArguments call (a.spanOf call 2 invokeArity) = .moved code r := by
  unfold arguments at h
  dsimp only at h
  split_ifs at h
  split at h
  · cases h
  · rename_i s hs
    rw [hs]
    split_ifs at h
    · split at h
      · split_ifs at h
        exact h
      · exact h
    · exact h

/-- A plan that moves the array ahead of the receiver knows the code of the receiver, which ends ahead of the
array. No path between the two writes a local that the array loads exactly if none does outside the stretch
from the receiver up to the call; if control does not leave the stretch between the two, no local is written
and all stay as they are. A path comes into the code of the receiver at its start. -/
theorem keepsOperands_iff {ctx : MethodContext} {spent : Std.HashSet Nat} {frame : Frame ConstantValue}
    {site : PlannedSite} (hrun : run m body = .ok a) (h : a.plan ctx spent call frame = .ok site)
    (harguments : site.arguments = .moved code r) :
    ∃ receiver, a.spanOf call 1 invokeArity = some receiver ∧ receiver.start = r ∧
      receiver.stop ≤ code.start ∧ (a.KeepsOperands code r ↔ a.KeepsOperandsStray code r call) ∧
      (a.StaysBetween r code.start → ∀ path, a.Leads r code.start path →
        code.start ∉ Flow.passes r path → (∀ q ∈ Flow.passes r path, (a.insnAt q).writtenSlots = []) ∧
          ∀ (V : Type) [DecidableEq V] (d : Domain V) (f g : Frame V),
            (∀ id insn operands, d.refine id insn operands = []) →
              f.follow d a.flow r path = .ok g → g.locals = f.locals) ∧
      a.EntersAtStart receiver := by
  obtain ⟨m, length, _, _, hplanned⟩ := (planned_of_plan h).known
  obtain ⟨harray, receiver, hreceiver, rfl, hswap⟩ :=
    canSwap_of_storedArguments (storedArguments_of_moved (hplanned.symm.trans harguments))
  have hbetween : ∀ q, receiver.start ≤ q → q < call → (a.insnAt q).writtenSlots = [] :=
    fun q hle hlt => writtenSlots_between hswap hle hlt
  simp only [canSwap, isMovable, Bool.and_eq_true, decide_eq_true_eq, List.all_eq_true] at hswap
  obtain ⟨⟨⟨⟨⟨hahead, _⟩, hremovable⟩, _⟩, _⟩, _⟩ := hswap
  refine ⟨receiver, hreceiver, rfl, hahead, ?_, ?_, entersAtStart_of_isRemovable hrun hremovable⟩
  · constructor
    · exact fun hkeeps path hpath q hq _ => hkeeps path hpath q hq
    · intro hkeeps path hpath q hq
      by_cases hstray : q < receiver.start ∨ call ≤ q
      · exact hkeeps path hpath q hq hstray
      · intro p _ slot _
        rw [hbetween q (by omega) (by omega)]
        exact List.not_mem_nil
  · intro hstays path hpath hcode
    have hreceiverBounds := spanOf_bounds hreceiver
    have harrayBounds := spanOf_bounds harray
    have hwrites : ∀ q ∈ Flow.passes receiver.start path, (a.insnAt q).writtenSlots = [] := by
      intro q hq
      obtain ⟨hle, hlt⟩ := hstays.mem_passes ⟨le_rfl, by omega⟩ hpath.isPath hcode q hq
      exact hbetween q hle (by omega)
    exact ⟨hwrites, fun V _ d f g hrefine hfollow => Frame.follow_locals hrefine hwrites hfollow⟩

end SiteAnalysis

/-! ## A local that is written on a detour

Local 1 holds the length of the array. Behind the receiver control leaves for the end of the body, where the
local is written, and comes back to the code of the array. -/

def detourBody : Body where
  insns := InsnList.ofInsns #[
    .op 0x04, .ofClass Opcode.anewarray "java/lang/Class", .op Opcode.dup, .op Opcode.iconst0,
    .load (.classRef "java/lang/String"), .op Opcode.aastore, .var Opcode.astore 0,
    .op Opcode.iconst0, .var Opcode.istore 1,
    .load (.classRef "a/A"), .load (.string "f"), .var Opcode.aload 0, lookupCall,
    .op Opcode.aconstNull, .jump Opcode.goto ⟨21⟩,
    .label, .var Opcode.iload 1, .ofClass Opcode.anewarray "java/lang/Object", invokeCall, .op Opcode.pop,
    .op Opcode.returnVoid,
    .label, .op 0x04, .var Opcode.istore 1, .jump Opcode.goto ⟨15⟩]
  regions := []
  locals := []
  maxStack := 4
  maxLocals := 2

def detourAnalysis : SiteAnalysis :=
  (SiteAnalysis.run calleeContext.method detourBody).toOption.get (by decide +kernel)

theorem detourAnalysis_run : SiteAnalysis.run calleeContext.method detourBody = .ok detourAnalysis :=
  eq_ok_get _

/-- The frame ahead of the call: the array has the length that the detour sets. -/
def detourFrame : Frame ConstantValue :=
  ⟨#[.unknown .single, .int 1], [.array (some ⟨17⟩) "java/lang/Object" 1 [], .unknown .single,
    .method ⟨⟨12⟩, "a/A", "f", ["Ljava/lang/String;"], false⟩]⟩

def detourSite : PlannedSite :=
  ⟨18, Candidate.resolved ⟨calleeClass, calleeF⟩, ⟨["Ljava/lang/String;"], "V"⟩, ⟨9, 13⟩, none,
    .moved ⟨16, 18⟩ 13⟩

theorem detourAnalysis_evidence :
    detourAnalysis.sources.evidence 18 [0] = [9, 10, 11, 12] ∧
      detourAnalysis.sources.evidence 18 [1] = [13] ∧ detourAnalysis.sources.evidence 18 [2] = [16, 17] := by
  have hall : [[0], [1], [2]].map (detourAnalysis.sources.evidence 18) =
      [[9, 10, 11, 12], [13], [16, 17]] :=
    SourceAnalysis.evidence_map_of_reachWithin 100 (by decide +kernel)
  simpa using hall

theorem detourAnalysis_call :
    detourAnalysis.constants.getD 18 none = some detourFrame ∧
      detourAnalysis.methodCode? 18 = some ⟨9, 13⟩ ∧ detourAnalysis.methodLoad? ⟨9, 13⟩ = none ∧
        detourAnalysis.spanOf 18 1 SiteAnalysis.invokeArity = some ⟨13, 14⟩ ∧
          detourAnalysis.arguments 18 1 = .moved ⟨16, 18⟩ 13 := by
  obtain ⟨hmethod, hreceiver, harray⟩ := detourAnalysis_evidence
  simp only [SiteAnalysis.methodCode?, SiteAnalysis.arguments, SiteAnalysis.storedArguments,
    SiteAnalysis.spanOf, SiteAnalysis.spanOfSlots, hmethod, hreceiver, harray]
  decide +kernel

theorem detourSite_plan {spent : Std.HashSet Nat} (hspent : ∀ p, spent.contains p = false) :
    detourAnalysis.plan calleeContext spent 18 detourFrame = .ok detourSite := by
  obtain ⟨_, hcode, hload, _, harguments⟩ := detourAnalysis_call
  have hplan := SiteAnalysis.plan_of_unspent detourFrame hspent rfl
    (target_f ⟨12⟩ (some ⟨17⟩) "java/lang/Object") hcode
  rw [hload, harguments] at hplan
  exact hplan

/-- The detour by the end of the body. -/
def detourPath : List Move := [.next 14, .next 21, .next 22, .next 23, .next 24, .next 15, .next 16]

theorem detourPath_leads : detourAnalysis.Leads 13 16 detourPath ∧
    detourAnalysis.insnAt 16 = .var Opcode.iload 1 ∧ detourAnalysis.insnAt 23 = .var Opcode.istore 1 := by
  obtain ⟨hflow, _⟩ := SiteAnalysis.flow_of_run detourAnalysis_run
  have hsame : detourAnalysis.flow = ⟨detourBody.insns, detourBody.insns.positions, []⟩ :=
    Except.ok.inj (hflow.symm.trans rfl)
  rw [SiteAnalysis.insnAt, SiteAnalysis.insnAt, hsame]
  refine ⟨⟨?_, rfl, by decide⟩, by decide +kernel, by decide +kernel⟩
  rw [hsame]
  decide +kernel

theorem detourBody_writes : ¬ detourAnalysis.KeepsOperands ⟨16, 18⟩ 13 := by
  intro hkeeps
  obtain ⟨hleads, hload, hstore⟩ := detourPath_leads
  have hkept := hkeeps detourPath hleads 23 (by decide) 16 (by decide) 1
  rw [hload, hstore] at hkept
  exact hkept (by decide) (by decide)

/-- A plan that moves the array does not make sure that what the array reads is not written. -/
theorem not_forall_keepsOperands :
    ¬ ∀ (ctx : MethodContext) body a spent call frame site code r receiver,
      SiteAnalysis.run ctx.method body = .ok a → a.constants.getD call none = some frame →
        a.plan ctx spent call frame = .ok site → site.arguments = .moved code r →
          a.spanOf call 1 SiteAnalysis.invokeArity = some receiver →
            a.KeepsOperands code r ∧ a.EntersAtStart receiver := by
  intro hkeeps
  obtain ⟨hframe, _, _, hreceiver, _⟩ := detourAnalysis_call
  exact detourBody_writes (hkeeps calleeContext detourBody detourAnalysis ∅ 18 detourFrame detourSite ⟨16, 18⟩ 13
    ⟨13, 14⟩ detourAnalysis_run hframe (detourSite_plan (by simp)) rfl hreceiver).1

/-- The write that is overlooked lies outside the stretch up to the call. -/
theorem keepsOperands_iff_detour : ∃ spent site,
    detourAnalysis.plan calleeContext spent 18 detourFrame = .ok site ∧
      site.arguments = .moved ⟨16, 18⟩ 13 ∧ ¬ detourAnalysis.KeepsOperandsStray ⟨16, 18⟩ 13 18 := by
  refine ⟨∅, detourSite, detourSite_plan (by simp), rfl, fun hkeeps => ?_⟩
  have hplan : detourAnalysis.plan calleeContext ∅ 18 detourFrame = .ok detourSite :=
    detourSite_plan (by simp)
  obtain ⟨_, _, _, _, hiff, _⟩ :=
    SiteAnalysis.keepsOperands_iff detourAnalysis_run hplan (rfl : detourSite.arguments = _)
  exact detourBody_writes (hiff.mpr hkeeps)

end DirectCall
