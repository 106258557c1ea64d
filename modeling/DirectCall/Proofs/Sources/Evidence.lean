import DirectCall.Proofs.Flow.Prune
import DirectCall.Proofs.Graph.Reach
import DirectCall.Proofs.Sources.Record
import Mathlib.Order.Bounds.Basic

/-!
# Evidence as a least closed set

What had a part in some of the values that an instruction uses is closed (`SourceAnalysis.IsEvidence`): it
holds the producers of each value that counts and, of a value with several producers, the branches that pass
over one of them. `SourceAnalysis.evidence` finds the least such set (`evidence_isLeast`). All producers that
the analysis names have a place in the body (`SourceAnalysis.used_placed`), so none gets lost on the way.
-/

namespace DirectCall

namespace Positions

/-- A node that is recorded has a position. -/
theorem exists_find?_record {ids : List NodeId} {slots : Array (Option Nat)} {position : Nat} {id : NodeId}
    (hid : id.index < slots.size) (h : id ∈ ids ∨ ∃ p, find? ⟨slots⟩ id = some p) :
    ∃ p, find? ⟨record slots position ids⟩ id = some p := by
  induction ids generalizing slots position with
  | nil => exact h.resolve_left List.not_mem_nil
  | cons first rest ih =>
    rw [record]
    refine ih (by rwa [Array.size_setIfInBounds]) ?_
    by_cases heq : first.index = id.index
    · right
      exact ⟨position, by simp [find?, heq, hid]⟩
    · rcases h with h | ⟨p, hp⟩
      · rcases List.mem_cons.mp h with rfl | h
        · exact absurd rfl heq
        · exact .inl h
      · right
        exact ⟨p, by simpa [find?, Array.getElem?_setIfInBounds, heq] using hp⟩

theorem exists_find? {list : InsnList} {id : NodeId} (hid : id.index < list.nodes.size)
    (h : id ∈ list.order) : ∃ p < list.size, list.positions.find? id = some p := by
  have hroom : id.index < (Array.replicate list.nodes.size (none : Option Nat)).size := by
    rwa [Array.size_replicate]
  obtain ⟨p, hp⟩ : ∃ p, list.positions.find? id = some p :=
    exists_find?_record hroom (.inl (Array.mem_toList_iff.mpr h))
  exact ⟨p, find?_lt hp, hp⟩

end Positions

open SourceValue

namespace SourceAnalysis

variable {m : MethodSig} {body : Body} {a : SourceAnalysis}

/-! ## What is used -/

/-- What instructions make of values has one producer at most. -/
theorem keepsAt_of {P : SourceValue → Prop} {size : Nat} {id : NodeId} {insn : Insn}
    (hnone : ∀ width, P ⟨width, []⟩) (hone : ∀ width, P ⟨width, [id]⟩) :
    (domain size).KeepsAt P id insn where
  unset := hnone _
  produce := hone _
  copy _ _ := hone _
  unary _ _ := hone _
  binary _ _ _ _ := hone _
  nary _ _ := hone _
  refine _ _ := nofun

theorem foldl_join_all {P : SourceValue → Prop} (hjoin : ∀ v w, P v → P w → P (v.join w)) {v : SourceValue}
    {vs : List SourceValue} (hv : P v) (hvs : ∀ w ∈ vs, P w) : P (vs.foldl SourceValue.join v) := by
  induction vs generalizing v with
  | nil => exact hv
  | cons w rest ih =>
    rw [List.forall_mem_cons] at hvs
    exact ih (hjoin v w hv hvs.1) hvs.2

theorem mergeCopies_all {P : SourceValue → Prop} (hjoin : ∀ v w, P v → P w → P (v.join w))
    {copied : List SourceValue} (h : ∀ v ∈ copied, P v) : ∀ v ∈ mergeCopies copied, P v := by
  cases copied with
  | nil => exact nofun
  | cons first rest =>
    obtain ⟨hfirst, hrest⟩ := List.forall_mem_cons.mp h
    exact fun v hv => List.mem_singleton.mp hv ▸ foldl_join_all hjoin hfirst hrest

theorem copied_all {V : Type} {P : V → Prop} {size : V → Nat} {copy : V → V}
    (hcopy : ∀ v, P v → P (copy v)) (kind : Shuffle) {stack copied rest : List V} (hstack : ∀ v ∈ stack, P v)
    (hrun : kind.run size copy stack = some (copied, rest)) : ∀ v ∈ copied, P v := by
  have hsame : List.Forall₂ (fun v w => (v = w ∧ P v) ∧ size v = size w) stack stack :=
    List.forall₂_same.mpr fun v hv => ⟨⟨rfl, hstack v hv⟩, rfl⟩
  have hcopies : ∀ v w, v = w ∧ P v → copy v = copy w ∧ P (copy v) :=
    fun v w h => ⟨congrArg copy h.1, hcopy v h.2⟩
  obtain ⟨_, _, hcopied, _⟩ := Frame.shuffle_sim hcopies kind hsame hrun
  exact (Frame.forall₂_eq_and.mp hcopied).2

/-- A property of all values in a frame that joins keep is one of the values that an instruction uses. -/
theorem usedBy_all {P : SourceValue → Prop} (hjoin : ∀ v w, P v → P w → P (v.join w)) {id : NodeId}
    {insn : Insn} (hkeeps : insn.opcode?.isSome = true → (domain 0).KeepsAt P id insn)
    {f : Frame SourceValue} (hf : f.All P) : ∀ v ∈ usedBy insn id f, P v := by
  obtain ⟨hlocals, hstack⟩ := Frame.all_iff.mp hf
  unfold usedBy
  cases hcode : insn.opcode? with
  | none => exact nofun
  | some code =>
    replace hkeeps := hkeeps (hcode ▸ rfl)
    have hstep : ∀ s, f.step (domain 0) id insn code = .ok s → ∀ v ∈ s.1, P v :=
      fun s hs => (Frame.step_all hkeeps hf hs).1
    cases heffect : Opcode.effect code with
    | unary _ | binary _ | storeElement | call | newMultiArray =>
      cases hresult : f.step (domain 0) id insn code with
      | error e => simp [heffect, hresult]
      | ok s => simpa [heffect, hresult] using hstep s hresult
    | increment =>
      cases insn with
      | iinc slot delta =>
        simp only [heffect, Option.mem_toList]
        exact fun v hv => hlocals v (Array.mem_of_getElem? hv)
      | _ => simp [heffect]
    | shuffle kind =>
      cases insn with
      | op opcode =>
        cases hrun : kind.run (domain 0).size ((domain 0).copy id (.op opcode)) f.stack with
        | none => simp [heffect, hrun]
        | some copied =>
          simp only [heffect, hrun]
          exact mergeCopies_all hjoin (copied_all hkeeps.copy kind hstack hrun)
      | _ => simp [heffect]
    | _ => simp [heffect]

/-- All producers of a value are listed in order, and have a place in the body. -/
structure Placed (a : SourceAnalysis) (body : Body) (v : SourceValue) : Prop where
  ordered : v.Ordered body.insns.nodes.size
  found : ∀ id ∈ v.producers, ∃ p < a.flow.size, a.flow.positions.find? id = some p

theorem Placed.join {v w : SourceValue} (hv : a.Placed body v) (hw : a.Placed body w) :
    a.Placed body (v.join w) :=
  ⟨hv.ordered.join hw.ordered, fun id hid => (mem_union.mp hid).elim (hv.found id) (hw.found id)⟩

theorem placed_none (a : SourceAnalysis) (body : Body) (width : Nat) : a.Placed body ⟨width, []⟩ :=
  ⟨⟨.nil, nofun⟩, nofun⟩

theorem placed_one (hflow : Flow.ofBody body = .ok a.flow) {p : Nat} (hp : p < a.flow.size)
    (hreal : (a.flow.insnAt p).opcode?.isSome = true) (width : Nat) :
    a.Placed body ⟨width, [a.flow.idAt p]⟩ := by
  have hid : (a.flow.idAt p).index < body.insns.nodes.size :=
    Flow.list_of_ofBody hflow ▸ InsnList.index_lt_of_opcode hreal
  refine ⟨ordered_singleton hid width, fun id hmem => ?_⟩
  obtain rfl := List.mem_singleton.mp hmem
  rw [Flow.positions_of_ofBody hflow, Flow.list_of_ofBody hflow, Flow.size_of_ofBody hflow]
  refine Positions.exists_find? hid (InsnList.mem_order.mpr ⟨p, Flow.size_of_ofBody hflow ▸ hp, ?_⟩)
  exact Flow.idAt_of_ofBody hflow p

/-- All producers of the values in frames have a place. -/
theorem frames_placed (h : run m body = .ok a) {p : Nat} {f : Frame SourceValue}
    (hf : a.frames.getD p none = some f) : p < a.flow.size ∧ f.All (a.Placed body) := by
  obtain ⟨hframes, hflow, _⟩ := run_eq_ok h
  obtain ⟨_, entry, _, hentry, _⟩ := Frame.analyze_closed (joinBounds _) hframes
  have hpos := (Frame.settle_of_analyze hframes hflow hentry).1
  have hkeeps : Frame.KeepsAll (domainOf body) a.flow (a.Placed body) :=
    Frame.keepsAll_of_keepsAt (fun q hq hreal => keepsAt_of (placed_none a body) (placed_one hflow hq hreal))
      fun _ _ _ => placed_none a body _
  refine Frame.analyze_invariant hframes hflow hentry (Q := fun q g => q < a.flow.size ∧ g.All (a.Placed body))
    (fun _ _ _ _ hf hg hjoined => ⟨hf.1, hf.2.join (fun _ _ => Placed.join) hg.2 hjoined⟩) ⟨hpos, ?entry⟩
    (fun _ _ _ _ hbefore hmove hpass =>
      ⟨hmove.target_lt hflow, hkeeps.pass hbefore.1 hbefore.2 hmove hpass⟩) p f hf
  exact Frame.entry_all (placed_none a body _) (placed_none a body _) (fun _ _ _ _ => placed_none a body _) hentry

theorem used_placed (h : run m body = .ok a) {p : Nat} {v : SourceValue} (hv : v ∈ a.consumedAt p) :
    a.Placed body v := by
  rw [consumedAt_final h p] at hv
  cases hf : a.frames.getD p none with
  | none => simp [hf] at hv
  | some f =>
    rw [hf] at hv
    obtain ⟨hp, hplaced⟩ := frames_placed h hf
    have hkeeps : (a.flow.insnAt p).opcode?.isSome = true →
        (domain 0).KeepsAt (a.Placed body) (a.flow.idAt p) (a.flow.insnAt p) :=
      fun hreal => keepsAt_of (placed_none a body) (placed_one (run_eq_ok h).2.1 hp hreal)
    exact usedBy_all (fun _ _ => Placed.join) hkeeps hplaced v hv

/-- The list is longer than one exactly if it names two producers, since it names none twice. -/
theorem Placed.one_lt_iff {v : SourceValue} (hv : a.Placed body v) :
    1 < v.producers.length ↔ ∃ id ∈ v.producers, ∃ other ∈ v.producers, id ≠ other := by
  have hnodup := nodup_of_pairwise hv.ordered.pairwise
  match hproducers : v.producers with
  | [] => simp
  | [id] => simp
  | id :: other :: rest =>
    rw [hproducers, List.nodup_cons] at hnodup
    have hne : id ≠ other := fun heq => hnodup.1 (heq ▸ List.mem_cons_self)
    have hlong : 1 < (id :: other :: rest).length := Nat.succ_lt_succ (Nat.succ_pos _)
    exact iff_of_true hlong ⟨id, by simp, other, by simp, hne⟩

/-! ## Branches -/

/-- The branch or switch at a position is reached, and one of its targets is another position than the next. -/
structure Leaves (flow : Flow) (branch target : Nat) : Prop where
  reached : flow.Reaches branch
  conditional : isConditional (flow.insnAt branch) = true
  leads : ∃ id ∈ (flow.insnAt branch).targets, flow.positions.find? id = some target
  elsewhere : target ≠ branch + 1

theorem lt_of_reaches (h : run m body = .ok a) {p : Nat} (hp : a.flow.Reaches p) : p < a.flow.size := by
  obtain ⟨hframes, hflow, _⟩ := run_eq_ok h
  obtain ⟨_, entry, _, hentry, _⟩ := Frame.analyze_closed (joinBounds _) hframes
  exact hp.lt hflow (Frame.settle_of_analyze hframes hflow hentry).1

theorem mem_mapM_iff {α β ε : Type} {f : α → Except ε β} {xs : List α} {ys : List β} (h : xs.mapM f = .ok ys)
    {y : β} : y ∈ ys ↔ ∃ x ∈ xs, f x = .ok y :=
  ⟨mem_mapM_ok h, fun ⟨x, hx, hy⟩ => by
    obtain ⟨z, hz, hfound⟩ := exists_of_forall₂ (mapM_eq_ok.mp h) hx
    exact Except.ok.inj (hfound.symm.trans hy) ▸ hz⟩

theorem conditionals_eq_ok (h : run m body = .ok a) :
    ∃ found, (List.range a.flow.size).mapM (conditionalsAt a.flow a.frames) = .ok found ∧
      a.conditionals = found.flatten := by
  obtain ⟨frames, hframes, h⟩ := bind_eq_ok.mp h
  obtain ⟨flow, hflow, h⟩ := bind_eq_ok.mp h
  obtain ⟨found, hfound, h⟩ := bind_eq_ok.mp h
  obtain rfl := Except.ok.inj h
  exact ⟨found, hfound, rfl⟩

theorem mem_conditionalsAt (h : run m body = .ok a) {position branch target : Nat} {found : List Conditional}
    (hfound : conditionalsAt a.flow a.frames position = .ok found) :
    ⟨branch, target⟩ ∈ found ↔ position = branch ∧ Leaves a.flow branch target := by
  obtain ⟨hframes, hflow, _⟩ := run_eq_ok h
  unfold conditionalsAt at hfound
  split_ifs at hfound with hleaves <;> rw [Bool.and_eq_true, Frame.isSome_iff_reaches hframes hflow] at hleaves
  · obtain ⟨targets, htargets, hfound⟩ := bind_eq_ok.mp hfound
    obtain rfl := Except.ok.inj hfound
    simp only [List.mem_map, List.mem_filter, decide_eq_true_eq, Conditional.mk.injEq, mem_mapM_iff htargets,
      Positions.find_eq_ok]
    constructor
    · rintro ⟨_, ⟨hlead, helsewhere⟩, rfl, rfl⟩
      exact ⟨rfl, hleaves.2, hleaves.1, hlead, helsewhere⟩
    · rintro ⟨rfl, hbranch⟩
      exact ⟨target, ⟨hbranch.leads, hbranch.elsewhere⟩, rfl, rfl⟩
  · obtain rfl := Except.ok.inj hfound
    refine iff_of_false List.not_mem_nil ?_
    rintro ⟨rfl, hbranch⟩
    exact hleaves ⟨hbranch.conditional, hbranch.reached⟩

/-- The analysis lists the branches that may leave for another place than the next. -/
theorem mem_conditionals (h : run m body = .ok a) {branch target : Nat} :
    ⟨branch, target⟩ ∈ a.conditionals ↔ Leaves a.flow branch target := by
  obtain ⟨found, hfound, hconditionals⟩ := conditionals_eq_ok h
  rw [hconditionals, List.mem_flatten]
  constructor
  · rintro ⟨lot, hlot, hmem⟩
    obtain ⟨position, _, hat⟩ := mem_mapM_ok hfound hlot
    exact ((mem_conditionalsAt h hat).mp hmem).2
  · intro hbranch
    have hinside : branch ∈ List.range a.flow.size := List.mem_range.mpr (lt_of_reaches h hbranch.reached)
    obtain ⟨lot, hlot, hat⟩ := exists_of_forall₂ (mapM_eq_ok.mp hfound) hinside
    exact ⟨lot, hlot, (mem_conditionalsAt h hat).mpr ⟨rfl, hbranch⟩⟩

/-! ## Evidence -/

/-- A value counts if it is in one of the given slots of what the consumer uses, or if a member of the set
uses it. -/
def Counts (a : SourceAnalysis) (consumer : Nat) (slots : List Nat) (E : Set Nat) (v : SourceValue) : Prop :=
  (∃ slot ∈ slots, (a.consumedAt consumer)[slot]? = some v) ∨ ∃ p ∈ E, v ∈ a.consumedAt p

/-- A set of positions that holds what had a part in the values that count: their producers and, where
there are several, the branches that may choose between them. -/
structure IsEvidence (a : SourceAnalysis) (consumer : Nat) (slots : List Nat) (E : Set Nat) : Prop where
  producers : ∀ v, a.Counts consumer slots E v → ∀ id ∈ v.producers,
    ∃ p ∈ E, a.flow.positions.find? id = some p
  branches : ∀ v, a.Counts consumer slots E v → (∃ id ∈ v.producers, ∃ other ∈ v.producers, id ≠ other) →
    ∀ id ∈ v.producers, ∀ p, a.flow.positions.find? id = some p →
      ∀ branch target, Leaves a.flow branch target → branch ≤ p → p ≤ target → branch ∈ E

theorem mem_producersOf {v : SourceValue} {p : Nat} :
    p ∈ a.producersOf v ↔ ∃ id ∈ v.producers, a.flow.positions.find? id = some p :=
  List.mem_filterMap

theorem mem_branchesOver (h : run m body = .ok a) {branch p : Nat} :
    branch ∈ a.branchesOver p ↔ ∃ target, Leaves a.flow branch target ∧ branch ≤ p ∧ p ≤ target := by
  simp only [branchesOver, List.mem_map, List.mem_filter, Bool.and_eq_true, decide_eq_true_eq]
  constructor
  · rintro ⟨⟨branch, target⟩, ⟨hmem, hrange⟩, rfl⟩
    exact ⟨target, (mem_conditionals h).mp hmem, hrange⟩
  · rintro ⟨target, hbranch, hrange⟩
    exact ⟨⟨branch, target⟩, ⟨(mem_conditionals h).mpr hbranch, hrange⟩, rfl⟩

/-- What had a direct part in a value. -/
theorem mem_feeders (h : run m body = .ok a) {v : SourceValue} (hv : a.Placed body v) {p : Nat} :
    p ∈ a.feeders v ↔ (∃ id ∈ v.producers, a.flow.positions.find? id = some p) ∨
      (∃ id ∈ v.producers, ∃ other ∈ v.producers, id ≠ other) ∧ ∃ q, (∃ id ∈ v.producers,
        a.flow.positions.find? id = some q) ∧ ∃ target, Leaves a.flow p target ∧ p ≤ q ∧ q ≤ target := by
  rw [← hv.one_lt_iff]
  unfold feeders
  dsimp only
  split_ifs with hone
  · rw [mem_producersOf, or_iff_left fun hseveral => Nat.not_lt.mpr hone hseveral.1]
  · rw [List.mem_append, mem_producersOf, List.mem_flatMap, and_iff_right (Nat.lt_of_not_le hone)]
    simp only [mem_producersOf, mem_branchesOver h]

theorem lt_of_mem_feeders (h : run m body = .ok a) {v : SourceValue} (hv : a.Placed body v) {p : Nat}
    (hp : p ∈ a.feeders v) : p < a.flow.size := by
  rcases (mem_feeders h hv).mp hp with ⟨id, _, hfound⟩ | ⟨_, _, _, _, hbranch, _⟩
  · rw [Flow.positions_of_ofBody (run_eq_ok h).2.1] at hfound
    exact Positions.find?_lt hfound
  · exact lt_of_reaches h hbranch.reached

/-- A value that counts is one that some instruction uses. -/
theorem Counts.placed (h : run m body = .ok a) {consumer : Nat} {slots : List Nat} {E : Set Nat}
    {v : SourceValue} (hv : a.Counts consumer slots E v) : a.Placed body v := by
  rcases hv with ⟨slot, _, hslot⟩ | ⟨p, _, hused⟩
  · exact used_placed h (List.mem_of_getElem? hslot)
  · exact used_placed h hused

/-- Evidence for some slots holds what had a direct part in the values that count. -/
theorem IsEvidence.feeders (h : run m body = .ok a) {consumer : Nat} {slots : List Nat} {E : Set Nat}
    (hE : a.IsEvidence consumer slots E) {v : SourceValue} (hv : a.Counts consumer slots E v) {p : Nat}
    (hp : p ∈ a.feeders v) : p ∈ E := by
  rcases (mem_feeders h (hv.placed h)).mp hp with
    ⟨id, hid, hfound⟩ | ⟨hseveral, q, ⟨id, hid, hfound⟩, target, hbranch, hle, hle'⟩
  · obtain ⟨p', hp', hfound'⟩ := hE.producers v hv id hid
    exact Option.some.inj (hfound.symm.trans hfound') ▸ hp'
  · exact hE.branches v hv hseveral id hid q hfound p target hbranch hle hle'

/-- A set that holds what had a direct part in the values that count is evidence for the slots. -/
theorem isEvidence_of_feeders (h : run m body = .ok a) {consumer : Nat} {slots : List Nat} {E : Set Nat}
    (hE : ∀ v, a.Counts consumer slots E v → ∀ p ∈ a.feeders v, p ∈ E) : a.IsEvidence consumer slots E where
  producers v hv id hid := by
    obtain ⟨p, _, hfound⟩ := (hv.placed h).found id hid
    exact ⟨p, hE v hv p ((mem_feeders h (hv.placed h)).mpr (.inl ⟨id, hid, hfound⟩)), hfound⟩
  branches v hv hseveral id hid q hfound branch target hbranch hle hle' :=
    hE v hv branch ((mem_feeders h (hv.placed h)).mpr
      (.inr ⟨hseveral, q, ⟨id, hid, hfound⟩, target, hbranch, hle, hle'⟩))

/-- The search goes from what had a direct part in the slots to what had one in what those use. -/
theorem mem_evidence_iff {consumer : Nat} {slots : List Nat} {p : Nat} :
    p ∈ a.evidence consumer slots ↔
      ∃ s, (∃ slot ∈ slots, ∃ v, (a.consumedAt consumer)[slot]? = some v ∧ s ∈ a.feeders v) ∧
        s < a.flow.size ∧ Relation.ReflTransGen (Graph.Leads a.feedersAt a.flow.size) s p := by
  rw [evidence, Graph.mem_members, Graph.reach_iff]
  constructor
  · rintro ⟨s, hs, hpath⟩
    obtain ⟨v, hv, hs⟩ := List.mem_flatMap.mp hs
    obtain ⟨slot, hslot, hv⟩ := List.mem_filterMap.mp hv
    exact ⟨s, ⟨slot, hslot, v, hv, hs⟩, hpath⟩
  · rintro ⟨s, ⟨slot, hslot, v, hv, hs⟩, hpath⟩
    exact ⟨s, List.mem_flatMap.mpr ⟨v, List.mem_filterMap.mpr ⟨slot, hslot, hv⟩, hs⟩, hpath⟩

/-- The evidence for some slots of what an instruction uses, without repeats, is the least set that holds the
producers of all values that count, and the branches that may choose between several of them. -/
theorem evidence_isLeast (h : run m body = .ok a) (consumer : Nat) (slots : List Nat) :
    IsLeast {E | a.IsEvidence consumer slots E} {p | p ∈ a.evidence consumer slots} ∧
      (a.evidence consumer slots).Pairwise (· < ·) := by
  refine ⟨⟨isEvidence_of_feeders h fun v hv p hp => ?_, fun E hE p hp => ?_⟩, Graph.pairwise_members _⟩
  · have hlt := lt_of_mem_feeders h (hv.placed h) hp
    rcases hv with ⟨slot, hslot, hv⟩ | ⟨q, hq, hv⟩
    · exact mem_evidence_iff.mpr ⟨p, ⟨slot, hslot, v, hv, hp⟩, hlt, .refl⟩
    · obtain ⟨s, hs, hinside, hpath⟩ := mem_evidence_iff.mp hq
      exact mem_evidence_iff.mpr ⟨s, hs, hinside, hpath.tail ⟨List.mem_flatMap.mpr ⟨v, hv, hp⟩, hlt⟩⟩
  · obtain ⟨s, ⟨slot, hslot, v, hv, hs⟩, _, hpath⟩ := mem_evidence_iff.mp hp
    clear hp
    -- Along the search every position is a member of the other set as well.
    induction hpath with
    | refl => exact hE.feeders h (.inl ⟨slot, hslot, hv⟩) hs
    | @tail q p _ hleads ih =>
      obtain ⟨w, hw, hp⟩ := List.mem_flatMap.mp hleads.1
      exact hE.feeders h (.inr ⟨q, ih, hw⟩) hp

/-! ### A choice between two arrays -/

/-- A static method with an int. -/
def choiceSig : MethodSig := ⟨"a/A", "m", "(I)V", 0x0008⟩

/-- The branch at 1 chooses between the arrays made at 3 and at 7, one of which the call at 9 takes. -/
def choiceBody : Body where
  insns := InsnList.ofInsns #[
    .var Opcode.iload 0, .jump Opcode.ifeq ⟨5⟩, .op Opcode.iconst0, .ofClass Opcode.anewarray "java/lang/Class",
    .jump Opcode.goto ⟨8⟩, .label, .op Opcode.iconst0, .ofClass Opcode.anewarray "java/lang/Class", .label,
    .call Opcode.invokestatic ⟨"a/Util", "take", "([Ljava/lang/Class;)V"⟩ false, .op Opcode.returnVoid]
  regions := []
  locals := []
  maxStack := 1
  maxLocals := 1

def choiceAnalysis : SourceAnalysis := (run choiceSig choiceBody).toOption.get (by decide +kernel)

theorem choiceAnalysis_run : run choiceSig choiceBody = .ok choiceAnalysis := eq_ok_get _

theorem choiceAnalysis_evidence : choiceAnalysis.evidence 9 [0] = [0, 1, 2, 3, 6, 7] :=
  evidence_of_reachWithin 100 (by decide +kernel)

/-- The evidence for the array that is taken has the branch, and what that one tests. -/
theorem evidence_isLeast_choice : run choiceSig choiceBody = .ok choiceAnalysis ∧
    IsLeast {E | choiceAnalysis.IsEvidence 9 [0] E} {0, 1, 2, 3, 6, 7} := by
  obtain ⟨hleast, _⟩ := evidence_isLeast choiceAnalysis_run 9 [0]
  rw [choiceAnalysis_evidence] at hleast
  have hsame : {p | p ∈ [0, 1, 2, 3, 6, 7]} = ({0, 1, 2, 3, 6, 7} : Set Nat) := by
    ext p
    simp
  exact ⟨choiceAnalysis_run, hsame ▸ hleast⟩

end SourceAnalysis

end DirectCall
