import DirectCall.Proofs.CallSite.LiveHandlers
import DirectCall.Proofs.Flow.Survive
import DirectCall.Proofs.Flow.Thinned
import DirectCall.Proofs.Frame.Solver

/-!
# What pruning removes

Each step of pruning leaves all that control gets to, and all regions that cover some of it
(`Flow.Thins.step`). Conversely control gets to every instruction that is left, if it gets on from wherever it
gets to (`pruneUnreachable_exact`); a body that an analysis accepts is like that. Otherwise more may be left:
the block graph takes a return from a subroutine for an instruction that control passes
(`not_forall_prune_exact`).
-/

namespace DirectCall

open Relation

/-! ## Steps -/

namespace Body

variable {a b c : Body}

theorem PruneStep.others (h : PruneStep a b) : b = { a with insns := b.insns, regions := b.regions } := by
  cases h with
  | drop hdrop =>
    obtain ⟨_, rfl⟩ := dropEmptyRegions_eq_ok.mp hdrop
    rfl
  | sweep _ _ => rfl

theorem others_of_steps (h : ReflTransGen PruneStep a b) :
    b = { a with insns := b.insns, regions := b.regions } := by
  induction h with
  | refl => rfl
  | tail _ hstep ih =>
    rw [ih] at hstep
    exact hstep.others

theorem PruneStep.partOf (h : PruneStep a b) (ha : a.insns.Proper) : b.insns.PartOf a.insns := by
  cases h with
  | drop hdrop =>
    obtain ⟨_, rfl⟩ := dropEmptyRegions_eq_ok.mp hdrop
    exact .refl _
  | sweep _ _ => exact InsnList.partOf_commit_removeAll ha _

theorem partOf_of_steps (h : ReflTransGen PruneStep a b) (ha : a.insns.Proper) :
    b.insns.PartOf a.insns := by
  induction h with
  | refl => exact .refl _
  | tail _ hstep ih => exact (hstep.partOf (ih.proper ha)).trans ih

/-- Only instructions are removed. -/
theorem isReal_of_removed (h : ReflTransGen PruneStep a b) (ha : a.insns.Proper) {id : NodeId}
    (hid : id ∈ a.insns.order) (hout : id ∉ b.insns.order) : (a.insns.get id).isReal = true := by
  induction h with
  | refl => exact absurd hid hout
  | @tail b c hsteps hstep ih =>
    by_cases hmem : id ∈ b.insns.order
    · have hpart := partOf_of_steps hsteps ha
      cases hstep with
      | drop hdrop =>
        obtain ⟨_, rfl⟩ := dropEmptyRegions_eq_ok.mp hdrop
        exact absurd hmem hout
      | sweep hdead _ =>
        rw [← hpart.get]
        suffices hid : id ∈ _ from (mem_order_of_unreachable hdead hid).2
        by_contra hlive
        exact hout ((InsnList.mem_order_commit_removeAll (hpart.proper ha)).mpr ⟨hmem, hlive⟩)
    · exact ih hmem

/-- A region that covers an instruction which is left is not dropped. -/
theorem PruneStep.uncovered (hstep : PruneStep b c) (ha : a.insns.Proper) (hpart : b.insns.PartOf a.insns)
    {stays : Region → Bool} (hregions : b.regions = a.regions.filter stays)
    (hgone : ∀ r ∈ a.regions, stays r = false → a.Uncovered b r) :
    ∃ stays : Region → Bool, c.regions = a.regions.filter stays ∧
      ∀ r ∈ a.regions, stays r = false → a.Uncovered c r := by
  have hb := hpart.proper ha
  cases hstep with
  | drop hdrop =>
    obtain ⟨hasked, rfl⟩ := dropEmptyRegions_eq_ok.mp hdrop
    refine ⟨fun r => stays r && (covers b.insns b.insns.positions r).toOption.getD false, ?_, ?_⟩
    · show b.regions.filter _ = _
      rw [hregions, List.filter_filter]
      exact List.filter_congr fun _ _ => Bool.and_comm _ _
    · intro r hr hout
      by_cases hstays : stays r = true
      · intro id hid
        obtain ⟨covered, hcovered⟩ := hasked r (by rw [hregions]; exact List.mem_filter.mpr ⟨hr, hstays⟩)
        obtain ⟨⟨start, stop, hstart, hstop⟩, hiff⟩ := covers_eq_ok.mp hcovered
        obtain ⟨p, hspans, hidAt⟩ := hpart.guards ha (hb.find?_eq_some.mp hstart).1
          (hb.find?_eq_some.mp hstop).1 hid.placed hid.guarded
        have hreal : (b.insns.insnAt p).isReal = true := by
          rw [InsnList.insnAt, hidAt, hpart.get]
          exact hid.isReal
        obtain rfl : covered = true := hiff.mpr ⟨p, hspans, hreal⟩
        simp only [hstays, hcovered, Bool.true_and] at hout
        cases hout
      · exact fun id hid =>
          hgone r hr (Bool.eq_false_iff.mpr hstays) id ⟨hid.guarded, hid.placed, hid.isReal⟩
  | sweep _ _ =>
    refine ⟨stays, hregions, fun r hr hout id hid => hgone r hr hout id ?_⟩
    exact hid.of_part (InsnList.partOf_commit_removeAll hb _)

theorem regions_of_steps (h : ReflTransGen PruneStep a b) (ha : a.insns.Proper) :
    ∃ stays : Region → Bool, b.regions = a.regions.filter stays ∧
      ∀ r ∈ a.regions, stays r = false → a.Uncovered b r := by
  induction h with
  | refl => exact ⟨fun _ => true, (List.filter_true _).symm, fun _ _ => nofun⟩
  | tail hsteps hstep ih =>
    obtain ⟨stays, hregions, hgone⟩ := ih
    exact hstep.uncovered ha (partOf_of_steps hsteps ha) hregions hgone

/-- A body that keeps what control gets to is thinned out by its steps. -/
theorem thins_of_kept (h : ReflTransGen PruneStep a b) (ha : a.insns.Proper) {f : Flow}
    (hf : Flow.ofBody a = .ok f) (hkept : ∀ id, f.GetsTo id → id ∈ b.insns.order) : Flow.Thins a b f := by
  obtain ⟨stays, hregions, hgone⟩ := regions_of_steps h ha
  refine ⟨ha, partOf_of_steps h ha, hf, hkept, stays, hregions, fun r hr hout p hp hreal hspans => ?_⟩
  rw [Flow.insnAt_of_ofBody hf] at hreal
  refine hgone r hr hout (a.insns.idAt p) ⟨⟨p, hspans, rfl⟩, hkept _ ⟨p, ?_, hp, Flow.idAt_of_ofBody hf p⟩, hreal⟩
  rw [Flow.size_of_ofBody hf]
  exact hspans.lt

/-- What control gets to is left. -/
theorem thins_of_steps (h : ReflTransGen PruneStep a b) (ha : a.insns.Proper) {f : Flow}
    (hf : Flow.ofBody a = .ok f) : Flow.Thins a b f := by
  refine thins_of_kept h ha hf ?_
  induction h with
  | refl => exact fun _ hid => hid.mem_order hf
  | @tail b c hsteps hstep ih =>
    have hthins := thins_of_kept hsteps ha hf ih
    intro id hid
    cases hstep with
    | drop hdrop =>
      obtain ⟨_, rfl⟩ := dropEmptyRegions_eq_ok.mp hdrop
      exact ih id hid
    | sweep hdead _ =>
      have hb := hthins.proper'
      obtain ⟨_, e, _, he, _⟩ := unreachable_spec hdead
      refine (InsnList.mem_order_commit_removeAll hb).mpr ⟨ih id hid, ?_⟩
      exact not_dead_of_getsTo hdead hb (List.Subset.refl _) he (hthins.getsTo he hid)

/-! ## How much is removed -/

end Body

/-- Blocks follow each other. -/
theorem Flow.pairwise_blocksOf {size : Nat} {starts : List Nat} (hsorted : starts.Pairwise (· < ·))
    (hinside : ∀ s ∈ starts, s < size) : (blocksOf size starts).Pairwise fun b c => b.stop ≤ c.start := by
  induction starts with
  | nil => exact .nil
  | cons start rest ih =>
    obtain ⟨hfirst, hrest⟩ := List.pairwise_cons.mp hsorted
    have hlater : ∀ s ∈ rest, s < size := fun s hs => hinside s (List.mem_cons_of_mem _ hs)
    cases rest with
    | nil => exact List.pairwise_singleton _ _
    | cons next rest =>
      refine List.pairwise_cons.mpr ⟨fun c hc => ?_, ih hrest hlater⟩
      obtain ⟨hstart, _⟩ := (mem_blocksOf hrest hlater).mp hc
      rcases List.mem_cons.mp hstart with heq | hmem
      · exact Nat.le_of_eq heq.symm
      · exact Nat.le_of_lt ((List.pairwise_cons.mp hrest).1 _ hmem)

namespace Body

variable {body : Body} {dead : List NodeId}

theorem nodup_realBetween {list : InsnList} (h : list.Proper) {start stop : Nat} (hstop : stop ≤ list.size) :
    (realBetween list start stop).Nodup := by
  refine List.Nodup.filter _ (List.Nodup.map_on (fun p hp q hq heq => ?_) List.nodup_range')
  rw [List.mem_range'_1] at hp hq
  exact h.idAt_inj (by omega) (by omega) heq

/-- No dead instruction is named twice. -/
theorem nodup_unreachable (hproper : body.insns.Proper) (h : body.unreachable = .ok dead) : dead.Nodup := by
  obtain ⟨g, hg, h⟩ := bind_eq_ok.mp h
  obtain rfl := Except.ok.inj h
  obtain ⟨f, hflow, _⟩ := bind_eq_ok.mp hg
  have hdraws := BlockGraph.draws_of_ofBody hg hflow
  have hinside : ∀ b ∈ g.blocks, b.stop ≤ body.insns.size := by
    intro b hb
    have := ((hdraws.mem_blocks).mp hb).inside
    rwa [Flow.size_of_ofBody hflow] at this
  obtain ⟨marks, hmarks, hblocks⟩ := hdraws.leaders
  have hpairs : g.blocks.Pairwise fun b c => b.stop ≤ c.start := by
    rw [hblocks]
    exact Flow.pairwise_blocksOf (Graph.pairwise_members marks) fun s hs => ((Flow.mem_starts hmarks).mp hs).1
  refine List.nodup_flatMap.mpr ⟨fun b hb => ?_, ?_⟩
  · exact nodup_realBetween hproper (hinside b (List.mem_filter.mp hb).1)
  · refine ((hpairs.imp_of_mem fun {b c} hb hc hle => ?_).filter _)
    intro id hmem hmem'
    obtain ⟨p, _, hp, _, rfl⟩ := mem_realBetween.mp hmem
    obtain ⟨q, hq, hq', _, heq⟩ := mem_realBetween.mp hmem'
    have := hinside b hb
    have := hinside c hc
    obtain rfl := hproper.idAt_inj (by omega) (by omega) heq
    omega

theorem size_sweep (hproper : body.insns.Proper) (h : body.unreachable = .ok dead) :
    (body.sweep dead).insns.size + dead.length = body.insns.size := by
  have hdead : (body.insns.order.toList.filter fun id => decide (id ∈ dead)).Perm dead := by
    rw [List.perm_ext_iff_of_nodup (hproper.distinct.filter _) (nodup_unreachable hproper h)]
    intro id
    rw [List.mem_filter, decide_eq_true_iff]
    exact ⟨And.right, fun hid => ⟨by simpa using (mem_order_of_unreachable h hid).1, hid⟩⟩
  have hleft := InsnList.toList_commit_removeAll hproper dead
  have hsplit := List.length_eq_length_filter_add (l := body.insns.order.toList) fun id => decide (id ∈ dead)
  rw [hdead.length_eq, ← hleft] at hsplit
  show (body.insns.commit (EditPlan.empty.removeAll dead)).order.size + dead.length = body.insns.order.size
  rw [← Array.length_toList, ← Array.length_toList, hsplit, Nat.add_comm]

theorem pruneRounds_count {rounds removed total : Nat} {b : Body} (hproper : body.insns.Proper)
    (h : pruneRounds rounds body removed = .ok (b, total)) :
    b.insns.size + total = body.insns.size + removed := by
  induction rounds generalizing body removed with
  | zero =>
    obtain ⟨rfl, rfl⟩ := Prod.mk.inj (Except.ok.inj h)
    rfl
  | succ rounds ih =>
    obtain ⟨kept, hkept, h⟩ := bind_eq_ok.mp h
    obtain ⟨dead, hdead, h⟩ := bind_eq_ok.mp h
    have hsame : kept.insns = body.insns := by
      obtain ⟨_, rfl⟩ := dropEmptyRegions_eq_ok.mp hkept
      rfl
    split_ifs at h
    · obtain ⟨rfl, rfl⟩ := Prod.mk.inj (Except.ok.inj h)
      rw [hsame]
    · have hkeptProper : kept.insns.Proper := hsame ▸ hproper
      have hsize : (kept.insns.commit (EditPlan.empty.removeAll dead)).size + dead.length = kept.insns.size :=
        size_sweep hkeptProper hdead
      have hrest := ih ((InsnList.partOf_commit_removeAll hkeptProper dead).proper hkeptProper) h
      rw [hrest, ← hsame]
      show (kept.insns.commit (EditPlan.empty.removeAll dead)).size + (removed + dead.length) = _
      omega

/-! ## What is left -/

/-- What pruning leaves of a body. -/
structure Leaves (a b : Body) (f : Flow) (removed : Nat) : Prop where
  part : b.insns.PartOf a.insns
  others : b = { a with insns := b.insns, regions := b.regions }
  count : b.insns.size + removed = a.insns.size
  isReal : ∀ id ∈ a.insns.order, id ∉ b.insns.order → (a.insns.get id).isReal = true
  reached : ∀ id, f.GetsTo id → id ∈ b.insns.order
  regions : ∃ stays : Region → Bool, b.regions = a.regions.filter stays ∧
    ∀ r ∈ a.regions, (stays r = true ↔ ∃ id, a.Survives b r id)
  again : b.pruneUnreachable = .ok (b, 0)

/-- The instructions left are those that control gets to, the regions left those around one of them. -/
structure Exact (a b : Body) (f : Flow) : Prop where
  insns : ∀ id ∈ a.insns.order, (a.insns.get id).isReal = true → (id ∈ b.insns.order ↔ f.GetsTo id)
  regions : ∃ stays : Region → Bool, b.regions = a.regions.filter stays ∧
    ∀ r ∈ a.regions, (stays r = true ↔
      ∃ id, a.insns.Guards r id ∧ (a.insns.get id).isReal = true ∧ f.GetsTo id)

/-- A region that covers an instruction of a part covers it in the list. -/
theorem survives_of_covering {a b : Body} (hpart : b.insns.PartOf a.insns) (ha : a.insns.Proper)
    (hcovering : b.Covering) {r : Region} (hr : r ∈ b.regions) : ∃ id, a.Survives b r id := by
  have hb := hpart.proper ha
  obtain ⟨_, hcovers⟩ := covers_eq_ok.mp (hcovering r hr)
  obtain ⟨p, hspans, hreal⟩ := hcovers.mp rfl
  have hp := hspans.lt
  obtain ⟨start, stop, hstart, hstop, hle, hlt⟩ := hspans
  obtain ⟨hstart', rfl⟩ := hb.find?_eq_some.mp hstart
  obtain ⟨hstop', rfl⟩ := hb.find?_eq_some.mp hstop
  have hid : b.insns.idAt p ∈ b.insns.order := InsnList.mem_order.mpr ⟨p, hp, rfl⟩
  rw [← hb.rank_idAt hp] at hle hlt
  have hspans : a.insns.Spans r (a.insns.rank (b.insns.idAt p)) :=
    ⟨_, _, ha.find?_eq_some.mpr ⟨hpart.mem hstart', rfl⟩, ha.find?_eq_some.mpr ⟨hpart.mem hstop', rfl⟩,
      (hpart.rank_le_iff ha hstart' hid).mp hle, (hpart.rank_lt_iff ha hid hstop').mp hlt⟩
  refine ⟨b.insns.idAt p, ⟨_, hspans, (ha.rank_lt (hpart.mem hid)).2⟩, hid, ?_⟩
  rw [← hpart.get]
  exact hreal

theorem Clean.pruneUnreachable_eq (h : body.Clean) : body.pruneUnreachable = .ok (body, 0) :=
  pruneRounds_of_live h.covering.dropEmptyRegions_eq h.live

theorem leaves_of_prune (hproper : body.insns.Proper) {f : Flow} (hflow : Flow.ofBody body = .ok f)
    {kept : Body} {removed : Nat} (hrun : body.pruneUnreachable = .ok (kept, removed)) :
    body.Leaves kept f removed := by
  have hpruned := pruneUnreachable_spec hrun
  have hthins := thins_of_steps hpruned.steps hproper hflow
  have hcount := pruneRounds_count hproper hrun
  obtain ⟨stays, hregions, hgone⟩ := regions_of_steps hpruned.steps hproper
  refine ⟨hthins.part, others_of_steps hpruned.steps, hcount,
    fun id => isReal_of_removed hpruned.steps hproper, hthins.kept, ⟨stays, hregions, fun r hr => ⟨?_, ?_⟩⟩,
    hpruned.clean.pruneUnreachable_eq⟩
  · intro hstays
    refine survives_of_covering hthins.part hproper hpruned.clean.covering ?_
    rw [hregions]
    exact List.mem_filter.mpr ⟨hr, hstays⟩
  · rintro ⟨id, hid⟩
    by_contra hout
    exact hgone r hr (Bool.eq_false_iff.mpr hout) id hid

/-- If control gets on from wherever it gets to, all that is left is reached. -/
theorem exact_of_getsOn (hproper : body.insns.Proper) {f : Flow} (hflow : Flow.ofBody body = .ok f)
    {kept : Body} {removed : Nat} (hrun : body.pruneUnreachable = .ok (kept, removed))
    (hgets : ∀ p, f.Reaches p → f.GetsOn p) : body.Exact kept f := by
  have hpruned := pruneUnreachable_spec hrun
  have hthins := thins_of_steps hpruned.steps hproper hflow
  obtain ⟨_, e, _, he, _⟩ := unreachable_spec hpruned.clean.live
  have hleft : ∀ id ∈ body.insns.order, (body.insns.get id).isReal = true →
      (id ∈ kept.insns.order ↔ f.GetsTo id) := by
    intro id hid hreal
    refine ⟨fun hmem => ?_, hthins.kept id⟩
    have hsize : 0 < f.size := by
      have := (hproper.rank_lt hid).1
      rw [hthins.size_eq]
      omega
    obtain ⟨hlt, hidAt⟩ := hthins.proper'.rank_lt hmem
    rw [← Flow.size_of_ofBody he] at hlt
    rw [← Flow.idAt_of_ofBody he] at hidAt
    -- Where control gets on in the body it gets on in what is left of it.
    have hgets' : ∀ q, e.Reaches q → e.GetsOn q := by
      intro q hq
      obtain ⟨p, hp, rfl⟩ := hthins.exists_of_reaches he hsize (fun p hp => (hgets p hp).successors) hq
      have hsame := hthins.sameAt he hp (hp.lt hflow hsize)
      obtain ⟨⟨targets, htargets⟩, hends⟩ := hgets p hp
      refine ⟨⟨_, hsame.successors targets htargets⟩, ?_⟩
      rw [hsame.insn]
      exact hends
    refine hthins.getsTo_of_getsTo he (fun p hp => (hgets p hp).successors) hsize
      ⟨kept.insns.rank id, hlt, hpruned.clean.reaches_of_getsOn he hgets' hlt ?_, hidAt⟩
    rw [Flow.idAt_of_ofBody he] at hidAt
    rw [Flow.insnAt_of_ofBody he, InsnList.insnAt, hidAt, hthins.part.get]
    exact hreal
  obtain ⟨stays, hregions, hstays⟩ := (leaves_of_prune hproper hflow hrun).regions
  refine ⟨hleft, stays, hregions, fun r hr => (hstays r hr).trans (exists_congr fun id => ?_)⟩
  constructor
  · rintro ⟨hguards, hmem, hreal⟩
    exact ⟨hguards, hreal, (hleft id (hthins.part.mem hmem) hreal).mp hmem⟩
  · rintro ⟨hguards, hreal, hgets⟩
    exact ⟨hguards, hthins.kept id hgets, hreal⟩

end Body

namespace Frame

open Hierarchy (freeze)

/-- If the analysis of the first body succeeds, so does that of the second one, and each node that is left has
the frame that it had. -/
def Carries {V : Type} [DecidableEq V] (d : Domain V) (m : MethodSig) (a b : Body) : Prop :=
  ∀ frames, analyze d m a = .ok frames → ∃ frames', analyze d m b = .ok frames' ∧
    ∀ id ∈ b.insns.order, SameFrame a.insns b.insns frames frames' id

end Frame

namespace Body

open Hierarchy (freeze)

/-- What pruning that succeeds leaves. Of the instructions it removes none that control gets to, and it counts
those that it removes. Labels and lines stay, all in their order, and exactly the regions that cover an
instruction which is left; to prune again changes nothing. If control gets on from wherever it gets to, exactly
the instructions that it gets to are left. That is so if the solver comes to frames, in whatever domain; the
positions with a frame are those that control gets to, and the solver comes to the same frames behind the
pruning. -/
theorem pruneUnreachable_exact {kept : Body} {removed : Nat} {f : Flow} (hproper : body.insns.Proper)
    (hflow : Flow.ofBody body = .ok f) (hrun : body.pruneUnreachable = .ok (kept, removed)) :
    body.Leaves kept f removed ∧
      ((∀ p, f.Reaches p → f.GetsOn p) → body.Exact kept f) ∧
      (∀ (V : Type) [DecidableEq V] (d : Domain V) m frames, Frame.Settles d m body frames →
        body.Exact kept f ∧ (∀ p, (frames.getD p none).isSome = true ↔ f.Reaches p) ∧
          ∃ frames', Frame.Settles d m kept frames' ∧
            ∀ id ∈ kept.insns.order, Frame.SameFrame body.insns kept.insns frames frames' id) ∧
      ∀ m, Frame.Carries ConstantValue.domain m body kept ∧
        Frame.Carries (SourceValue.domain body.insns.nodes.size) m body kept ∧
        ∀ table : ClassTable, (∀ name, ¬ TransGen table.Link name name) →
          Frame.Carries (VerificationType.domain (freeze table) m) m body kept := by
  have hpruned := pruneUnreachable_spec hrun
  have hthins := thins_of_steps hpruned.steps hproper hflow
  have hleaves := leaves_of_prune hproper hflow hrun
  obtain ⟨_, e, _, he, _⟩ := unreachable_spec hpruned.clean.live
  have hlocals : kept.maxLocals = body.maxLocals := by rw [hleaves.others]
  have hcarries : ∀ {V : Type} [DecidableEq V] {d : Domain V} {m : MethodSig}, Frame.Ends d m kept →
      Frame.Carries d m body kept := by
    intro V _ d m hends frames hframes
    obtain ⟨frames', hframes', hsame⟩ := hthins.settles he hlocals (Frame.settles_of_analyze hframes)
    exact ⟨frames', hframes'.analyze_eq hends, hsame⟩
  refine ⟨hleaves, exact_of_getsOn hproper hflow hrun, fun V _ d m frames hframes => ?_, fun m => ⟨?_, ?_, ?_⟩⟩
  · exact ⟨exact_of_getsOn hproper hflow hrun fun p => Flow.getsOn_of_settles hframes hflow,
      hframes.isSome_iff_reaches hflow, hthins.settles he hlocals hframes⟩
  · exact hcarries (ConstantValue.ends m kept)
  · rw [← hthins.part.nodes]
    exact hcarries (SourceValue.ends m kept)
  · exact fun table hacyclic => hcarries (VerificationType.ends hacyclic m kept)

/-! ## A region over dead code -/

/-- A jump over an instruction that would not find its operand, with a handler for it. -/
def skipBody : Body where
  insns := .ofInsns #[.jump Opcode.goto ⟨4⟩, .label, .op Opcode.pop, .label, .label, .op Opcode.returnVoid]
  regions := [⟨⟨1⟩, ⟨3⟩, ⟨4⟩, none⟩]
  locals := []
  maxStack := 1
  maxLocals := 0

/-- Neither the instruction is left nor the region. -/
def skipRest : Body :=
  { skipBody with
    insns := { skipBody.insns with order := #[⟨0⟩, ⟨1⟩, ⟨3⟩, ⟨4⟩, ⟨5⟩] }
    regions := [] }

def skipSig : MethodSig := ⟨"a/A", "skip", "()V", 8⟩

theorem skipBody_proper : skipBody.insns.Proper := InsnList.ofInsns_proper _

/-- What is dead in the body, and then in what is left of it. -/
theorem skipBody_unreachable : skipBody.unreachable = .ok [⟨2⟩] ∧ skipRest.unreachable = .ok [] := by
  have hgraph : (BlockGraph.ofBody skipBody).toOption =
      some ⟨[⟨0, 1⟩, ⟨1, 4⟩, ⟨4, 6⟩], [⟨0, 4, .branch⟩, ⟨1, 4, .fallThrough⟩, ⟨1, 4, .exception⟩]⟩ := by
    decide +kernel
  have hrest : (BlockGraph.ofBody skipRest).toOption =
      some ⟨[⟨0, 1⟩, ⟨1, 3⟩, ⟨3, 5⟩], [⟨0, 3, .branch⟩, ⟨1, 3, .fallThrough⟩]⟩ := by
    decide +kernel
  exact ⟨unreachable_of_reachWithin 10 (ok_of_toOption hgraph) rfl rfl (by decide +kernel),
    unreachable_of_reachWithin 10 (ok_of_toOption hrest) rfl rfl (by decide +kernel)⟩

theorem skipBody_pruned : skipBody.pruneUnreachable = .ok (skipRest, 1) := by
  obtain ⟨hdead, hlive⟩ := skipBody_unreachable
  have hcount : skipBody.realCount = 3 := by decide +kernel
  have hcovers : (covers skipBody.insns skipBody.insns.positions ⟨⟨1⟩, ⟨3⟩, ⟨4⟩, none⟩).toOption =
      some true := by
    decide +kernel
  have hcovering : skipBody.Covering := fun r hr => List.mem_singleton.mp hr ▸ ok_of_toOption hcovers
  have hnone : (covers skipRest.insns skipRest.insns.positions ⟨⟨1⟩, ⟨3⟩, ⟨4⟩, none⟩).toOption =
      some false := by
    decide +kernel
  have horder : (skipBody.insns.order.toList.filter fun id => !decide (id ∈ [(⟨2⟩ : NodeId)])).toArray =
      skipRest.insns.order := by
    decide +kernel
  have hinsns : skipBody.insns.commit (EditPlan.empty.removeAll [⟨2⟩]) = skipRest.insns :=
    (InsnList.commit_removeAll_eq skipBody_proper [⟨2⟩]).trans
      (congrArg (InsnList.mk skipBody.insns.nodes) horder)
  have hsweep : skipBody.sweep [⟨2⟩] = { skipRest with regions := skipBody.regions } :=
    congrArg (fun insns => { skipBody with insns := insns }) hinsns
  rw [pruneUnreachable, hcount, pruneRounds_of_dead hcovering.dropEmptyRegions_eq hdead (by simp),
    hsweep]
  refine pruneRounds_of_live (dropEmptyRegions_eq_ok.mpr ⟨fun r hr => ?_, ?_⟩) hlive
  · exact ⟨false, List.mem_singleton.mp hr ▸ ok_of_toOption hnone⟩
  · have hkept : (skipBody.regions.filter fun r =>
        (covers skipRest.insns skipRest.insns.positions r).toOption.getD false) = [] := by
      rw [List.filter_eq_nil_iff]
      intro r hr
      rw [List.mem_singleton.mp hr, ok_of_toOption hnone]
      exact Bool.false_ne_true
    exact congrArg (fun regions => { skipRest with regions := regions }) hkept.symm

theorem pruneUnreachable_exact_skip : ∃ f frames frames',
    Frame.analyze ConstantValue.domain skipSig skipBody = .ok frames ∧
      Frame.analyze ConstantValue.domain skipSig skipRest = .ok frames' ∧
        skipBody.Leaves skipRest f 1 ∧ skipBody.Exact skipRest f := by
  have hframes : (Frame.analyze ConstantValue.domain skipSig skipBody).toOption.isSome = true := by
    decide +kernel
  have hflow : (Flow.ofBody skipBody).toOption.isSome = true := by decide +kernel
  obtain ⟨hleaves, _, hexact, hcarries⟩ :=
    pruneUnreachable_exact skipBody_proper (eq_ok_get hflow) skipBody_pruned
  obtain ⟨hconstants, _, _⟩ := hcarries skipSig
  obtain ⟨frames', hframes', _⟩ := hconstants _ (eq_ok_get hframes)
  obtain ⟨hexact, _, _⟩ := hexact _ _ _ _ (Frame.settles_of_analyze (eq_ok_get hframes))
  exact ⟨_, _, frames', eq_ok_get hframes, hframes', hleaves, hexact⟩

/-! ## Behind a return from a subroutine -/

def retBody : Body where
  insns := .ofInsns #[.var Opcode.ret 0, .op Opcode.returnVoid]
  regions := []
  locals := []
  maxStack := 0
  maxLocals := 1

/-- No block starts behind the return from the subroutine, so the search passes over it. -/
theorem retBody_pruned : retBody.pruneUnreachable = .ok (retBody, 0) := by
  have hgraph : (BlockGraph.ofBody retBody).toOption = some ⟨[⟨0, 2⟩], []⟩ := by decide +kernel
  have hlive : retBody.unreachable = .ok [] :=
    unreachable_of_reachWithin 10 (ok_of_toOption hgraph) rfl rfl (by decide +kernel)
  exact pruneRounds_of_live rfl hlive

/-- Control stops at the first instruction, and the second one is real. -/
theorem retBody_stops : (Flow.successors ⟨retBody.insns, retBody.insns.positions, []⟩ 0).toOption = some [] ∧
    (Flow.ofBody retBody).toOption.isSome = true ∧
      (∀ id ∈ retBody.insns.order, ∀ target ∈ (retBody.insns.get id).targets, target ∈ retBody.insns.order) ∧
        retBody.insns.idAt 0 ≠ ⟨1⟩ ∧ ⟨1⟩ ∈ retBody.insns.order ∧ (retBody.insns.get ⟨1⟩).isReal = true := by
  refine ⟨?_, ?_, ?_, ?_, ?_, ?_⟩ <;> decide +kernel

theorem retBody_stays {f : Flow} (hflow : Flow.ofBody retBody = .ok f) : ¬ f.GetsTo ⟨1⟩ := by
  obtain ⟨hnone, _, _, hother, _⟩ := retBody_stops
  obtain rfl : ⟨retBody.insns, retBody.insns.positions, []⟩ = f := Except.ok.inj hflow
  rintro ⟨p, _, hp, hidAt⟩
  have hfirst : p = 0 := by
    refine hp.induct (P := fun p => p = 0) rfl ?_
    rintro p move _ rfl hmove
    cases move with
    | next q =>
      obtain ⟨targets, htargets, hq⟩ := hmove
      obtain rfl := Except.ok.inj ((ok_of_toOption hnone).symm.trans htargets)
      cases hq
    | raise edge => cases hmove.2
  rw [hfirst] at hidAt
  exact hother hidAt

/-- What control does not get to may be left. -/
theorem not_forall_prune_exact : ¬ ∀ (body kept : Body) (removed : Nat) (f : Flow), body.insns.Proper →
    (∀ id ∈ body.insns.order, ∀ target ∈ (body.insns.get id).targets, target ∈ body.insns.order) →
      Flow.ofBody body = .ok f → body.pruneUnreachable = .ok (kept, removed) →
        ∀ id ∈ body.insns.order, (body.insns.get id).isReal = true →
          (id ∈ kept.insns.order ↔ f.GetsTo id) := by
  intro hexact
  obtain ⟨_, hflow, htargets, _, hmem, hreal⟩ := retBody_stops
  have hleft := hexact retBody retBody 0 _ (InsnList.ofInsns_proper _) htargets (eq_ok_get hflow) retBody_pruned ⟨1⟩
    hmem hreal
  exact retBody_stays (eq_ok_get hflow) (hleft.mp hmem)

end Body

end DirectCall
