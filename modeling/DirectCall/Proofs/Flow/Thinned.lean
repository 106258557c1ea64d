import DirectCall.Proofs.Flow.Survive
import DirectCall.Proofs.Frame.Relocate

/-!
# A body that has been thinned out

Some instructions of a body are gone, and some regions, but none that control gets to and no region that
covers one of these (`Thins`). Then successors and handlers of what control gets to are what they were, in
the same order, at their new positions (`Thins.sameAt`). So control gets to the same nodes
(`Thins.getsTo`, and `Thins.getsTo_of_getsTo` where it got on from wherever it got to).
-/

namespace DirectCall

namespace Flow

variable {body : Body} {f : Flow}

theorem edges_of_coverages {list : InsnList} (hproper : list.Proper) {regions : List Region}
    {coverages : List Coverage}
    (h : List.Forall₂ (fun r c => coverage list.positions r = .ok c) regions coverages) (p : Nat) :
    (coverages.filter fun c => c.start ≤ p && p < c.stop).map (·.edge) = regions.filterMap fun r =>
      if list.rank r.start ≤ p ∧ p < list.rank r.stop then some ⟨list.rank r.handler, r.catchType⟩
      else none := by
  induction h with
  | nil => rfl
  | @cons r c regions coverages hcoverage _ ih =>
    obtain ⟨start, hstart, hcoverage⟩ := bind_eq_ok.mp hcoverage
    obtain ⟨stop, hstop, hcoverage⟩ := bind_eq_ok.mp hcoverage
    obtain ⟨handler, hhandler, hcoverage⟩ := bind_eq_ok.mp hcoverage
    obtain rfl := Except.ok.inj hcoverage
    rw [hproper.find_eq_ok] at hstart hstop hhandler
    rw [List.filter_cons, List.filterMap_cons, hstart.2, hstop.2, hhandler.2]
    by_cases hspans : start ≤ p ∧ p < stop
    · rw [if_pos (by simpa using hspans), if_pos hspans, List.map_cons, ih]
    · rw [if_neg (by simpa using hspans), if_neg hspans, ih]

/-- The handlers of the regions around a position. -/
theorem handlersAt_eq (hproper : body.insns.Proper) (h : ofBody body = .ok f) (p : Nat) :
    f.handlersAt p = body.regions.filterMap fun r =>
      if body.insns.rank r.start ≤ p ∧ p < body.insns.rank r.stop then
        some ⟨body.insns.rank r.handler, r.catchType⟩
      else none := by
  obtain ⟨coverages, hcoverages, h⟩ := bind_eq_ok.mp h
  obtain rfl := Except.ok.inj h
  exact edges_of_coverages hproper (mapM_eq_ok.mp hcoverages) p

/-- Successors move along with an instruction if its jump targets do, and the next position where control
passes on to it. -/
theorem successors_moved {e : Flow} {φ : Nat → Nat} {p : Nat} (hinsn : e.insnAt (φ p) = f.insnAt p)
    {targets : List Nat} (h : f.successors p = .ok targets)
    (hfound : ∀ t ∈ (f.insnAt p).targets, ∀ q ∈ targets, f.positions.find t = .ok q →
      e.positions.find t = .ok (φ q))
    (hnext : p + 1 ∈ targets → p + 1 < f.size → φ p + 1 < e.size ∧ φ (p + 1) = φ p + 1) :
    e.successors (φ p) = .ok (targets.map φ) := by
  obtain ⟨jumps, hjumps, hrest⟩ := bind_eq_ok.mp h
  have hsub : ∀ q ∈ jumps, q ∈ targets := fun q hq =>
    (mem_successors_iff h).mpr (.inl ⟨jumps, hjumps, hq⟩)
  have hjumps' : e.targetsAt (φ p) = .ok (jumps.map φ) := by
    clear hrest
    rw [targetsAt, mapM_eq_ok] at hjumps
    rw [targetsAt, hinsn, mapM_eq_ok, List.forall₂_map_right_iff]
    generalize (f.insnAt p).targets = nodes at hjumps hfound
    induction hjumps with
    | nil => exact .nil
    | cons hplace _ ih =>
      rw [List.forall_mem_cons] at hsub hfound
      exact .cons (hfound.1 _ hsub.1 hplace) (ih hsub.2 hfound.2)
  rw [successors, hjumps', hinsn]
  split_ifs at hrest with hends hfalls
  · obtain rfl := Except.ok.inj hrest
    simp only [bind, Except.bind, if_pos hends]
    rfl
  · obtain rfl := Except.ok.inj hrest
    obtain ⟨hlt, hplace⟩ := hnext (by simp) hfalls
    simp only [bind, Except.bind, if_neg hends, if_pos hlt, List.map_append, List.map_cons, List.map_nil, hplace]
    rfl

/-- What is left of a body has all that control gets to, and all regions that cover some of it. -/
structure Thins (a b : Body) (f : Flow) : Prop where
  proper : a.insns.Proper
  part : b.insns.PartOf a.insns
  flow : ofBody a = .ok f
  kept : ∀ id, f.GetsTo id → id ∈ b.insns.order
  regions : ∃ stays : Region → Bool, b.regions = a.regions.filter stays ∧
    ∀ r ∈ a.regions, stays r = false → ∀ p, f.Reaches p → (f.insnAt p).isReal = true → ¬ a.insns.Spans r p

/-- Where the node at a position stands in another list. -/
def newPlace (a b : InsnList) (p : Nat) : Nat := b.rank (a.idAt p)

namespace Thins

variable {a b : Body} {e : Flow} {p : Nat}

theorem size_eq (h : Thins a b f) : f.size = a.insns.size := size_of_ofBody h.flow

theorem proper' (h : Thins a b f) : b.insns.Proper := h.part.proper h.proper

theorem mem (h : Thins a b f) (hp : f.Reaches p) (hinside : p < f.size) : a.insns.idAt p ∈ b.insns.order := by
  exact h.kept _ ⟨p, hinside, hp, idAt_of_ofBody h.flow p⟩

theorem idAt_newPlace (h : Thins a b f) (hp : f.Reaches p) (hinside : p < f.size) :
    b.insns.idAt (newPlace a.insns b.insns p) = a.insns.idAt p :=
  (h.proper'.rank_lt (h.mem hp hinside)).2

theorem newPlace_zero (h : Thins a b f) (hsize : 0 < f.size) : newPlace a.insns b.insns 0 = 0 :=
  h.part.rank_first h.proper (h.mem ⟨[], trivial, rfl⟩ hsize) (h.proper.rank_idAt (h.size_eq ▸ hsize))

section Flow

variable (he : ofBody b = .ok e)
include he

/-- Nodes that are left have places of their own. -/
theorem relocation (h : Thins a b f) : Frame.Progress.Relocation f.size e.size (newPlace a.insns b.insns)
    fun p => p < f.size ∧ a.insns.idAt p ∈ b.insns.order := by
  refine ⟨fun p hp => ⟨hp.1, ?_⟩, fun p q hp hq heq => ?_⟩
  · rw [size_of_ofBody he]
    exact (h.proper'.rank_lt hp.2).1
  · have hlt := (h.proper'.rank_lt hp.2).1
    have hmem : a.insns.idAt q ∈ b.insns.order := by
      rw [newPlace, newPlace] at heq
      rw [← heq, InsnList.rank] at hlt
      have := List.idxOf_lt_length_iff.mp (show _ < b.insns.order.toList.length from hlt)
      simpa using this
    have hsame := h.proper'.rank_inj hmem hp.2 heq
    rw [h.size_eq] at hp hq
    exact h.proper.idAt_inj hq hp.1 hsame

/-- A jump target keeps its place among the nodes that are left. -/
theorem find_target (h : Thins a b f) (hp : f.Reaches p) {targets : List Nat}
    (htargets : f.successors p = .ok targets) {t : NodeId} {q : Nat} (hq : q ∈ targets)
    (ht : f.positions.find t = .ok q) : e.positions.find t = .ok (newPlace a.insns b.insns q) := by
  have hreached := hp.next htargets hq
  rw [find_eq_ok h.proper h.flow] at ht
  obtain ⟨ht, rfl⟩ := ht
  obtain ⟨hlt, hidAt⟩ := h.proper.rank_lt ht
  have hmem := h.mem hreached (by rw [h.size_eq]; exact hlt)
  rw [newPlace, find_eq_ok h.proper' he, hidAt]
  exact ⟨hidAt ▸ hmem, rfl⟩

theorem insnAt_newPlace (h : Thins a b f) (hp : f.Reaches p) (hinside : p < f.size) :
    e.insnAt (newPlace a.insns b.insns p) = f.insnAt p := by
  rw [insnAt_of_ofBody h.flow, insnAt_of_ofBody he, InsnList.insnAt, InsnList.insnAt,
    h.idAt_newPlace hp hinside, h.part.get]

theorem successors (h : Thins a b f) (hp : f.Reaches p) (hinside : p < f.size) {targets : List Nat}
    (htargets : f.successors p = .ok targets) :
    e.successors (newPlace a.insns b.insns p) = .ok (targets.map (newPlace a.insns b.insns)) := by
  refine successors_moved (h.insnAt_newPlace he hp hinside) htargets
    (fun t _ q hq => h.find_target he hp htargets hq) fun hmem hnext => ?_
  -- Control falls through to a node that is left, so it is the next one still.
  have hreached : f.Reaches (p + 1) := hp.next htargets hmem
  have hsize := h.size_eq
  have hplace : newPlace a.insns b.insns (p + 1) = newPlace a.insns b.insns p + 1 :=
    h.part.rank_next h.proper (h.mem hp hinside) (h.mem hreached hnext) (by
      rw [h.proper.rank_idAt (by omega), h.proper.rank_idAt (by omega)])
  refine ⟨?_, hplace⟩
  rw [← hplace, size_of_ofBody he]
  exact (h.proper'.rank_lt (h.mem hreached hnext)).1

theorem handlersAt (h : Thins a b f) (hp : f.Reaches p) (hinside : p < f.size)
    (hreal : (f.insnAt p).isReal = true) :
    e.handlersAt (newPlace a.insns b.insns p) =
      (f.handlersAt p).map fun edge => ⟨newPlace a.insns b.insns edge.handler, edge.catchType⟩ := by
  obtain ⟨stays, hregions, hgone⟩ := h.regions
  have hmem := h.mem hp hinside
  have hrank : a.insns.rank (a.insns.idAt p) = p := h.proper.rank_idAt (h.size_eq ▸ hinside)
  have hplaces := (exists_ofBody_iff h.proper).mp ⟨f, h.flow⟩
  have hplaces' := (exists_ofBody_iff h.proper').mp ⟨e, he⟩
  rw [handlersAt_eq h.proper h.flow, handlersAt_eq h.proper' he, hregions, List.filterMap_filter,
    List.map_filterMap]
  refine List.filterMap_congr fun r hr => ?_
  have hplaced := hplaces r hr
  cases hstays : stays r with
  | false =>
    have hout : ¬(a.insns.rank r.start ≤ p ∧ p < a.insns.rank r.stop) := fun hspans =>
      hgone r hr hstays p hp hreal ⟨_, _, h.proper.find?_eq_some.mpr ⟨hplaced.start, rfl⟩,
        h.proper.find?_eq_some.mpr ⟨hplaced.stop, rfl⟩, hspans⟩
    rw [if_neg hout]
    rfl
  | true =>
    have hplaced' := hplaces' r (by rw [hregions]; exact List.mem_filter.mpr ⟨hr, hstays⟩)
    have hle := h.part.rank_le_iff h.proper hplaced'.start hmem
    have hlt := h.part.rank_lt_iff h.proper hmem hplaced'.stop
    rw [hrank] at hle hlt
    rw [if_pos rfl]
    have hhandler : newPlace a.insns b.insns (a.insns.rank r.handler) = b.insns.rank r.handler := by
      rw [newPlace, (h.proper.rank_lt hplaced.handler).2]
    by_cases hspans : a.insns.rank r.start ≤ p ∧ p < a.insns.rank r.stop
    · rw [if_pos hspans, Option.map_some, hhandler]
      exact if_pos (And.imp hle.mpr hlt.mpr hspans)
    · rw [if_neg hspans]
      exact if_neg fun hspans' => hspans (And.imp hle.mp hlt.mp hspans')

/-- What control gets to has moved with its successors and handlers. -/
theorem sameAt (h : Thins a b f) (hp : f.Reaches p) (hinside : p < f.size) :
    Frame.Progress.SameAt f e (newPlace a.insns b.insns) p := by
  refine ⟨?_, h.insnAt_newPlace he hp hinside, fun targets => h.successors he hp hinside, h.handlersAt he hp hinside⟩
  rw [idAt_of_ofBody h.flow, idAt_of_ofBody he, h.idAt_newPlace hp hinside]

theorem reaches (h : Thins a b f) (hsize : 0 < f.size) (hp : f.Reaches p) :
    e.Reaches (newPlace a.insns b.insns p) := by
  refine hp.induct (P := fun p => e.Reaches (newPlace a.insns b.insns p)) ?_ fun p move hbefore ih hmove => ?_
  · exact ⟨[], trivial, (h.newPlace_zero hsize).symm⟩
  · have hinside := hbefore.lt h.flow hsize
    have hsame := h.sameAt he hbefore hinside
    cases move with
    | next q =>
      obtain ⟨targets, htargets, hq⟩ := hmove
      exact ih.next (hsame.successors targets htargets) (List.mem_map_of_mem hq)
    | raise edge =>
      have hedge : e.Allows (newPlace a.insns b.insns p)
          (.raise ⟨newPlace a.insns b.insns edge.handler, edge.catchType⟩) := by
        refine ⟨by rw [hsame.insn]; exact hmove.1, ?_⟩
        rw [hsame.handlers hmove.1]
        exact List.mem_map_of_mem hmove.2
      exact ih.move hedge

/-- If control gets on from wherever it gets to, it gets nowhere else than before. -/
theorem exists_of_reaches (h : Thins a b f) (hsize : 0 < f.size)
    (hgets : ∀ p, f.Reaches p → ∃ targets, f.successors p = .ok targets) {q : Nat} (hq : e.Reaches q) :
    ∃ p, f.Reaches p ∧ newPlace a.insns b.insns p = q := by
  refine hq.induct (P := fun q => ∃ p, f.Reaches p ∧ newPlace a.insns b.insns p = q)
    ⟨0, ⟨[], trivial, rfl⟩, h.newPlace_zero hsize⟩ ?_
  rintro _ move _ ⟨p, hp, rfl⟩ hmove
  obtain ⟨targets, htargets⟩ := hgets p hp
  obtain ⟨move', hmove', hplace⟩ := (h.sameAt he hp (hp.lt h.flow hsize)).exists_of_allows htargets hmove
  exact ⟨move'.target, hp.move hmove', hplace⟩

/-- Control gets to all that it got to. -/
theorem getsTo (h : Thins a b f) {id : NodeId} (hid : f.GetsTo id) : e.GetsTo id := by
  have hmem := h.kept id hid
  obtain ⟨p, hinside, hp, rfl⟩ := hid
  rw [idAt_of_ofBody h.flow] at hmem ⊢
  refine ⟨newPlace a.insns b.insns p, ?_, h.reaches he (Nat.lt_of_le_of_lt (Nat.zero_le p) hinside) hp, ?_⟩
  · rw [size_of_ofBody he]
    exact (h.proper'.rank_lt hmem).1
  · rw [idAt_of_ofBody he]
    exact h.idAt_newPlace hp hinside

/-- Control gets to nothing else, if it got on from wherever it got to. -/
theorem getsTo_of_getsTo (h : Thins a b f)
    (hgets : ∀ p, f.Reaches p → ∃ targets, f.successors p = .ok targets) (hsize : 0 < f.size) {id : NodeId}
    (hid : e.GetsTo id) : f.GetsTo id := by
  obtain ⟨q, _, hq, rfl⟩ := hid
  obtain ⟨p, hp, rfl⟩ := h.exists_of_reaches he hsize hgets hq
  have hinside := hp.lt h.flow hsize
  refine ⟨p, hinside, hp, ?_⟩
  rw [idAt_of_ofBody h.flow, idAt_of_ofBody he, h.idAt_newPlace hp hinside]

/-- The solver comes to the same frames. -/
theorem settles (h : Thins a b f) {V : Type} [DecidableEq V] {d : Domain V} {m : MethodSig}
    {frames : Frame.Frames V} (hlocals : b.maxLocals = a.maxLocals) (hrun : Frame.Settles d m a frames) :
    ∃ frames', Frame.Settles d m b frames' ∧
      ∀ id ∈ b.insns.order, Frame.SameFrame a.insns b.insns frames frames' id := by
  obtain ⟨flow, entry, visits, hflow, hpos, hentry, hrun⟩ := hrun
  obtain rfl := Except.ok.inj (h.flow.symm.trans hflow)
  have hφ := h.relocation he
  have hinside : ∀ p, f.Reaches p → p < f.size := fun p hp => hp.lt h.flow hpos
  have hfirst : 0 < f.size ∧ a.insns.idAt 0 ∈ b.insns.order := ⟨hpos, h.mem ⟨[], trivial, rfl⟩ hpos⟩
  have hstart := Frame.Progress.Alike.start hφ hfirst (h.newPlace_zero hpos) entry
  obtain ⟨frames', hframes, hsame⟩ := hstart.settle hφ (fun p hp => ⟨hinside p hp, h.mem hp (hinside p hp)⟩)
    (fun p hp => h.sameAt he hp (hinside p hp)) (fun p move hp hmove => hp.move hmove)
    (fun p hp => ⟨[], trivial, (List.mem_singleton.mp hp).symm⟩) hrun
  have hpos' : 0 < e.size := Nat.lt_of_le_of_lt (Nat.zero_le _) (hφ.inside 0 hfirst).2
  refine ⟨frames', ⟨e, entry, visits, he, hpos', ?_, hframes⟩, ?_⟩
  · rw [hlocals]
    exact hentry
  · intro id hid
    obtain ⟨hlt, hidAt⟩ := h.proper.rank_lt (h.part.mem hid)
    have hagree := hsame (a.insns.rank id) ⟨by rw [h.size_eq]; exact hlt, by rw [hidAt]; exact hid⟩
    rwa [newPlace, hidAt] at hagree

end Flow

end Thins

end Flow

end DirectCall
