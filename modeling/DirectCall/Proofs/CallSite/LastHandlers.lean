import DirectCall.Proofs.CallSite.HandlerSteps

/-!
# What handler pruning leaves behind

A second run does nothing if no group can go (`pruneHandlers_idle_iff`). To forget a group that is not
joint leaves the other groups as they were (`isPrunable_forget`), so a rejected group stays rejected as
long as no code goes and no empty region with it. Empty regions go in the first round only, and that is
where a rejection may hide a group for good (`pruneHandlers_again_iff`).
-/

namespace DirectCall.Body

variable {h : Hierarchy} {body b : Body} {g g' : HandlerGroup}

/-! ## Groups that can go -/

/-- Some region belongs to a group of a reflective failure that can go. -/
def HasPrunable (h : Hierarchy) (body : Body) : Prop :=
  ∃ g ∈ body.regions.filterMap group?, body.isPrunable h body.insns.positions g = true

instance (h : Hierarchy) (body : Body) : Decidable (body.HasPrunable h) :=
  inferInstanceAs (Decidable (∃ g ∈ body.regions.filterMap group?, _))

/-- No group on the list can go. -/
def Rejects (h : Hierarchy) (body : Body) (rejected : List HandlerGroup) : Prop :=
  ∀ g ∈ rejected, g ∈ body.regions.filterMap group? → body.isPrunable h body.insns.positions g = false

theorem length_forget_lt {r : Region} (hr : r ∈ body.regions) (hgroup : inGroup g r = true) :
    (body.forget g).regions.length < body.regions.length := by
  refine List.length_filter_lt_length_iff_exists.mpr ⟨r, hr, ?_⟩
  rw [hgroup]
  decide

theorem isJoint_mono (hsub : b.regions ⊆ body.regions) (hsingle : body.isJoint g = false) :
    b.isJoint g = false := by
  rw [Bool.eq_false_iff] at hsingle ⊢
  intro hjoint
  obtain ⟨r, hr, hhandler, hcatch, s, hs, hrest⟩ := isJoint_iff.mp hjoint
  exact hsingle (isJoint_iff.mpr ⟨r, hsub hr, hhandler, hcatch, s, hsub hs, hrest⟩)

theorem inGroup_unique {r : Region} (hgroup : inGroup g r = true) (hgroup' : inGroup g' r = true) :
    g = g' := by
  obtain ⟨hhandler, hcatch⟩ := inGroup_iff.mp hgroup
  obtain ⟨hhandler', hcatch'⟩ := inGroup_iff.mp hgroup'
  exact Prod.ext (hhandler.symm.trans hhandler') (Option.some.inj (hcatch.symm.trans hcatch'))

theorem mem_forget_of_inGroup (hne : g' ≠ g) {r : Region} (hgroup : inGroup g' r = true) :
    r ∈ (body.forget g).regions ↔ r ∈ body.regions := by
  rw [mem_forget]
  refine and_iff_left (Bool.eq_false_iff.mpr fun hboth => hne (inGroup_unique hgroup hboth))

/-- To forget a group that is not joint changes nothing for another group. -/
theorem isPrunable_forget (hsingle : body.isJoint g = false) (hne : g' ≠ g) :
    (body.forget g).isPrunable h (body.forget g).insns.positions g' =
      body.isPrunable h body.insns.positions g' := by
  have hjoint : (body.forget g).isJoint g' = body.isJoint g' := by
    rw [Bool.eq_iff_iff, isJoint_iff, isJoint_iff]
    constructor
    · rintro ⟨r, hr, hhandler, hcatch, s, hs, hrest⟩
      exact ⟨r, (mem_forget.mp hr).1, hhandler, hcatch, s, (mem_forget.mp hs).1, hrest⟩
    · rintro ⟨r, hr, hhandler, hcatch, s, hs, hgroup, hstart, hstop⟩
      refine ⟨r, mem_forget.mpr ⟨hr, ?_⟩, hhandler, hcatch, s, (mem_forget_of_inGroup hne hgroup).mpr hs,
        hgroup, hstart, hstop⟩
      -- Were `r` in the forgotten group, `s` would make that group joint.
      rw [Bool.eq_false_iff]
      intro hforgotten
      have hs' := (inGroup_iff.mp hgroup).1.trans (hhandler.symm.trans (inGroup_iff.mp hforgotten).1)
      have hother : s.catchType ≠ some g.2 := fun hcatch' =>
        hne (inGroup_unique hgroup (inGroup_iff.mpr ⟨hs', hcatch'⟩))
      rw [isJoint_iff.mpr ⟨s, hs, hs', hother, r, hr, hforgotten, hstart.symm, hstop.symm⟩] at hsingle
      cases hsingle
  rw [Bool.eq_iff_iff, isPrunable_iff, isPrunable_iff, hjoint]
  refine and_congr_right fun _ => ⟨fun hquiet r hr hgroup => ?_, fun hquiet r hr hgroup => ?_⟩
  · exact hquiet r ((mem_forget_of_inGroup hne hgroup).mpr hr) hgroup
  · exact hquiet r ((mem_forget_of_inGroup hne hgroup).mp hr) hgroup

theorem mem_groups_forget (hne : g' ≠ g) :
    g' ∈ (body.forget g).regions.filterMap group? ↔ g' ∈ body.regions.filterMap group? := by
  rw [mem_groups_iff, mem_groups_iff]
  refine and_congr_right fun _ => exists_congr fun r => ?_
  constructor
  · rintro ⟨hr, hgroup⟩
    exact ⟨(mem_forget_of_inGroup hne hgroup).mp hr, hgroup⟩
  · rintro ⟨hr, hgroup⟩
    exact ⟨(mem_forget_of_inGroup hne hgroup).mpr hr, hgroup⟩

/-- Empty regions go in the same way with and without a group. -/
theorem dropEmptyRegions_forget {kept : Body} (hdrop : (body.forget g).dropEmptyRegions = .ok kept)
    {all : Body} (hall : body.dropEmptyRegions = .ok all) : kept = all.forget g := by
  obtain ⟨_, rfl⟩ := dropEmptyRegions_eq_ok.mp hdrop
  obtain ⟨_, rfl⟩ := dropEmptyRegions_eq_ok.mp hall
  simp only [forget, List.filter_filter, Bool.and_comm]

/-- The regions of a group that can go have their places. -/
theorem exists_dropEmptyRegions {kept : Body} (hprunable : body.isPrunable h body.insns.positions g = true)
    (hdrop : (body.forget g).dropEmptyRegions = .ok kept) : ∃ all, body.dropEmptyRegions = .ok all := by
  refine ⟨_, dropEmptyRegions_eq_ok.mpr ⟨fun r hr => ?_, rfl⟩⟩
  by_cases hgroup : inGroup g r = true
  · obtain ⟨⟨start, stop, hstart, hstop⟩, _⟩ := isQuiet_iff.mp ((isPrunable_iff.mp hprunable).2 r hr hgroup)
    exact ⟨_, bind_eq_ok.mpr ⟨start, Positions.find_eq_ok.mpr hstart,
      bind_eq_ok.mpr ⟨stop, Positions.find_eq_ok.mpr hstop, rfl⟩⟩⟩
  · exact (dropEmptyRegions_eq_ok.mp hdrop).1 r (mem_forget.mpr ⟨hr, Bool.eq_false_iff.mpr hgroup⟩)

/-! ## Rounds -/

/-- A round without dead code, once there are no empty regions: only the group has gone. -/
theorem Covering.forget_eq (hcovering : body.Covering) {next : Body}
    (hpruned : (body.forget g).Pruned next 0) : next = body.forget g := by
  have hkept : (body.forget g).Covering := fun r hr => hcovering r (mem_forget.mp hr).1
  exact Except.ok.inj ((hpruned.idle rfl).symm.trans hkept.dropEmptyRegions_eq)

/-- The groups that a scan has rejected in a round stay rejected. -/
theorem Scanned.rejects {rejected groups rejected' : List HandlerGroup} {found : Option HandlerGroup}
    (hscan : body.Scanned h rejected groups found rejected') (hold : body.Rejects h rejected) :
    body.Rejects h rejected' := by
  intro g hg hgroup
  rcases hscan.added g hg with hg | ⟨_, hrejected⟩
  · exact hold g hg hgroup
  · exact hrejected

theorem Rejects.forget {rejected : List HandlerGroup} (hrejects : body.Rejects h rejected)
    (hgroup : g ∈ body.regions.filterMap group?)
    (hprunable : body.isPrunable h body.insns.positions g = true) : (body.forget g).Rejects h rejected := by
  intro g' hg' hgroup'
  have hne : g' ≠ g := by
    rintro rfl
    rw [hrejects g' hg' hgroup] at hprunable
    cases hprunable
  rw [isPrunable_forget (isPrunable_iff.mp hprunable).1 hne]
  exact hrejects g' hg' ((mem_groups_forget hne).mp hgroup')

/-- From rejections that hold, in a body without empty regions, the rounds come to the last group. -/
theorem not_hasPrunable_of_rejects {rounds removed total : Nat} {rejected : List HandlerGroup}
    (hcovering : body.Covering)
    (hrejects : body.Rejects h rejected) (hrounds : body.regions.length < rounds)
    (hrun : pruneHandlersFrom h rounds rejected body removed = .ok (b, total)) : ¬ b.HasPrunable h := by
  induction rounds generalizing rejected body removed with
  | zero => exact absurd hrounds (Nat.not_lt_zero _)
  | succ rounds ih =>
    rcases pruneHandlersFrom_succ hrun with ⟨rejected', hnext, rfl, _⟩ |
      ⟨g, rejected', next, dead, hnext, hpruned, hrun⟩
    · have hscan := scanned_of_nextPrunable hnext
      rintro ⟨g, hg, hprunable⟩
      rw [hscan.rejects hrejects g (hscan.passes rfl g hg) hg] at hprunable
      cases hprunable
    · have hscan := scanned_of_nextPrunable hnext
      obtain ⟨hgroup, _, hprunable⟩ := hscan.takes g rfl
      obtain ⟨_, r, hr, hin⟩ := mem_groups_iff.mp hgroup
      have hless := length_forget_lt hr hin
      have hle := hpruned.regions_sublist.length_le
      refine ih hpruned.clean.covering ?_ (by omega) hrun
      split_ifs with hdead
      · exact fun g hg => absurd hg List.not_mem_nil
      · obtain rfl : dead = 0 := by omega
        rw [hcovering.forget_eq hpruned]
        exact (hscan.rejects hrejects).forget hgroup hprunable

/-- A rejected group that can go is found only once code has gone. -/
theorem hasPrunable_of_rejected {rounds removed total : Nat} {rejected : List HandlerGroup}
    (hcovering : body.Covering)
    (hrounds : body.regions.length < rounds) (hrejected : g' ∈ rejected)
    (hgroup' : g' ∈ body.regions.filterMap group?)
    (hprunable' : body.isPrunable h body.insns.positions g' = true)
    (hrun : pruneHandlersFrom h rounds rejected body removed = .ok (b, total)) :
    (b.insns.order = body.insns.order ∧ b.HasPrunable h) ∨
      ((∃ id ∈ body.insns.order, id ∉ b.insns.order) ∧ ¬ b.HasPrunable h) := by
  induction rounds generalizing rejected body removed with
  | zero => exact absurd hrounds (Nat.not_lt_zero _)
  | succ rounds ih =>
    rcases pruneHandlersFrom_succ hrun with ⟨_, _, rfl, _⟩ | ⟨g, rejected', next, dead, hnext, hpruned, hrun⟩
    · exact .inl ⟨rfl, g', hgroup', hprunable'⟩
    · have hscan := scanned_of_nextPrunable hnext
      obtain ⟨hgroup, hfresh, hprunable⟩ := hscan.takes g rfl
      obtain ⟨_, r, hr, hin⟩ := mem_groups_iff.mp hgroup
      have hless := length_forget_lt hr hin
      have hle := hpruned.regions_sublist.length_le
      have hne : g' ≠ g := by
        rintro rfl
        exact hfresh hrejected
      split_ifs at hrun with hdead
      · obtain ⟨id, hid, hout⟩ := hpruned.busy hdead
        refine .inr ⟨⟨id, hid, fun hmem => hout ?_⟩, not_hasPrunable_of_rejects hpruned.clean.covering
          (fun g hg => absurd hg List.not_mem_nil) (by omega) hrun⟩
        exact mem_order_of_handlerSteps (pruneHandlersFrom_steps hrun).1 hmem
      · obtain rfl : dead = 0 := by omega
        obtain rfl := hcovering.forget_eq hpruned
        have hrest := ih hpruned.clean.covering (by omega) (hscan.kept g' hrejected)
          ((mem_groups_forget hne).mpr hgroup')
          (by rwa [isPrunable_forget (isPrunable_iff.mp hprunable).1 hne]) hrun
        exact hrest

/-! ## Runs -/

theorem le_total {rounds removed total : Nat} {rejected : List HandlerGroup}
    (hrun : pruneHandlersFrom h rounds rejected body removed = .ok (b, total)) : removed ≤ total := by
  induction rounds generalizing rejected body removed with
  | zero =>
    obtain ⟨_, rfl⟩ := Prod.mk.inj (Except.ok.inj hrun)
    exact Nat.le_refl _
  | succ rounds ih =>
    rcases pruneHandlersFrom_succ hrun with ⟨_, _, _, rfl⟩ | ⟨g, _, _, _, _, _, hrun⟩
    · exact Nat.le_refl _
    · exact Nat.le_trans (Nat.le_add_right _ _) (ih hrun)

/-- A run removes nothing exactly if no group can go. -/
theorem pruneHandlers_idle_iff : body.pruneHandlers h = .ok (body, 0) ↔ ¬ body.HasPrunable h := by
  constructor
  · rintro hrun ⟨g', hgroup', hprunable'⟩
    rcases pruneHandlersFrom_succ hrun with ⟨rejected', hnext, _⟩ | ⟨g, _, next, dead, hnext, _, hrest⟩
    · have hscan := scanned_of_nextPrunable hnext
      rcases hscan.added g' (hscan.passes rfl g' hgroup') with hnone | ⟨_, hrejected⟩
      · cases hnone
      · rw [hrejected] at hprunable'
        cases hprunable'
    · obtain ⟨_, r, hr, hin⟩ := mem_groups_iff.mp ((scanned_of_nextPrunable hnext).takes g rfl).1
      have hless := length_forget_lt hr hin
      have := le_total hrest
      omega
  · intro hnone
    rw [pruneHandlers, pruneHandlersFrom]
    split
    · rfl
    · rename_i g rejected' hnext
      obtain ⟨hgroup, _, hprunable⟩ := (scanned_of_nextPrunable hnext).takes g rfl
      exact absurd ⟨g, hgroup, hprunable⟩ hnone

/-- Ahead of the first group that can go stands a group that can go but for empty regions. -/
def Conceals (h : Hierarchy) (body : Body) : Prop :=
  ∃ g rejected kept, body.nextPrunable h body.insns.positions [] (body.regions.filterMap group?) =
      (some g, rejected) ∧ body.dropEmptyRegions = .ok kept ∧
    ∃ g' ∈ rejected, g' ∈ kept.regions.filterMap group? ∧
      kept.isPrunable h kept.insns.positions g' = true

/-- Without empty regions nothing is concealed. -/
theorem Covering.not_conceals (hcovering : body.Covering) : ¬ body.Conceals h := by
  rintro ⟨g, rejected, kept, hnext, hdrop, g', hg', _, hprunable⟩
  obtain rfl := Except.ok.inj (hcovering.dropEmptyRegions_eq.symm.trans hdrop)
  rcases (scanned_of_nextPrunable hnext).added g' hg' with hnone | ⟨_, hrejected⟩
  · cases hnone
  · rw [hrejected] at hprunable
    cases hprunable

/-- After a first round without dead code, a group that can go is left exactly if no code goes later on and
the round concealed one. -/
theorem hasPrunable_iff_conceals {all : Body} {rounds removed total : Nat} {rejected : List HandlerGroup}
    (hnext : body.nextPrunable h body.insns.positions [] (body.regions.filterMap group?) = (some g, rejected))
    (hall : body.dropEmptyRegions = .ok all) (hcovering : (all.forget g).Covering)
    (hrounds : (all.forget g).regions.length < rounds)
    (hrun : pruneHandlersFrom h rounds rejected (all.forget g) removed = .ok (b, total)) :
    b.HasPrunable h ↔ b.insns.order = body.insns.order ∧ body.Conceals h := by
  have hscan := scanned_of_nextPrunable hnext
  obtain ⟨hgroup, _, hprunable⟩ := hscan.takes g rfl
  have hsame : all.insns = body.insns := by
    obtain ⟨_, rfl⟩ := dropEmptyRegions_eq_ok.mp hall
    rfl
  have hsingle : all.isJoint g = false :=
    isJoint_mono (fun r hr => ((mem_dropEmptyRegions hall).mp hr).1) (isPrunable_iff.mp hprunable).1
  have hrejects : body.Rejects h rejected := hscan.rejects fun g hg => absurd hg List.not_mem_nil
  have hne : ∀ g' ∈ rejected, g' ≠ g := by
    rintro g' hg' rfl
    rw [hrejects g' hg' hgroup] at hprunable
    cases hprunable
  by_cases hconceals : ∃ g' ∈ rejected, g' ∈ all.regions.filterMap group? ∧
      all.isPrunable h all.insns.positions g' = true
  · have hconceals' : body.Conceals h := ⟨g, rejected, all, hnext, hall, hconceals⟩
    obtain ⟨g', hg', hgroup', hprunable'⟩ := hconceals
    rcases hasPrunable_of_rejected hcovering hrounds hg' ((mem_groups_forget (hne g' hg')).mpr hgroup')
      (by rwa [isPrunable_forget hsingle (hne g' hg')]) hrun with ⟨horder, hsome⟩ | ⟨⟨id, hid, hout⟩, hnone⟩
    · exact iff_of_true hsome ⟨horder.trans (congrArg InsnList.order hsame), hconceals'⟩
    · refine iff_of_false hnone fun hstays => hout ?_
      rw [hstays.1, ← hsame]
      exact hid
  · refine iff_of_false (not_hasPrunable_of_rejects hcovering (fun g' hg' hgroup' => ?_) hrounds hrun) ?_
    · rw [isPrunable_forget hsingle (hne g' hg'), Bool.eq_false_iff]
      exact fun hprunable' => hconceals ⟨g', hg', (mem_groups_forget (hne g' hg')).mp hgroup', hprunable'⟩
    · rintro ⟨_, g', rejected', all', hnext', hall', hrest⟩
      obtain ⟨_, rfl⟩ := Prod.mk.inj (hnext.symm.trans hnext')
      obtain rfl := Except.ok.inj (hall.symm.trans hall')
      exact hconceals hrest

/-- A second run removes nothing exactly if no group is left that can go. That is so unless the first run
removed no code and rejected, in its first round, a group that can go but for empty regions. -/
theorem pruneHandlers_again_iff {removed : Nat} (hrun : body.pruneHandlers h = .ok (b, removed)) :
    (b.pruneHandlers h = .ok (b, 0) ↔ ¬ b.HasPrunable h) ∧
      (b.HasPrunable h ↔ b.insns.order = body.insns.order ∧ body.Conceals h) := by
  refine ⟨pruneHandlers_idle_iff, ?_⟩
  rcases pruneHandlersFrom_succ hrun with ⟨rejected, hnext, rfl, _⟩ |
    ⟨g, rejected, next, dead, hnext, hpruned, hrest⟩
  · have hidle : b.pruneHandlers h = .ok (b, 0) := pruneHandlersFrom_of_none hnext
    refine iff_of_false (pruneHandlers_idle_iff.mp hidle) ?_
    rintro ⟨_, g, _, _, hnext', _⟩
    rw [hnext] at hnext'
    cases hnext'
  · obtain ⟨hgroup, _, hprunable⟩ := (scanned_of_nextPrunable hnext).takes g rfl
    obtain ⟨_, r, hr, hin⟩ := mem_groups_iff.mp hgroup
    have hless := length_forget_lt hr hin
    have hle := hpruned.regions_sublist.length_le
    have hrounds : next.regions.length < body.regions.length := by omega
    split_ifs at hrest with hdead
    · have hdone := not_hasPrunable_of_rejects hpruned.clean.covering
        (fun g hg => absurd hg List.not_mem_nil) hrounds hrest
      obtain ⟨id, hid, hout⟩ := hpruned.busy hdead
      refine iff_of_false hdone fun hsame => hout ?_
      exact mem_order_of_handlerSteps (pruneHandlersFrom_steps hrest).1 (hsame.1 ▸ hid)
    · obtain rfl : dead = 0 := by omega
      obtain ⟨all, hall⟩ := exists_dropEmptyRegions hprunable (hpruned.idle rfl)
      obtain rfl := dropEmptyRegions_forget (hpruned.idle rfl) hall
      exact hasPrunable_iff_conceals hnext hall hpruned.clean.covering hrounds hrest

/-! ## A concealed group -/

/-- Two handlers of one code, over code that raises nothing. Empty regions make the first one joint. -/
def concealing : Body where
  insns := .ofInsns #[.label, .op Opcode.nop, .label, .op Opcode.nop, .label, .op Opcode.returnVoid, .label,
    .op Opcode.pop, .op Opcode.returnVoid]
  regions := [⟨⟨0⟩, ⟨2⟩, ⟨6⟩, some "java/lang/NoSuchMethodException"⟩,
    ⟨⟨2⟩, ⟨2⟩, ⟨6⟩, some "java/lang/NoSuchMethodException"⟩, ⟨⟨2⟩, ⟨2⟩, ⟨6⟩, none⟩,
    ⟨⟨0⟩, ⟨4⟩, ⟨6⟩, some "java/lang/IllegalAccessException"⟩]
  locals := []
  maxStack := 16
  maxLocals := 0

/-- The body behind the first run, with the region that the second one removes. -/
def concealed : Body :=
  { concealing with regions := [⟨⟨0⟩, ⟨2⟩, ⟨6⟩, some "java/lang/NoSuchMethodException"⟩] }

theorem concealed_live : concealed.unreachable = .ok [] := by
  have hgraph : (BlockGraph.ofBody concealed).toOption =
      some ⟨[⟨0, 6⟩, ⟨6, 9⟩], [⟨0, 6, .exception⟩]⟩ := by decide +kernel
  exact unreachable_of_reachWithin 10 (ok_of_toOption hgraph) rfl rfl (by decide +kernel)

theorem pruneHandlers_concealing : concealing.pruneHandlers (.freeze ∅) = .ok (concealed, 1) := by
  have hfirst : concealing.nextPrunable (.freeze ∅) concealing.insns.positions []
      (concealing.regions.filterMap group?) = (some (⟨6⟩, "java/lang/IllegalAccessException"),
        [(⟨6⟩, "java/lang/NoSuchMethodException")]) := by decide +kernel
  have hlast : concealed.nextPrunable (.freeze ∅) concealed.insns.positions
      [(⟨6⟩, "java/lang/NoSuchMethodException")] (concealed.regions.filterMap group?) =
        (none, [(⟨6⟩, "java/lang/NoSuchMethodException")]) := by decide +kernel
  have hdrop : (concealing.forget (⟨6⟩, "java/lang/IllegalAccessException")).dropEmptyRegions =
      .ok concealed := by
    have hkept : ((concealing.forget (⟨6⟩, "java/lang/IllegalAccessException")).regions.filterM
        (covers concealing.insns concealing.insns.positions)).toOption = some concealed.regions := by
      decide +kernel
    exact bind_eq_ok.mpr ⟨_, ok_of_toOption hkept, rfl⟩
  rw [pruneHandlers, pruneHandlersFrom_of_some hfirst (pruneRounds_of_live hdrop concealed_live)]
  exact pruneHandlersFrom_of_none hlast

/-- A second run may remove more. -/
theorem not_forall_pruneHandlers_again :
    ¬ ∀ (h : Hierarchy) (body b : Body) (removed : Nat), body.pruneHandlers h = .ok (b, removed) →
      b.pruneHandlers h = .ok (b, 0) := by
  intro hagain
  refine pruneHandlers_idle_iff.mp (hagain _ _ _ _ pruneHandlers_concealing) ?_
  decide +kernel

theorem pruneHandlers_again_concealing : concealing.pruneHandlers (.freeze ∅) = .ok (concealed, 1) ∧
    (concealed.pruneHandlers (.freeze ∅) = .ok (concealed, 0) ↔ ¬ concealed.HasPrunable (.freeze ∅)) ∧
      (concealed.HasPrunable (.freeze ∅) ↔
        concealed.insns.order = concealing.insns.order ∧ concealing.Conceals (.freeze ∅)) :=
  ⟨pruneHandlers_concealing, pruneHandlers_again_iff pruneHandlers_concealing⟩

end DirectCall.Body
