import DirectCall.Proofs.Code.Linked

/-!
# Handlers are reproduced

A handler is read as a region over the labels of its offsets. If these labels stand for the same offsets
again, the region is written as the handler it was read from, but for the index of what it catches: that is
where the pool finds the class of that name (`Body.handlers_of_findsCaught`).
-/

namespace DirectCall

open ConstantPool

/-- The index of what a region catches. -/
def ConstantPool.catchIndex : Option String → Edit UInt16
  | some name => classIndex name
  | none => pure 0

namespace Layout

variable {l : Layout} {offsets : Array Nat}

/-- A region over labels of a handler's offsets is written as that handler again, but for the index of what
it catches. -/
theorem handler?_eq {r : Region} {h : HandlerRange} (hstart : l.offsetOf offsets r.start = .ok h.start.toNat)
    (hstop : l.offsetOf offsets r.stop = .ok h.stop.toNat)
    (hhandler : l.offsetOf offsets r.handler = .ok h.handler.toNat) :
    l.handler? offsets r = if h.start < h.stop then do
        let catchType ← catchIndex r.catchType
        return some { h with catchType := catchType }
      else return none := by
  have hnumber : ∀ n : UInt16, n.toNat.toUInt16 = n := by simp
  unfold handler?
  rw [hstart, hstop, hhandler]
  change (if h.stop.toNat ≤ h.start.toNat then (pure none : Edit (Option HandlerRange)) else _) = _
  by_cases hlt : h.start < h.stop
  · rw [if_neg (by rw [UInt16.lt_iff_toNat_lt] at hlt; omega), if_pos hlt, hnumber, hnumber]
    have hlast : ∀ catchType : UInt16, (do
        let handler ← (liftM (Except.ok h.handler.toNat : Except Fault Nat) : Edit Nat)
        return some (HandlerRange.mk h.start h.stop handler.toUInt16 catchType)) =
          (pure (some { h with catchType := catchType }) : Edit (Option HandlerRange)) := by
      intro catchType
      change (pure (some (HandlerRange.mk h.start h.stop h.handler.toNat.toUInt16 catchType)) :
        Edit (Option HandlerRange)) = _
      rw [hnumber]
    cases r.catchType with
    | some name => exact bind_congr hlast
    | none => exact hlast 0
  · rw [if_pos (by rw [UInt16.lt_iff_toNat_lt] at hlt; omega), if_neg hlt]

end Layout

namespace Body

open Code

variable {pool : ConstantPool} {insns : List Located}

/-- The classes that are caught have the indices in the pool that the handlers have. -/
def FindsCaught (pool : ConstantPool) (handlers : List HandlerRange) : Prop :=
  ∀ h ∈ handlers, h.start < h.stop → ∀ name, pool.className h.catchType = .ok name →
    pool.edit (classIndex name) = (.ok h.catchType, pool)

/-- The regions over labels whose offsets are known. -/
structure RegionOf (pool : ConstantPool) (l : Layout) (offsets : Array Nat) (h : HandlerRange) (r : Region) :
    Prop where
  start : l.offsetOf offsets r.start = .ok h.start.toNat
  stop : l.offsetOf offsets r.stop = .ok h.stop.toNat
  handler : l.offsetOf offsets r.handler = .ok h.handler.toNat
  catches : h.catchType = 0 ∧ r.catchType = none ∨
    ∃ name, pool.className h.catchType = .ok name ∧ r.catchType = some name

section

variable {l : Layout} {offsets : Array Nat}

theorem RegionOf.catchIndex_iff {h : HandlerRange} {r : Region} (hlaid : pool.LaidOut)
    (hregion : RegionOf pool l offsets h r) :
    pool.edit (catchIndex r.catchType) = (.ok h.catchType, pool) ↔
      ∀ name, pool.className h.catchType = .ok name →
        pool.edit (classIndex name) = (.ok h.catchType, pool) := by
  rcases hregion.catches with ⟨hzero, hnone⟩ | ⟨name, hname, hsome⟩
  · rw [hnone, hzero]
    exact iff_of_true rfl fun name hname => absurd rfl (hlaid.bind_ne_zero hname)
  · rw [hsome, hname]
    constructor
    · rintro h name' hname'
      cases hname'
      exact h
    · intro h
      exact h name rfl

/-- What is caught is asked for without adding to the pool if the index is the one that is there. -/
theorem RegionOf.catchIndex_same {pool' : ConstantPool} {h : HandlerRange} {r : Region}
    (hregion : RegionOf pool l offsets h r)
    (hedit : pool.edit (catchIndex r.catchType) = (.ok h.catchType, pool')) : pool' = pool := by
  rcases hregion.catches with ⟨_, hnone⟩ | ⟨name, hname, hsome⟩
  · rw [hnone] at hedit
    exact (Prod.mk.inj hedit).2.symm
  · rw [hsome] at hedit
    exact classIndex_same hname hedit (className_lt hname)

/-- Handlers that cover bytes are written as they were if the pool finds what they catch. -/
theorem handlers_of_findsCaught {handlers : List HandlerRange} {regions : List Region}
    (hlaid : pool.LaidOut) (h : List.Forall₂ (RegionOf pool l offsets) handlers regions)
    (hfinds : FindsCaught pool handlers) :
    ∃ founds, pool.edit (regions.mapM (l.handler? offsets)) = (.ok founds, pool) ∧
      founds.filterMap id = handlers.filter fun h => h.start < h.stop := by
  induction h with
  | nil => exact ⟨[], rfl, rfl⟩
  | @cons h r handlers regions hregion _ ih =>
    obtain ⟨hfirst, hothers⟩ := List.forall_mem_cons.mp hfinds
    obtain ⟨founds, hedit, hfounds⟩ := ih hothers
    have hhandler := Layout.handler?_eq hregion.start hregion.stop hregion.handler
    rw [List.mapM_cons, hhandler]
    by_cases hlt : h.start < h.stop
    · have hcatch := (hregion.catchIndex_iff hlaid).mpr (hfirst hlt)
      refine ⟨some h :: founds, ?_, ?_⟩
      · rw [if_pos hlt]
        exact edit_bind_eq_ok.mpr ⟨some h, pool, edit_bind_eq_ok.mpr ⟨_, pool, hcatch, rfl⟩,
          edit_bind_eq_ok.mpr ⟨founds, pool, hedit, rfl⟩⟩
      · rw [List.filter_cons_of_pos (by simpa using hlt), ← hfounds]
        rfl
    · refine ⟨none :: founds, ?_, ?_⟩
      · rw [if_neg hlt]
        exact edit_bind_eq_ok.mpr ⟨none, pool, rfl, edit_bind_eq_ok.mpr ⟨founds, pool, hedit, rfl⟩⟩
      · rw [List.filter_cons_of_neg (by simpa using hlt), ← hfounds]
        rfl

/-- If handlers that cover bytes are written as they were, the pool finds what they catch. -/
theorem findsCaught_of_handlers {pool' : ConstantPool} {handlers : List HandlerRange} {regions : List Region}
    (hlaid : pool.LaidOut) (h : List.Forall₂ (RegionOf pool l offsets) handlers regions)
    {founds : List (Option HandlerRange)}
    (hedit : pool.edit (regions.mapM (l.handler? offsets)) = (.ok founds, pool'))
    (hfounds : founds.filterMap id = handlers.filter fun h => h.start < h.stop) :
    FindsCaught pool handlers := by
  induction h generalizing founds with
  | nil => exact fun h hmem => absurd hmem List.not_mem_nil
  | @cons h r handlers regions hregion _ ih =>
    have hhandler := Layout.handler?_eq hregion.start hregion.stop hregion.handler
    rw [List.mapM_cons, hhandler] at hedit
    obtain ⟨found, pool₁, hfound, hrest⟩ := edit_bind_eq_ok.mp hedit
    obtain ⟨founds', pool₂, hothers, hlast⟩ := edit_bind_eq_ok.mp hrest
    cases hlast
    refine List.forall_mem_cons.mpr ?_
    by_cases hlt : h.start < h.stop
    · rw [if_pos hlt] at hfound
      obtain ⟨catchType, pool₃, hcatch, hlast⟩ := edit_bind_eq_ok.mp hfound
      cases hlast
      rw [List.filter_cons_of_pos (by simpa using hlt)] at hfounds
      obtain ⟨hhead, htail⟩ := List.cons.inj hfounds
      obtain rfl : catchType = h.catchType := congrArg HandlerRange.catchType hhead
      obtain rfl := hregion.catchIndex_same hcatch
      exact ⟨fun _ => (hregion.catchIndex_iff hlaid).mp hcatch, ih hothers htail⟩
    · rw [if_neg hlt] at hfound
      cases hfound
      rw [List.filter_cons_of_neg (by simpa using hlt)] at hfounds
      exact ⟨fun hcontra => absurd hcontra hlt, ih hothers hfounds⟩

end

/-- What was read of the handlers, where the offsets of labels are known. -/
theorem forall_regionOf {labels : Labels} {tables : Tables} {l : Layout} {offsets : Array Nat}
    {handlers : List HandlerRange} {regions : List Region}
    (hregions : handlers.mapM (region pool labels) = .ok regions)
    (hoffset : ∀ t ∈ referenced insns handlers tables, l.offsetOf offsets (labels.find t) = .ok t) :
    List.Forall₂ (RegionOf pool l offsets) handlers regions := by
  refine ((List.forall₂_and_left ..).mpr ⟨fun h hh => hh, mapM_eq_ok.mp hregions⟩).imp ?_
  rintro h r ⟨hmem, hregion⟩
  obtain ⟨hstart, hstop, hhandler, hcatches⟩ := region_eq_ok hregion
  have hreferenced : ∀ t ∈ [h.start.toNat, h.stop.toNat, h.handler.toNat],
      l.offsetOf offsets (labels.find t) = .ok t :=
    fun t ht => hoffset t (mem_referenced_region hmem ht)
  exact ⟨hstart ▸ hreferenced _ (by simp), hstop ▸ hreferenced _ (by simp),
    hhandler ▸ hreferenced _ (by simp), hcatches.none_or_some⟩

/-- Entries of local variables over labels with offsets can be written. -/
theorem mapM_localRange?_eq_ok {labels : Labels} {tables : Tables} {handlers : List HandlerRange}
    {l : Layout} {offsets : Array Nat}
    (hoffset : ∀ t ∈ referenced insns handlers tables, l.offsetOf offsets (labels.find t) = .ok t) :
    ∃ ranges, (tables.locals.map (localEntry labels)).mapM (l.localRange? offsets) = .ok ranges := by
  refine exists_mapM_ok fun v hv => ?_
  obtain ⟨range, hrange, rfl⟩ := List.mem_map.mp hv
  have hreferenced : ∀ t ∈ [range.start, range.stop], l.offsetOf offsets (labels.find t) = .ok t :=
    fun t ht => hoffset t (mem_referenced_range hrange ht)
  exact ⟨_, bind_eq_ok.mpr ⟨_, hreferenced range.start (by simp),
    bind_eq_ok.mpr ⟨_, hreferenced range.stop (by simp), rfl⟩⟩⟩

end Body

end DirectCall
