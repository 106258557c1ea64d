import DirectCall.Proofs.Frame.Ends
import DirectCall.Proofs.Frame.Arrive
import DirectCall.Sources.Value

/-!
# Sets of producers

Producers are listed by increasing identity, and all of them are nodes of the body (`SourceValue.Ordered`).
On such lists `union` is the union of sets: a join that brings no new producer changes nothing
(`union_eq_left`), any other join makes the list longer (`length_lt_union`). A list has at most as many
producers as the body has nodes, so the analysis ends (`SourceValue.ends`), with a fixpoint
(`SourceValue.stable`).
-/

namespace DirectCall

theorem InsnList.index_lt_of_opcode {list : InsnList} {id : NodeId}
    (h : (list.get id).opcode?.isSome = true) : id.index < list.nodes.size := by
  by_contra hge
  rw [InsnList.get, Array.getElem?_eq_none (Nat.le_of_not_lt hge)] at h
  cases h

namespace SourceValue

/-- Node `a` was made before node `b`. -/
def Before (a b : NodeId) : Prop := a.index < b.index

section Union

variable {xs ys : List NodeId} {id : NodeId}

theorem mem_union : id ∈ union xs ys ↔ id ∈ xs ∨ id ∈ ys := by
  fun_induction union xs ys with
  | case1 ys => simp
  | case2 xs => simp
  | case3 x xs y ys hlt ih => simp [ih, or_assoc]
  | case4 x xs y ys hlt hgt ih => simp [ih, or_left_comm]
  | case5 x xs y ys hlt hgt ih =>
    have heq : x = y := by
      cases x
      cases y
      exact congrArg NodeId.mk (by simp only at hlt hgt; omega)
    simp only [List.mem_cons, ih, heq]
    tauto

theorem union_pairwise (hxs : xs.Pairwise Before) (hys : ys.Pairwise Before) :
    (union xs ys).Pairwise Before := by
  fun_induction union xs ys with
  | case1 ys => exact hys
  | case2 xs => exact hxs
  | case3 x xs y ys hlt ih =>
    obtain ⟨hx, hrest⟩ := List.pairwise_cons.mp hxs
    refine List.pairwise_cons.mpr ⟨fun z hz => ?_, ih hrest hys⟩
    rcases mem_union.mp hz with hz | hz
    · exact hx z hz
    · rcases List.mem_cons.mp hz with rfl | hz
      · exact hlt
      · exact Nat.lt_trans hlt ((List.pairwise_cons.mp hys).1 z hz)
  | case4 x xs y ys hlt hgt ih =>
    obtain ⟨hy, hrest⟩ := List.pairwise_cons.mp hys
    refine List.pairwise_cons.mpr ⟨fun z hz => ?_, ih hxs hrest⟩
    rcases mem_union.mp hz with hz | hz
    · rcases List.mem_cons.mp hz with rfl | hz
      · exact hgt
      · exact Nat.lt_trans hgt ((List.pairwise_cons.mp hxs).1 z hz)
    · exact hy z hz
  | case5 x xs y ys hlt hgt ih =>
    obtain ⟨hx, hxs⟩ := List.pairwise_cons.mp hxs
    obtain ⟨hy, hys⟩ := List.pairwise_cons.mp hys
    refine List.pairwise_cons.mpr ⟨fun z hz => ?_, ih hxs hys⟩
    rcases mem_union.mp hz with hz | hz
    · exact hx z hz
    · have := hy z hz
      unfold Before at this ⊢
      omega

theorem nodup_of_pairwise (h : xs.Pairwise Before) : xs.Nodup :=
  h.imp fun {a b} (hlt : a.index < b.index) heq => Nat.ne_of_lt hlt (congrArg NodeId.index heq)

/-- Lists in order that have the same items are the same. -/
theorem eq_of_mem_iff (hxs : xs.Pairwise Before) (hys : ys.Pairwise Before)
    (h : ∀ id, id ∈ xs ↔ id ∈ ys) : xs = ys :=
  List.Perm.eq_of_pairwise (fun _ _ _ _ hab hba => absurd hba (Nat.lt_asymm hab)) hxs hys
    ((List.perm_ext_iff_of_nodup (nodup_of_pairwise hxs) (nodup_of_pairwise hys)).mpr h)

/-- A union with nothing new changes nothing. -/
theorem union_eq_left (hxs : xs.Pairwise Before) (hys : ys.Pairwise Before) (h : ∀ id ∈ ys, id ∈ xs) :
    union xs ys = xs :=
  eq_of_mem_iff (union_pairwise hxs hys) hxs fun id =>
    mem_union.trans ⟨fun hmem => hmem.elim (fun hid => hid) (h id), .inl⟩

/-- A union with something new is longer. -/
theorem length_lt_union (hxs : xs.Pairwise Before) (hys : ys.Pairwise Before) (hne : union xs ys ≠ xs) :
    xs.length < (union xs ys).length := by
  have hsub : List.Subperm xs (union xs ys) :=
    List.subperm_of_subset (nodup_of_pairwise hxs) fun id hid => mem_union.mpr (.inl hid)
  by_contra hle
  have hperm := hsub.perm_of_length_le (Nat.le_of_not_lt hle)
  exact hne (eq_of_mem_iff (union_pairwise hxs hys) hxs fun id => hperm.mem_iff.symm)

end Union

/-! ## Values -/

/-- Producers by increasing identity, each one of the first `size` nodes. -/
structure Ordered (size : Nat) (v : SourceValue) : Prop where
  pairwise : v.producers.Pairwise Before
  inside : ∀ id ∈ v.producers, id.index < size

variable {size : Nat} {v w : SourceValue}

theorem Ordered.length_le (h : v.Ordered size) : v.producers.length ≤ size := by
  have hnodup : (v.producers.map (·.index)).Nodup :=
    List.pairwise_map.mpr (h.pairwise.imp fun hlt => Nat.ne_of_lt hlt)
  have hsub : v.producers.map (·.index) ⊆ List.range size := by
    intro index hindex
    obtain ⟨id, hid, rfl⟩ := List.mem_map.mp hindex
    exact List.mem_range.mpr (h.inside id hid)
  have hlength := (List.subperm_of_subset hnodup hsub).length_le
  rwa [List.length_map, List.length_range] at hlength

theorem Ordered.join (hv : v.Ordered size) (hw : w.Ordered size) : (v.join w).Ordered size where
  pairwise := union_pairwise hv.pairwise hw.pairwise
  inside id hid := (mem_union.mp hid).elim (hv.inside id) (hw.inside id)

/-- How many producers a value may still get. -/
def rank (size : Nat) (v : SourceValue) : Nat := size - v.producers.length

theorem rankedOn (size : Nat) : (domain size).RankedOn (Ordered size) (rank size) size where
  bounded _ _ := Nat.sub_le _ _
  keeps _ _ := Ordered.join
  falls v w hv hw hne := by
    change v.join w ≠ v at hne
    have hunion : union v.producers w.producers ≠ v.producers := by
      intro heq
      exact hne (by rw [SourceValue.join, heq])
    have hlonger := length_lt_union hv.pairwise hw.pairwise hunion
    have hbound := (hv.join hw).length_le
    simp only [SourceValue.join] at hbound
    show rank size (v.join w) < rank size v
    simp only [rank, SourceValue.join]
    omega

theorem ordered_unset (size : Nat) (d : Option String) : (unset d).Ordered size := ⟨.nil, nofun⟩

theorem ordered_singleton {id : NodeId} (hid : id.index < size) (width : Nat) :
    Ordered size ⟨width, [id]⟩ :=
  ⟨List.pairwise_singleton _ _, fun _ hmem => List.mem_singleton.mp hmem ▸ hid⟩

theorem keepsAt {id : NodeId} (hid : id.index < size) (insn : Insn) :
    (domain size).KeepsAt (Ordered size) id insn where
  unset := ordered_unset size none
  produce := ordered_singleton hid _
  copy v _ := ordered_singleton hid v.size
  unary _ _ := ordered_singleton hid _
  binary _ _ _ _ := ordered_singleton hid _
  nary _ _ := ordered_singleton hid _
  refine _ _ := nofun

/-- The producers that the analysis finds are ordered nodes of the body. -/
theorem keepsAll {body : Body} {flow : Flow} (hflow : Flow.ofBody body = .ok flow) :
    Frame.KeepsAll (domain body.insns.nodes.size) flow (Ordered body.insns.nodes.size) := by
  refine Frame.keepsAll_of_keepsAt (fun position _ hreal => keepsAt ?_ _) fun _ _ _ => ordered_unset _ none
  have hlist := Flow.list_of_ofBody hflow
  rw [← hlist]
  exact InsnList.index_lt_of_opcode hreal

theorem entry_ordered {size : Nat} {m : MethodSig} {maxLocals : UInt16} {entry : Frame SourceValue}
    (h : Frame.entry (domain size) m maxLocals = .ok entry) : entry.All (Ordered size) :=
  Frame.entry_all (ordered_unset _ _) (ordered_unset _ _) (fun _ _ _ _ => ordered_unset _ _) h

theorem ends (m : MethodSig) (body : Body) : Frame.Ends (domain body.insns.nodes.size) m body :=
  Frame.ends_of_ranked (rankedOn body.insns.nodes.size) (fun _ => entry_ordered) fun _ => keepsAll

/-- A value absorbs those that have no further producers. -/
theorem absorptive (size : Nat) : (domain size).Absorptive (Ordered size) fun v w =>
    ∀ id ∈ w.producers, id ∈ v.producers where
  absorbs := by
    constructor
    case refl => exact fun _ _ hid => hid
    case left => exact fun _ _ _ hv id hid => mem_union.mpr (.inl (hv id hid))
    case right => exact fun _ _ _ hid => mem_union.mpr (.inr hid)
  keeps _ _ := Ordered.join
  unchanged v w hv hw h := by
    show v.join w = v
    rw [SourceValue.join, union_eq_left hv.pairwise hw.pairwise h]

/-- The producers at each position do not change any more. -/
theorem stable {m : MethodSig} {body : Body} {frames : Frame.Frames SourceValue}
    (h : Frame.analyze (domain body.insns.nodes.size) m body = .ok frames) :
    ∃ flow entry, Flow.ofBody body = .ok flow ∧
      Frame.entry (domain body.insns.nodes.size) m body.maxLocals = .ok entry ∧
        Frame.Stable (domain body.insns.nodes.size) flow entry frames :=
  Frame.analyze_stable (absorptive _) (fun _ => entry_ordered) (fun _ => keepsAll) h

end SourceValue

end DirectCall
