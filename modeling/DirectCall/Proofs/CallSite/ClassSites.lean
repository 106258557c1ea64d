import DirectCall.Proofs.CallSite.ClassLookups
import DirectCall.Proofs.Code.Handlers
import DirectCall.Proofs.Transformation.WellMade

/-!
# Sites of class look-ups

The literal of a site is found by a scan back from the call, over lines and labels to which nothing refers. So the
sites are the look-ups by names of classes (`Body.looksUp_of_forNameSite?`, `Body.LooksUp.forNameSite?_eq`). To
record the edits of all sites and to carry them out at once comes to the same as to load the classes one after the
other (`Body.replaceForNames_eq`).
-/

namespace DirectCall

/-- What a plan that moves nothing lays out of a node. -/
def EditPlan.laid (plan : EditPlan) (id : NodeId) : List NodeId :=
  plan.insertedBefore id ++ if plan.removed.contains id then [] else [id]

namespace Body

/-! ## Finding the literal -/

/-- Nothing refers to a line. -/
def SparesLines (body : Body) : Prop :=
  ∀ id ∈ body.insns.order, body.RefersTo id → ∀ line, body.insns.get id ≠ .line line

/-- The scan for the literal goes on over the node. -/
def Skips (body : Body) (id : NodeId) : Prop :=
  (∃ line, body.insns.get id = .line line) ∨ body.insns.get id = .label ∧ ¬ body.RefersTo id

section Scan

variable {body : Body} {id : NodeId} {count : Nat}

theorem isReal_of_skips (h : body.Skips id) : (body.insns.get id).isReal = false := by
  rcases h with ⟨line, hline⟩ | ⟨hlabel, _⟩
  · rw [hline]
    rfl
  · rw [hlabel]
    rfl

theorem skips_of_mark (hreal : (body.insns.get id).isReal = false) (halone : ¬ body.RefersTo id) : body.Skips id := by
  cases hinsn : body.insns.get id with
  | line line => exact .inl ⟨line, hinsn⟩
  | label => exact .inr ⟨hinsn, halone⟩
  | _ =>
    rw [hinsn] at hreal
    cases hreal

theorem lastSolid?_succ (list : InsnList) (referenced : Std.HashSet NodeId) (count : Nat) :
    lastSolid? list referenced (count + 1) =
      match list.get (list.idAt count) with
      | .line _ => lastSolid? list referenced count
      | .label =>
        if referenced.contains (list.idAt count) then some (list.idAt count) else lastSolid? list referenced count
      | _ => some (list.idAt count) :=
  rfl

theorem lastSolid?_of_skips (h : body.Skips (body.insns.idAt count)) :
    lastSolid? body.insns body.referencedNodes (count + 1) = lastSolid? body.insns body.referencedNodes count := by
  rw [lastSolid?_succ]
  rcases h with ⟨line, hline⟩ | ⟨hlabel, halone⟩
  · simp only [hline]
  · rw [← contains_referencedNodes] at halone
    simp only [hlabel, if_neg halone]

theorem lastSolid?_of_not_skips (h : ¬ body.Skips (body.insns.idAt count)) :
    lastSolid? body.insns body.referencedNodes (count + 1) = some (body.insns.idAt count) := by
  rw [Skips, not_or, not_and, not_not, ← contains_referencedNodes] at h
  rw [lastSolid?_succ]
  cases hinsn : body.insns.get (body.insns.idAt count) with
  | line line => exact absurd ⟨line, hinsn⟩ h.1
  | label => simp only [if_pos (h.2 hinsn)]
  | _ => rfl

/-- Only nodes over which the scan goes on stand between the node that it finds and the position. -/
theorem row_of_lastSolid? (h : lastSolid? body.insns body.referencedNodes count = some id)
    (hcount : count ≤ body.insns.size) :
    ∃ ahead between, body.insns.order.toList.take count = ahead ++ id :: between ∧ ∀ n ∈ between, body.Skips n := by
  induction count with
  | zero => cases h
  | succ count ih =>
    have hlast : body.insns.order.toList.take (count + 1) =
        body.insns.order.toList.take count ++ [body.insns.idAt count] := by
      have hlt : count < body.insns.order.toList.length := by
        rw [Array.length_toList]
        exact hcount
      rw [List.take_succ_eq_append_getElem hlt, InsnList.idAt_eq, List.getElem?_eq_getElem hlt, Option.getD_some]
    by_cases hskips : body.Skips (body.insns.idAt count)
    · rw [lastSolid?_of_skips hskips] at h
      obtain ⟨ahead, between, horder, hbetween⟩ := ih h (by omega)
      refine ⟨ahead, between ++ [body.insns.idAt count], by rw [hlast, horder]; simp, fun n hn => ?_⟩
      rcases List.mem_append.mp hn with hn | hn
      · exact hbetween n hn
      · exact List.mem_singleton.mp hn ▸ hskips
    · rw [lastSolid?_of_not_skips hskips] at h
      obtain rfl := Option.some.inj h
      exact ⟨_, [], hlast, nofun⟩

end Scan

section Site

variable {body : Body} {s : ForNameSite} {p : Nat}

/-- A site is a look-up by the name of a class. -/
theorem looksUp_of_forNameSite? (h : body.forNameSite? body.referencedNodes p = some s) (hp : p < body.insns.size)
    (hlines : body.SparesLines) :
    s.position = p ∧ ClassName.internal? s.name = some s.className ∧ ∃ ahead between behind,
      body.LooksUp s.name s.literal (body.insns.idAt p) ahead between behind := by
  unfold forNameSite? at h
  split_ifs at h with hcall
  rw [Bool.not_eq_true, Bool.not_eq_false'] at hcall
  obtain ⟨literal, hliteral, h⟩ := Option.bind_eq_some_iff.mp h
  split at h
  · rename_i index name hinsn
    obtain ⟨className, hname, h⟩ := Option.bind_eq_some_iff.mp h
    cases h
    refine ⟨rfl, hname, ?_⟩
    obtain ⟨ahead, between, hrow, hskips⟩ := row_of_lastSolid? hliteral (by omega)
    have hlt : p < body.insns.order.toList.length := by rwa [Array.length_toList]
    have horder : body.insns.order.toList = ahead ++ literal ::
        (between ++ body.insns.idAt p :: body.insns.order.toList.drop (p + 1)) := by
      have hdrop : body.insns.order.toList.drop p =
          body.insns.idAt p :: body.insns.order.toList.drop (p + 1) := by
        rw [List.drop_eq_getElem_cons hlt, InsnList.idAt_eq, List.getElem?_eq_getElem hlt, Option.getD_some]
      rw [← List.cons_append, ← List.append_assoc, ← hrow, ← hdrop, List.take_append_drop]
    refine ⟨ahead, between, _, horder, ⟨index, hinsn⟩, hcall, fun id hid => ?_⟩
    have hmem : id ∈ body.insns.order := by
      rw [← Array.mem_toList_iff, horder]
      simp [hid]
    refine ⟨isReal_of_skips (hskips id hid), fun hrefers => ?_⟩
    rcases hskips id hid with ⟨line, hline⟩ | ⟨_, halone⟩
    · exact hlines id hmem hrefers line hline
    · exact halone hrefers
  · cases h

end Site

namespace LooksUp

variable {body : Body} {text : String} {literal call : NodeId} {ahead between behind : List NodeId}

/-- The scan back from the call finds the literal. -/
theorem lastSolid?_eq (h : body.LooksUp text literal call ahead between behind) :
    lastSolid? body.insns body.referencedNodes (ahead.length + between.length + 1) = some literal := by
  have hrow : ∀ i ≤ between.length,
      lastSolid? body.insns body.referencedNodes (ahead.length + i + 1) = some literal := by
    intro i
    induction i with
    | zero =>
      intro _
      have hsolid : ¬ body.Skips (body.insns.idAt ahead.length) := by
        rw [h.idAt_literal]
        intro hskips
        have hmark := isReal_of_skips hskips
        rw [h.literal_real] at hmark
        cases hmark
      rw [Nat.add_zero, lastSolid?_of_not_skips hsolid, h.idAt_literal]
    | succ i ih =>
      intro hi
      have hidAt := h.idAt_between (i := i) hi
      obtain ⟨hreal, halone⟩ := h.marks _ (List.getElem_mem hi)
      rw [Nat.add_right_comm] at hidAt
      rw [← Nat.add_assoc, lastSolid?_of_skips (hidAt ▸ skips_of_mark hreal halone)]
      exact ih (by omega)
  exact hrow between.length (Nat.le_refl _)

/-- A look-up by the name of a class is a site. -/
theorem forNameSite?_eq (h : body.LooksUp text literal call ahead between behind) {className : String}
    (hname : ClassName.internal? text = some className) :
    body.forNameSite? body.referencedNodes (ahead.length + between.length + 1) =
      some ⟨ahead.length + between.length + 1, literal, text, className⟩ := by
  obtain ⟨index, hliteral⟩ := h.literal
  have hcall : (body.insns.insnAt (ahead.length + between.length + 1)).isForName = true := by
    rw [InsnList.insnAt, h.idAt_call]
    exact h.call
  rw [forNameSite?, hcall, if_neg (by decide), h.lastSolid?_eq]
  simp only [bind, Option.bind, hliteral, hname]
  rfl

end LooksUp

/-! ## Carrying the edits out -/

/-- Carried out, the plan gives the other body. -/
structure Prepares (body : Body) (now : InsnList) (plan : EditPlan) (after : Body) : Prop where
  recorded : body.insns.Recorded now plan
  nodes : after.insns.nodes = now.nodes
  order : after.insns.order.toList = body.insns.order.toList.flatMap plan.laid
  replaces : ∀ id, plan.insertedBefore id ≠ [] → plan.removed.contains id = true

namespace Prepares

variable {body after : Body} {now : InsnList} {plan : EditPlan}

theorem start (body : Body) : body.Prepares body.insns .empty body where
  recorded := .start body.insns
  nodes := rfl
  order := by
    have hself : ∀ id ∈ body.insns.order.toList, EditPlan.empty.laid id = [id] := by
      intro id _
      simp [EditPlan.laid, EditPlan.empty, EditPlan.insertedBefore]
    rw [List.flatMap_congr hself, List.flatMap_singleton']
  replaces id hid := absurd (EditPlan.insertedBefore_empty id) hid

variable (h : body.Prepares now plan after) (hproper : body.insns.Proper)
include h hproper

theorem fresh {anchor id : NodeId} (hid : id ∈ plan.insertedBefore anchor) : id ∉ body.insns.order :=
  fun hmem => h.recorded.fixed hproper hmem anchor hid

/-- Nodes that are left were neither replaced nor removed. -/
theorem untouched {id : NodeId} (hold : id ∈ body.insns.order) (hid : id ∈ after.insns.order) :
    plan.insertedBefore id = [] ∧ plan.removed.contains id = false := by
  have hkept : plan.removed.contains id = false := by
    rw [← Array.mem_toList_iff, h.order] at hid
    obtain ⟨n, _, hlaid⟩ := List.mem_flatMap.mp hid
    rcases List.mem_append.mp hlaid with hnew | hself
    · exact absurd hold (h.fresh hproper hnew)
    · split_ifs at hself with hremoved
      · cases hself
      · obtain rfl := List.mem_singleton.mp hself
        exact Bool.eq_false_iff.mpr hremoved
  refine ⟨?_, hkept⟩
  by_contra hplaced
  rw [h.replaces id hplaced] at hkept
  cases hkept

theorem record {call : Nat → NodeId} {s : ForNameSite} (hne : call s.position ≠ s.literal)
    (hliteral : s.literal ∈ after.insns.order) (hcall : call s.position ∈ after.insns.order)
    (hold : s.literal ∈ body.insns.order) (hold' : call s.position ∈ body.insns.order)
    (hreal : (body.insns.get s.literal).isReal = true) (hreal' : (body.insns.get (call s.position)).isReal = true) :
    body.Prepares (recordForName call (now, plan) s).1 (recordForName call (now, plan) s).2
      (after.loadAt s.literal (call s.position) s.className) := by
  have hrecord : recordForName call (now, plan) s = (⟨now.nodes ++ (initializedClass s.className).toArray, now.order⟩,
      ((plan.insertBefore (call s.position) (now.freshIds 3)).remove s.literal).remove (call s.position)) := by
    rw [recordForName, InsnList.createAll_eq]
    rfl
  have hrecorded := ((h.recorded.insertNew (isFresh_initializedClass s.className) hold').remove hreal).remove hreal'
  obtain ⟨hnone, hkept⟩ := h.untouched hproper hold hliteral
  obtain ⟨hnone', hkept'⟩ := h.untouched hproper hold' hcall
  rw [InsnList.createAll_eq] at hrecorded
  rw [hrecord]
  have hplaced : ∀ id, (((plan.insertBefore (call s.position) (now.freshIds 3)).remove s.literal).remove
      (call s.position)).insertedBefore id =
        if id = call s.position then now.freshIds 3 else plan.insertedBefore id := by
    intro id
    rw [EditPlan.insertedBefore_remove, EditPlan.insertedBefore_remove, EditPlan.insertedBefore_insertBefore, hnone',
      List.nil_append]
  have hgone : ∀ id, (((plan.insertBefore (call s.position) (now.freshIds 3)).remove s.literal).remove
      (call s.position)).removed.contains id =
        (plan.removed.contains id || decide (id = s.literal) || decide (id = call s.position)) := by
    intro id
    rw [EditPlan.contains_remove, EditPlan.contains_remove]
    rfl
  constructor
  case recorded => exact hrecorded
  case nodes => rw [loadAt, h.nodes]
  case order =>
    have hids : after.insns.freshIds 3 = now.freshIds 3 := by rw [InsnList.freshIds, InsnList.freshIds, h.nodes]
    show after.insns.order.toList.flatMap _ = _
    rw [h.order, List.flatMap_assoc, hids]
    refine List.flatMap_congr fun id hid => ?_
    rw [EditPlan.laid, EditPlan.laid, hplaced, hgone]
    by_cases hfirst : id = s.literal
    · subst hfirst
      rw [hnone, hkept, if_neg (Ne.symm hne)]
      simp [standIn_literal]
    by_cases hlast : id = call s.position
    · subst hlast
      rw [hnone', hkept']
      simp [standIn_call _ hne]
    · have hapart : ∀ {n}, n ∈ body.insns.order → id ≠ n →
          n ∉ plan.insertedBefore id ++ if plan.removed.contains id then [] else [id] := by
        intro n hn hne hmem
        rcases List.mem_append.mp hmem with hnew | hself
        · exact h.fresh hproper hnew hn
        · split_ifs at hself
          · cases hself
          · exact hne (List.mem_singleton.mp hself).symm
      rw [flatMap_standIn _ (hapart hold hfirst) (hapart hold' hlast), if_neg hlast, decide_eq_false hfirst,
        decide_eq_false hlast, Bool.or_false, Bool.or_false]
  case replaces =>
    intro id hid
    rw [hplaced] at hid
    rw [hgone]
    split_ifs at hid with hlast
    · simp [hlast]
    · rw [h.replaces id hid]
      rfl

/-- What is laid out is the order of the other body. -/
theorem commit (hdistinct : after.insns.order.toList.Nodup) : now.commit plan = after.insns := by
  have hleaf : ∀ id ∈ body.insns.order.toList, ∀ n ∈ plan.insertedBefore id, plan.insertedBefore n = [] := by
    intro id _ n hn
    refine List.eq_nil_iff_forall_not_mem.mpr fun m hm => ?_
    exact h.fresh hproper hn (h.recorded.placed n m hm).1
  have hlaid : ∀ id, (plan.insertedBefore id ++ [id]).filter (fun n => !plan.removed.contains n) = plan.laid id := by
    intro id
    have hkept : ∀ n ∈ plan.insertedBefore id, (!plan.removed.contains n) = true := by
      intro n hn
      rw [Bool.not_eq_true']
      refine Bool.eq_false_iff.mpr fun hremoved => ?_
      have hreal := h.recorded.removed n hremoved
      rw [InsnList.get, Array.getElem?_eq_none (h.recorded.placed id n hn).2.1] at hreal
      cases hreal
    rw [List.filter_append, List.filter_eq_self.mpr hkept, EditPlan.laid]
    cases hremoved : plan.removed.contains id with
    | true => simp [hremoved]
    | false => simp [hremoved]
  have hnodup : (body.insns.order.toList.flatMap fun id => plan.insertedBefore id ++ [id]).Nodup := by
    rw [h.order, List.nodup_flatMap] at hdistinct
    obtain ⟨heach, hpairs⟩ := hdistinct
    rw [List.nodup_flatMap]
    refine ⟨fun id hid => ?_, (hpairs.and hproper.distinct).imp_of_mem ?_⟩
    · rw [List.nodup_append]
      refine ⟨(List.nodup_append.mp (heach id hid)).1, List.nodup_singleton id, fun n hn m hm heq => ?_⟩
      rw [List.mem_singleton.mp hm] at heq
      exact h.fresh hproper hn (heq ▸ Array.mem_toList_iff.mp hid)
    · rintro x y hx hy ⟨hdisjoint, hne⟩ n hnx hny
      rcases List.mem_append.mp hnx with hnx | hnx
      · rcases List.mem_append.mp hny with hny | hny
        · exact hdisjoint (List.mem_append_left _ hnx) (List.mem_append_left _ hny)
        · rw [List.mem_singleton.mp hny] at hnx
          exact h.fresh hproper hnx (Array.mem_toList_iff.mp hy)
      · rw [List.mem_singleton.mp hnx] at hny
        rcases List.mem_append.mp hny with hny | hny
        · exact h.fresh hproper hny (Array.mem_toList_iff.mp hx)
        · exact hne (List.mem_singleton.mp hny)
  have horder : plan.apply now.order = after.insns.order := by
    rw [← Array.toList_inj, h.recorded.order, EditPlan.apply_of_direct h.recorded.moved hnodup hleaf,
      List.filter_flatMap, h.order]
    exact List.flatMap_congr fun id _ => hlaid id
  rw [InsnList.commit, horder, ← h.nodes]

end Prepares

/-- The edits of further sites are recorded, one site after the other. -/
theorem Prepares.recordAll {body after : Body} {now : InsnList} {plan : EditPlan} {call : Nat → NodeId}
    {sites : List ForNameSite} (h : body.Prepares now plan after) (hproper : body.insns.Proper)
    (hsites : after.Sites call sites)
    (hold : ∀ s ∈ sites, (s.literal ∈ body.insns.order ∧ (body.insns.get s.literal).isReal = true) ∧
      call s.position ∈ body.insns.order ∧ (body.insns.get (call s.position)).isReal = true) :
    body.Prepares (sites.foldl (recordForName call) (now, plan)).1 (sites.foldl (recordForName call) (now, plan)).2
      (after.loadAll call sites) := by
  induction sites generalizing now plan after with
  | nil => exact h
  | cons s sites ih =>
    obtain ⟨⟨⟨hliteral, hreal⟩, hcall, hreal'⟩, hrest⟩ := List.forall_mem_cons.mp hold
    obtain ⟨hleft, hleft'⟩ := hsites.mem List.mem_cons_self
    obtain ⟨_, _, _, hfirst⟩ := hsites.lookUps s List.mem_cons_self
    have hne : call s.position ≠ s.literal := Ne.symm hfirst.ne
    exact ih (h.record hproper hne hleft hleft' hliteral hcall hreal hreal') hsites.load hrest

/-! ## The sites that are replaced -/

/-- What jumps lead to and regions name are labels. -/
def PointsAtLabels (body : Body) : Prop :=
  ∀ id ∈ body.insns.order, body.RefersTo id → body.insns.get id = .label

open Code in
/-- A body that was read points at labels. -/
theorem pointsAtLabels_of_decode {pool : ConstantPool} {code : CodeAttribute} {body : Body}
    (h : Body.decode pool code = .ok body) : body.PointsAtLabels := by
  obtain ⟨insns, tables, regions, hlocated, _, hboundaries, hregions, hbody⟩ := Body.decode_eq_ok.mp h
  have horder := inOrder_of_located hlocated
  have hinsns : body.insns = listOf code.code.length insns (referenced insns code.handlers tables) tables.lines := by
    rw [hbody]
  have hhandlers : body.regions = regions := by rw [hbody]
  have hlabel : ∀ o ∈ referenced insns code.handlers tables,
      body.insns.get ((labelsOf code.code.length (referenced insns code.handlers tables)).find o) = .label := by
    intro o ho
    obtain ⟨_, _, hfind, _⟩ := @InOrder.exists_label _ _ _ tables.lines horder o ho (hboundaries o ho)
    rw [Labels.find, hfind, Option.getD_some, hinsns]
    exact horder.get_label hfind
  intro id _ hrefers
  rcases hrefers with ⟨n, hn, hid⟩ | ⟨r, hr, hid⟩
  · cases hreal : (body.insns.get n).isReal with
    | false =>
      rw [(Insn.targets_eq_nil_of_not_isReal hreal).1] at hid
      cases hid
    | true =>
      have hmem : body.insns.get n ∈ body.insns.reals := by
        rw [InsnList.reals, List.mem_filter, Array.mem_toList_iff, InsnList.insns, Array.mem_map]
        exact ⟨⟨n, hn, rfl⟩, hreal⟩
      rw [hinsns, horder.reals_listOf, ← hinsns] at hmem
      obtain ⟨l, hl, hlink⟩ := List.mem_map.mp hmem
      obtain ⟨_, _, hspells⟩ := (located_iff.mp hlocated).exists_of_mem hl
      rw [← hlink, hspells.targets_link] at hid
      obtain ⟨o, ho, rfl⟩ := List.mem_map.mp hid
      exact hlabel o (mem_referenced_target hl ho)
  · rw [hhandlers] at hr
    obtain ⟨handler, hhandler, hregion⟩ := mem_mapM_ok hregions hr
    obtain ⟨hstart, hstop, hcatch, _⟩ := region_eq_ok hregion
    have hnamed : ∀ o ∈ [handler.start.toNat, handler.stop.toNat, handler.handler.toNat],
        o ∈ referenced insns code.handlers tables :=
      fun o ho => mem_referenced_region hhandler ho
    rcases hid with rfl | rfl | rfl
    · rw [hstart]
      exact hlabel _ (hnamed _ (by simp))
    · rw [hstop]
      exact hlabel _ (hnamed _ (by simp))
    · rw [hcatch]
      exact hlabel _ (hnamed _ (by simp))

/-- The site is one of the body, and nothing speaks against its replacement. -/
def Transforms (ctx : MethodContext) (body : Body) (s : ForNameSite) : Prop :=
  s.position < body.insns.size ∧ body.forNameSite? body.referencedNodes s.position = some s ∧
    forNameRefusal ctx s = none

/-- The sites that are replaced, in order. -/
def transformed (ctx : MethodContext) (body : Body) : List ForNameSite :=
  ((List.range body.insns.size).filterMap (body.forNameSite? body.referencedNodes)).filter
    fun s => (forNameRefusal ctx s).isNone

section Transformed

variable {ctx : MethodContext} {body : Body} {s : ForNameSite}

theorem mem_transformed : s ∈ body.transformed ctx ↔ body.Transforms ctx s := by
  rw [transformed, List.mem_filter, List.mem_filterMap, Option.isNone_iff_eq_none, Transforms]
  constructor
  · rintro ⟨⟨p, hp, hsite⟩, haccepted⟩
    obtain ⟨rfl, _⟩ := forNameSite?_spec hsite
    exact ⟨List.mem_range.mp hp, hsite, haccepted⟩
  · rintro ⟨hp, hsite, haccepted⟩
    exact ⟨⟨s.position, List.mem_range.mpr hp, hsite⟩, haccepted⟩

theorem sparesLines_of_pointsAtLabels (h : body.PointsAtLabels) : body.SparesLines := by
  intro id hid hrefers line hline
  rw [h id hid hrefers] at hline
  cases hline

theorem Transforms.looksUp (h : body.Transforms ctx s) (hlines : body.SparesLines) :
    ClassName.internal? s.name = some s.className ∧ ∃ ahead between behind,
      body.LooksUp s.name s.literal (body.insns.idAt s.position) ahead between behind :=
  (looksUp_of_forNameSite? h.2.1 h.1 hlines).2

theorem sites_transformed (ctx : MethodContext) (hproper : body.insns.Proper) (hlabels : body.PointsAtLabels) :
    body.Sites body.insns.idAt (body.transformed ctx) := by
  have hlines := sparesLines_of_pointsAtLabels hlabels
  have halone : ∀ {id}, id ∈ body.insns.order → (body.insns.get id).isReal = true → ¬ body.RefersTo id := by
    intro id hid hreal hrefers
    rw [hlabels id hid hrefers] at hreal
    cases hreal
  constructor
  case proper => exact hproper
  case lookUps =>
    intro s hs
    obtain ⟨_, ahead, between, behind, hlooks⟩ := (mem_transformed.mp hs).looksUp hlines
    exact ⟨between, ahead, behind, hlooks⟩
  case alone =>
    intro s hs
    obtain ⟨_, ahead, between, behind, hlooks⟩ := (mem_transformed.mp hs).looksUp hlines
    exact ⟨halone hlooks.literal_mem hlooks.literal_real, halone hlooks.call_mem hlooks.call_real⟩
  case apart =>
    rw [transformed]
    refine List.Pairwise.filter _ (List.pairwise_filterMap.mpr ?_)
    refine List.pairwise_lt_range.imp_of_mem fun hp hq hlt s hs s' hs' heq => ?_
    obtain ⟨rfl, _⟩ := forNameSite?_spec hs
    obtain ⟨rfl, _⟩ := forNameSite?_spec hs'
    have := hproper.idAt_inj (List.mem_range.mp hp) (List.mem_range.mp hq) heq
    omega

theorem insns_loadAll (call : Nat → NodeId) (body : Body) (sites : List ForNameSite) :
    body.loadAll call sites = { body with insns := (body.loadAll call sites).insns } := by
  induction sites generalizing body with
  | nil => rfl
  | cons s sites ih => exact ih _

theorem replaceForNames_of_none (h : body.transformed ctx = []) : (body.replaceForNames ctx).1 = body := by
  unfold replaceForNames
  dsimp only
  split_ifs with hempty
  · rfl
  · exact absurd (List.isEmpty_iff.mpr h) hempty

/-- All sites at once are replaced as if classes were loaded in their place, one after the other. -/
theorem replaceForNames_eq (ctx : MethodContext) (hproper : body.insns.Proper) (hlabels : body.PointsAtLabels) :
    (body.replaceForNames ctx).1 = body.loadAll body.insns.idAt (body.transformed ctx) := by
  have hsites := sites_transformed ctx hproper hlabels
  have hprepares := (Prepares.start body).recordAll hproper hsites fun s hs => by
    obtain ⟨_, _, _, hlooks⟩ := hsites.lookUps s hs
    exact ⟨⟨hlooks.literal_mem, hlooks.literal_real⟩, hlooks.call_mem, hlooks.call_real⟩
  by_cases hnone : body.transformed ctx = []
  · rw [replaceForNames_of_none hnone, hnone]
    rfl
  · rw [insns_loadAll, ← hprepares.commit hproper hsites.loadAll_proper.distinct]
    unfold replaceForNames
    dsimp only
    split_ifs with hempty
    · exact absurd (List.isEmpty_iff.mp hempty) hnone
    · rfl

end Transformed

end Body

end DirectCall
