import DirectCall.Proofs.CallSite.ClassSites

/-!
# Class look-ups are replaced locally

After the look-ups of a body were replaced, three new nodes stand for the call of each site, which leave on the stack
what the call left; all other nodes have their places and constant propagation comes to the same frames at them, those
of the sites apart (`Body.replaceForNames_local`). There is nothing left to replace, so a second run changes nothing.
-/

namespace DirectCall

/-- Straight instructions take one frame to the other, one after the other. -/
def Frame.TakesAll {V : Type} [DecidableEq V] (d : Domain V) : List Insn → Frame V → Frame V → Prop
  | [], f, g => f = g
  | insn :: rest, f, g => ∃ next, Takes d insn f next ∧ TakesAll d rest next g

namespace Body

/-- What becomes of a body, with its frames, where its class look-ups are replaced. -/
structure ReplacesLocally (ctx : MethodContext) (body after : Body) (frames : Frame.Frames ConstantValue) : Prop where
  others : after = { body with insns := after.insns }
  nodes : ∃ made, Loads (body.Transforms ctx) body.insns.idAt body.insns after.insns made
  between : ∀ s, body.Transforms ctx s → ∀ p, body.insns.rank s.literal < p → p < s.position →
    body.Skips (body.insns.idAt p)
  result : ∀ s, body.Transforms ctx s → ∀ f : Frame ConstantValue,
    Frame.TakesAll ConstantValue.domain [body.insns.get s.literal, body.insns.insnAt s.position] f
        (f.push (.unknown .single)) ∧
      Frame.TakesAll ConstantValue.domain (initializedClass s.className) f (f.push (.unknown .single))
  frames : ∃ frames', constantFrames ctx.method after = .ok frames' ∧
    ∀ id ∈ body.insns.order,
      (∀ s, body.Transforms ctx s →
        ¬ (body.insns.rank s.literal ≤ body.insns.rank id ∧ body.insns.rank id ≤ s.position)) →
      Frame.SameFrame body.insns after.insns frames frames' id
  again : (after.replaceForNames ctx).1 = after ∧ ∀ o ∈ (after.replaceForNames ctx).2, o.isTransformed = false

/-! ## Where a look-up stands -/

namespace LooksUp

variable {body : Body} {text : String} {literal call : NodeId} {ahead between behind : List NodeId}
  (h : body.LooksUp text literal call ahead between behind) (hproper : body.insns.Proper)
include h hproper

theorem rank_literal : body.insns.rank literal = ahead.length := by
  have hsize := h.size_eq
  have hrank := hproper.rank_idAt (show ahead.length < body.insns.size by omega)
  rwa [h.idAt_literal] at hrank

theorem rank_call : body.insns.rank call = ahead.length + between.length + 1 := by
  have hsize := h.size_eq
  have hrank := hproper.rank_idAt (show ahead.length + between.length + 1 < body.insns.size by omega)
  rwa [h.idAt_call] at hrank

/-- The nodes of a look-up are those from the literal to the call. -/
theorem rank_of_mem {id : NodeId} (hid : id ∈ literal :: (between ++ [call])) :
    body.insns.rank literal ≤ body.insns.rank id ∧ body.insns.rank id ≤ body.insns.rank call := by
  rw [h.rank_literal hproper, h.rank_call hproper]
  simp only [List.mem_cons, List.mem_append, List.not_mem_nil, or_false] at hid
  rcases hid with rfl | hid | rfl
  · rw [h.rank_literal hproper]
    omega
  · obtain ⟨i, hi, rfl⟩ := List.getElem_of_mem hid
    have hsize := h.size_eq
    have hrank := hproper.rank_idAt (show ahead.length + 1 + i < body.insns.size by omega)
    rw [h.idAt_between hi] at hrank
    omega
  · rw [h.rank_call hproper]
    omega

end LooksUp

/-! ## Nothing is left to replace -/

/-- A node of the new order stood in the old one and is no call of a site, or it is a new one. -/
theorem Loads.mem_cases {P : ForNameSite → Prop} {call : Nat → NodeId} {old new : InsnList}
    {made : NodeId → List NodeId} (h : Loads P call old new made) {id : NodeId} (hid : id ∈ new.order) :
    (id ∈ old.order ∧ ∀ s, P s → id ≠ call s.position) ∨
      ∃ s, P s ∧ new.get id ∈ initializedClass s.className ∧ old.nodes.size ≤ id.index := by
  rw [← Array.mem_toList_iff, h.order] at hid
  obtain ⟨n, hn, hid⟩ := List.mem_flatMap.mp hid
  by_cases hsite : ∃ s, P s ∧ (n = s.literal ∨ n = call s.position)
  · obtain ⟨s, hs, rfl | rfl⟩ := hsite
    · rw [h.literal s hs] at hid
      cases hid
    · refine .inr ⟨s, hs, ?_, h.fresh s hs id hid⟩
      rw [← h.code s hs]
      exact List.mem_map_of_mem hid
  · have hout : ∀ s, P s → n ≠ s.literal ∧ n ≠ call s.position := by
      intro s hs
      exact ⟨fun heq => hsite ⟨s, hs, .inl heq⟩, fun heq => hsite ⟨s, hs, .inr heq⟩⟩
    rw [h.stays n hout, List.mem_singleton] at hid
    subst hid
    exact .inl ⟨Array.mem_toList_iff.mp hn, fun s hs => (hout s hs).2⟩

/-- Only sites that are accepted are reported as replaced. -/
theorem transforms_of_outcome {ctx : MethodContext} {body : Body} {o : SiteOutcome}
    (h : o ∈ (body.replaceForNames ctx).2) (htransformed : o.isTransformed = true) : ∃ s, body.Transforms ctx s := by
  have houtcomes : (body.replaceForNames ctx).2 =
      ((List.range body.insns.size).filterMap (body.forNameSite? body.referencedNodes)).map fun s =>
        SiteOutcome.mk .forName (body.lineAt s.position) s.name (forNameRefusal ctx s) := by
    unfold replaceForNames
    dsimp only
    split_ifs <;> rfl
  rw [houtcomes] at h
  obtain ⟨s, hs, rfl⟩ := List.mem_map.mp h
  exact ⟨s, mem_transformed.mp (List.mem_filter.mpr ⟨hs, htransformed⟩)⟩

section Local

variable {ctx : MethodContext} {body : Body}

/-- Where the sites were replaced, no site is left. -/
theorem not_transforms_loadAll (hproper : body.insns.Proper) (hlabels : body.PointsAtLabels) (s : ForNameSite) :
    ¬ (body.loadAll body.insns.idAt (body.transformed ctx)).Transforms ctx s := by
  intro htransforms
  have hsites := sites_transformed ctx hproper hlabels
  obtain ⟨made, hmade⟩ := hsites.exists_made
  have hlines : (body.loadAll body.insns.idAt (body.transformed ctx)).SparesLines := by
    intro id hid hrefers line hline
    rcases hmade.mem_cases hid with ⟨hold, _⟩ | ⟨s, _, hnew, _⟩
    · rw [hmade.get id (hproper.owned id hold)] at hline
      exact sparesLines_of_pointsAtLabels hlabels id hold (hsites.refersTo_loadAll.mp hrefers) line hline
    · have hreal := (mem_initializedClass hnew).1
      rw [hline] at hreal
      cases hreal
  obtain ⟨hname, _, between, _, hlooks⟩ := htransforms.looksUp hlines
  obtain ⟨front, back, hlooks'⟩ := hsites.of_loadAll hlooks
  have hsize := hlooks'.size_eq
  have hinside : front.length + between.length + 1 < body.insns.size := by omega
  -- So it was a site already, which is replaced, and its call is gone.
  have hbefore : body.Transforms ctx ⟨_, s.literal, s.name, s.className⟩ :=
    ⟨hinside, hlooks'.forNameSite?_eq hname, htransforms.2.2⟩
  rcases hmade.mem_cases hlooks.call_mem with ⟨_, hout⟩ | ⟨s', _, hnew, _⟩
  · exact hout _ (mem_transformed.mpr hbefore) hlooks'.idAt_call.symm
  · have hcall := (mem_initializedClass hnew).2.2.1
    rw [hlooks.call] at hcall
    cases hcall

/-- Class look-ups are replaced locally, and all at once. -/
theorem replaceForNames_local {frames : Frame.Frames ConstantValue} (hproper : body.insns.Proper)
    (hlabels : body.PointsAtLabels) (h : constantFrames ctx.method body = .ok frames) :
    body.ReplacesLocally ctx (body.replaceForNames ctx).1 frames := by
  have hsites := sites_transformed ctx hproper hlabels
  have hlines := sparesLines_of_pointsAtLabels hlabels
  rw [replaceForNames_eq ctx hproper hlabels]
  constructor
  case others => exact insns_loadAll _ _ _
  case nodes =>
    obtain ⟨made, hmade⟩ := hsites.exists_made
    simp only [mem_transformed] at hmade
    exact ⟨made, hmade⟩
  case between =>
    intro s hs p hahead hbehind
    obtain ⟨_, ahead, between, behind, hlooks⟩ := hs.looksUp hlines
    have hcall := hlooks.rank_call hproper
    rw [hproper.rank_idAt hs.1] at hcall
    rw [hlooks.rank_literal hproper] at hahead
    have hmark := hlooks.idAt_between (i := p - (ahead.length + 1)) (by omega)
    rw [show ahead.length + 1 + (p - (ahead.length + 1)) = p by omega] at hmark
    obtain ⟨hreal, halone⟩ := hlooks.marks _ (List.getElem_mem (show p - (ahead.length + 1) < between.length by omega))
    rw [← hmark] at hreal halone
    exact skips_of_mark hreal halone
  case result =>
    intro s hs f
    obtain ⟨_, _, _, _, hlooks⟩ := hs.looksUp hlines
    obtain ⟨index, hliteral⟩ := hlooks.literal
    constructor
    · rw [hliteral]
      exact ⟨_, ConstantValue.takes_constant index rfl (fun _ => rfl) f, _,
        ConstantValue.takes_forName hlooks.call s.name f, rfl⟩
    · exact ⟨_, @ConstantValue.takes_lookup s.className _ f rfl, _, ConstantValue.takes_classRef _ rfl, _,
        @ConstantValue.takes_ensureInitialized s.className _ f rfl, rfl⟩
  case frames =>
    obtain ⟨frames', hrun, hsame⟩ := hsites.settles (Frame.settles_of_analyze h)
    refine ⟨frames', hrun.analyze_eq (ConstantValue.ends ctx.method _), fun id hid hout => ?_⟩
    refine hsame id hid fun s hs between hlooks hmem => hout s (mem_transformed.mp hs) ?_
    obtain ⟨_, _, hlooks⟩ := hlooks
    have hrank := hlooks.rank_of_mem hproper hmem
    rwa [hproper.rank_idAt (mem_transformed.mp hs).1] at hrank
  case again =>
    have hnone : (body.loadAll body.insns.idAt (body.transformed ctx)).transformed ctx = [] :=
      List.eq_nil_iff_forall_not_mem.mpr fun s hs => not_transforms_loadAll hproper hlabels s (mem_transformed.mp hs)
    refine ⟨replaceForNames_of_none hnone, fun o ho => ?_⟩
    by_contra htransformed
    rw [Bool.not_eq_false] at htransformed
    obtain ⟨s, hs⟩ := transforms_of_outcome ho htransformed
    exact not_transforms_loadAll hproper hlabels s hs

end Local

/-! ## One look-up among others

A region covers the first look-up, with a line and a label between literal and call. The class of the second
one may not be referenced. -/

def lookUpContext : MethodContext where
  method := ⟨"a/A", "m", "()V", 0x0008⟩
  majorVersion := 52
  hierarchy := Hierarchy.freeze ∅
  canReference className := className == "a/B"

def forNameCall : Insn :=
  .call Opcode.invokestatic ⟨"java/lang/Class", "forName", "(Ljava/lang/String;)Ljava/lang/Class;"⟩ false

def lookUpBody : Body where
  insns := InsnList.ofInsns #[
    .label, .load (.string "a.B"), .line 7, .label, forNameCall, .op Opcode.pop, .label,
    .load (.string "b.C"), forNameCall, .op Opcode.pop, .op Opcode.returnVoid, .label, .op Opcode.athrow]
  regions := [⟨⟨0⟩, ⟨6⟩, ⟨11⟩, none⟩]
  locals := []
  maxStack := 1
  maxLocals := 0

theorem lookUpBody_refersTo {id : NodeId} : lookUpBody.RefersTo id ↔ id = ⟨0⟩ ∨ id = ⟨6⟩ ∨ id = ⟨11⟩ := by
  have hnone : ∀ n ∈ lookUpBody.insns.order, (lookUpBody.insns.get n).targets = [] := by decide +kernel
  constructor
  · rintro (⟨n, hn, hid⟩ | ⟨r, hr, hid⟩)
    · rw [hnone n hn] at hid
      cases hid
    · obtain rfl := List.mem_singleton.mp hr
      exact hid
  · exact fun hid => .inr ⟨_, List.mem_singleton.mpr rfl, hid⟩

theorem lookUpBody_pointsAtLabels : lookUpBody.PointsAtLabels := by
  intro id _ hrefers
  rcases lookUpBody_refersTo.mp hrefers with rfl | rfl | rfl
  · rfl
  · rfl
  · rfl

theorem lookUpBody_looksUp : lookUpBody.LooksUp "a.B" ⟨1⟩ ⟨4⟩ [⟨0⟩] [⟨2⟩, ⟨3⟩]
    [⟨5⟩, ⟨6⟩, ⟨7⟩, ⟨8⟩, ⟨9⟩, ⟨10⟩, ⟨11⟩, ⟨12⟩] where
  order := by decide +kernel
  literal := ⟨0, rfl⟩
  call := by decide
  marks id hid := by
    rw [lookUpBody_refersTo]
    simp only [List.mem_cons, List.not_mem_nil, or_false] at hid
    rcases hid with rfl | rfl
    · exact ⟨rfl, by decide⟩
    · exact ⟨rfl, by decide⟩

/-- The look-up of the class that may be referenced is replaced, and all else is as the theorem says. -/
theorem lookUpBody_replacesLocally : lookUpBody.Transforms lookUpContext ⟨4, ⟨1⟩, "a.B", "a/B"⟩ ∧
    ∃ frames, constantFrames lookUpContext.method lookUpBody = .ok frames ∧
      lookUpBody.ReplacesLocally lookUpContext (lookUpBody.replaceForNames lookUpContext).1 frames := by
  have hname : ClassName.internal? "a.B" = some "a/B" := by decide +kernel
  have hends : (constantFrames lookUpContext.method lookUpBody).isOk = true := by decide +kernel
  refine ⟨⟨by decide +kernel, lookUpBody_looksUp.forNameSite?_eq hname, by decide +kernel⟩, ?_⟩
  cases hframes : constantFrames lookUpContext.method lookUpBody with
  | error fault =>
    rw [hframes] at hends
    cases hends
  | ok frames =>
    exact ⟨frames, rfl, replaceForNames_local (InsnList.ofInsns_proper _) lookUpBody_pointsAtLabels hframes⟩

end Body

end DirectCall
