import DirectCall.Proofs.CallSite.ClassLookup

/-!
# Several class look-ups

No two look-ups of a body have a node in common. So each of them is one still where a class is loaded in the
place of another (`Body.LooksUp.loadAt_other`), and there is no look-up that was not there
(`Body.LooksUp.of_loadAt`). Where classes are loaded in the place of several look-ups, one after the other
(`Body.loadAll`), constant propagation therefore comes to the same frames at all nodes apart from them
(`Body.Sites.settles`), and the nodes of each give way to three new ones (`Body.Sites.exists_made`).
-/

namespace DirectCall

/-- A row that has nothing in common with the middle of a list lies on one side of it. -/
theorem append_of_row_apart {α : Type} {xs middle ys ahead row behind : List α}
    (h : xs ++ (middle ++ ys) = ahead ++ (row ++ behind)) (hmiddle : middle ≠ []) (hrow : row ≠ [])
    (hapart : ∀ x ∈ row, x ∉ middle) :
    (∃ rest, xs = ahead ++ (row ++ rest)) ∨ ∃ front, ys = front ++ (row ++ behind) := by
  rcases List.append_eq_append_iff.mp h with ⟨as, rfl, hrest⟩ | ⟨cs, rfl, hrest⟩
  · rcases List.append_eq_append_iff.mp hrest with ⟨front, rfl, hys⟩ | ⟨cs, rfl, hrow'⟩
    · exact .inr ⟨front, hys⟩
    · cases cs with
      | nil => exact .inr ⟨[], hrow'.symm⟩
      | cons first rest =>
        obtain ⟨x, row', rfl⟩ := List.exists_cons_of_ne_nil hrow
        obtain ⟨rfl, _⟩ := List.cons.inj hrow'
        exact absurd (by simp) (hapart x List.mem_cons_self)
  · rcases List.append_eq_append_iff.mp hrest with ⟨rest, rfl, _⟩ | ⟨rest, rfl, hmiddle'⟩
    · exact .inl ⟨rest, rfl⟩
    · cases rest with
      | nil => exact .inl ⟨[], by simp⟩
      | cons first rest =>
        obtain ⟨x, middle', rfl⟩ := List.exists_cons_of_ne_nil hmiddle
        obtain ⟨rfl, _⟩ := List.cons.inj hmiddle'
        exact absurd List.mem_cons_self (hapart x (by simp))

/-- A look-up is a real instruction that leads nowhere else. -/
theorem Insn.plain_of_isForName {insn : Insn} (h : insn.isForName = true) : insn.isReal = true ∧ insn.targets = [] := by
  cases insn with
  | invoke code index member interface => exact ⟨rfl, rfl⟩
  | _ => cases h

namespace Body

/-- What loads a class and initialises it is real, leads nowhere else, and is no part of a look-up. -/
theorem mem_initializedClass {className : String} {insn : Insn} (h : insn ∈ initializedClass className) :
    insn.isReal = true ∧ insn.targets = [] ∧ insn.isForName = false ∧
      ∀ index text, insn ≠ .ldc index (.string text) := by
  simp only [initializedClass, List.mem_cons, List.not_mem_nil, or_false] at h
  rcases h with rfl | rfl | rfl
  all_goals
    refine ⟨rfl, rfl, rfl, fun index text heq => ?_⟩
    cases heq

theorem map_get_freshIds (body : Body) (literal call : NodeId) (className : String) :
    (body.insns.freshIds 3).map (body.loadAt literal call className).insns.get = initializedClass className := by
  have hnodes : (body.loadAt literal call className).insns.nodes.toList =
      body.insns.nodes.toList ++ (initializedClass className ++ []) := by
    simp [loadAt]
  exact InsnList.map_get_numbered hnodes

theorem get_freshIds {body : Body} {literal call id : NodeId} {className : String}
    (hid : id ∈ body.insns.freshIds 3) :
    (body.loadAt literal call className).insns.get id ∈ initializedClass className := by
  rw [← map_get_freshIds body literal call className]
  exact List.mem_map_of_mem hid

namespace LooksUp

variable {body : Body} {text text' className : String} {literal call literal' call' : NodeId}
  {ahead between behind ahead' between' behind' : List NodeId}

section One

variable (h : body.LooksUp text literal call ahead between behind)
include h

theorem literal_real : (body.insns.get literal).isReal = true := by
  obtain ⟨index, hliteral⟩ := h.literal
  rw [hliteral]
  rfl

theorem call_real : (body.insns.get call).isReal = true := (Insn.plain_of_isForName h.call).1

theorem literal_ne_call (h' : body.LooksUp text' literal' call' ahead' between' behind') : literal ≠ call' := by
  rintro rfl
  obtain ⟨index, hliteral⟩ := h.literal
  have hcall := h'.call
  rw [hliteral] at hcall
  cases hcall

/-- The call is the first real instruction behind the literal. -/
theorem find?_call : (between ++ call :: behind).find? (fun id => (body.insns.get id).isReal) = some call := by
  have hnone : between.find? (fun id => (body.insns.get id).isReal) = none :=
    List.find?_eq_none.mpr fun id hid => by rw [(h.marks id hid).1]; exact Bool.false_ne_true
  have hcall : (call :: behind).find? (fun id => (body.insns.get id).isReal) = some call :=
    List.find?_cons_of_pos h.call_real
  rw [List.find?_append, hnone, Option.none_or, hcall]

/-- Only one call looks a class up by a literal. -/
theorem call_eq (hproper : body.insns.Proper) (h' : body.LooksUp text' literal call' ahead' between' behind') :
    call' = call := by
  have hdistinct := hproper.distinct
  rw [h.order, List.nodup_append, List.nodup_cons] at hdistinct
  obtain ⟨_, ⟨hbehind, _⟩, hahead⟩ := hdistinct
  have hsplit := h.order.symm.trans h'.order
  rw [List.append_cons_inj_of_notMem (fun hmem => hahead literal hmem literal List.mem_cons_self rfl) hbehind] at hsplit
  have hcall := h.find?_call
  rw [hsplit.2.2, h'.find?_call] at hcall
  exact Option.some.inj hcall

theorem not_mem_between (h' : body.LooksUp text' literal' call' ahead' between' behind') :
    literal ∉ between' ∧ call ∉ between' := by
  constructor
  · intro hmem
    have hmark := (h'.marks literal hmem).1
    rw [h.literal_real] at hmark
    cases hmark
  · intro hmem
    have hmark := (h'.marks call hmem).1
    rw [h.call_real] at hmark
    cases hmark

variable (hproper : body.insns.Proper)
include hproper

/-- New instructions lead nowhere, and those that are gone led nowhere. -/
theorem refersTo_loadAt {id : NodeId} :
    (body.loadAt literal call className).RefersTo id ↔ body.RefersTo id := by
  refine or_congr ⟨?_, ?_⟩ .rfl
  · rintro ⟨n, hn, hid⟩
    rcases (h.mem_loadAt hproper).mp hn with hnew | ⟨hold, _⟩
    · rw [(mem_initializedClass (get_freshIds hnew)).2.1] at hid
      cases hid
    · rw [get_loadAt (hproper.owned n hold)] at hid
      exact ⟨n, hold, hid⟩
  · rintro ⟨n, hn, hid⟩
    refine ⟨n, (h.mem_loadAt hproper).mpr (.inr ⟨hn, ?_, ?_⟩), ?_⟩
    · rintro rfl
      obtain ⟨index, hliteral⟩ := h.literal
      rw [hliteral] at hid
      cases hid
    · rintro rfl
      rw [(Insn.plain_of_isForName h.call).2] at hid
      cases hid
    · rw [get_loadAt (hproper.owned n hn)]
      exact hid

/-- A look-up is one still where a class is loaded in the place of another one. -/
theorem loadAt_other (h' : body.LooksUp text' literal' call' ahead' between' behind') (hne : call' ≠ call) :
    ∃ front back, (body.loadAt literal call className).LooksUp text' literal' call' front between' back := by
  have hliteral : literal' ≠ literal := by
    rintro rfl
    exact hne (h.call_eq hproper h')
  have hmixed : literal' ≠ call := h'.literal_ne_call h
  have hmixed' : call' ≠ literal := Ne.symm (h.literal_ne_call h')
  obtain ⟨hout, hout'⟩ := h.not_mem_between h'
  refine ⟨ahead'.flatMap (standIn literal call (body.insns.freshIds 3)),
    behind'.flatMap (standIn literal call (body.insns.freshIds 3)), ?_⟩
  constructor
  case order =>
    show body.insns.order.toList.flatMap _ = _
    rw [h'.order, List.flatMap_append, List.flatMap_cons, List.flatMap_append, List.flatMap_cons,
      standIn_self _ hliteral hmixed, standIn_self _ hmixed' hne, flatMap_standIn _ hout hout']
    rfl
  case literal =>
    rw [get_loadAt (hproper.owned _ h'.literal_mem)]
    exact h'.literal
  case call =>
    rw [get_loadAt (hproper.owned _ h'.call_mem)]
    exact h'.call
  case marks =>
    intro id hid
    rw [get_loadAt (hproper.owned _ (h'.mem_of_between hid)), h.refersTo_loadAt hproper]
    exact h'.marks id hid

/-- There is no look-up that was not there. -/
theorem of_loadAt
    (h' : (body.loadAt literal call className).LooksUp text' literal' call' ahead' between' behind') :
    ∃ front back, body.LooksUp text' literal' call' front between' back := by
  -- No part of the look-up is new.
  have hold : ∀ id ∈ literal' :: (between' ++ [call']), id ∉ body.insns.freshIds 3 := by
    intro id hid hnew
    have hinsn : (body.loadAt literal call className).insns.get id ∈ initializedClass className := get_freshIds hnew
    obtain ⟨hreal, _, hcall, hliteral⟩ := mem_initializedClass hinsn
    simp only [List.mem_cons, List.mem_append, List.not_mem_nil, or_false] at hid
    rcases hid with rfl | hid | rfl
    · obtain ⟨index, hinsn⟩ := h'.literal
      exact hliteral index text' hinsn
    · rw [(h'.marks id hid).1] at hreal
      cases hreal
    · rw [h'.call] at hcall
      cases hcall
  have hget : ∀ id ∈ literal' :: (between' ++ [call']), (body.loadAt literal call className).insns.get id =
      body.insns.get id := by
    intro id hid
    have hmem : id ∈ (body.loadAt literal call className).insns.order := by
      rw [← Array.mem_toList_iff, h'.order]
      simp only [List.mem_cons, List.mem_append, List.not_mem_nil, or_false] at hid ⊢
      tauto
    have hkept := ((h.mem_loadAt hproper).mp hmem).resolve_left (hold id hid)
    exact get_loadAt (hproper.owned id hkept.1)
  have hrow : (ahead ++ between) ++ (body.insns.freshIds 3 ++ behind) =
      ahead' ++ ((literal' :: (between' ++ [call'])) ++ behind') := by
    rw [List.append_assoc, ← h.order_loadAt hproper, h'.order]
    simp
  have hnew : body.insns.freshIds 3 ≠ [] := List.cons_ne_nil _ _
  obtain ⟨front, back, horder⟩ :
      ∃ front back, body.insns.order.toList = front ++ literal' :: (between' ++ call' :: back) := by
    rcases append_of_row_apart hrow hnew (List.cons_ne_nil _ _) hold with ⟨rest, hrest⟩ | ⟨front, hfront⟩
    · -- A call is not among the marks, so the row ends ahead of them.
      have hout : call' ∉ between := by
        intro hmem
        have hmark := (h.marks call' hmem).1
        rw [← hget call' (by simp), (Insn.plain_of_isForName h'.call).1] at hmark
        cases hmark
      rw [show ahead' ++ ((literal' :: (between' ++ [call'])) ++ rest) =
        (ahead' ++ literal' :: between') ++ call' :: rest by simp] at hrest
      rcases List.append_eq_append_iff.mp hrest with ⟨as, _, rfl⟩ | ⟨cs, rfl, hcs⟩
      · exact absurd (by simp) hout
      · cases cs with
        | nil =>
          have hcs : call' :: rest = between := hcs
          exact absurd (hcs ▸ List.mem_cons_self) hout
        | cons first back =>
          obtain ⟨rfl, _⟩ := List.cons.inj hcs
          exact ⟨ahead', back ++ literal :: (between ++ call :: behind), by rw [h.order]; simp⟩
    · exact ⟨ahead ++ literal :: (between ++ call :: front), behind', by rw [h.order, hfront]; simp⟩
  refine ⟨front, back, horder, ?_, ?_, fun id hid => ?_⟩
  · rw [← hget literal' List.mem_cons_self]
    exact h'.literal
  · rw [← hget call' (by simp)]
    exact h'.call
  · rw [← hget id (by simp [hid]), ← h.refersTo_loadAt hproper]
    exact h'.marks id hid

end One

end LooksUp

/-! ## All sites -/

/-- Loads the classes of sites in their place, one after the other. -/
def loadAll (call : Nat → NodeId) (body : Body) (sites : List ForNameSite) : Body :=
  sites.foldl (fun body s => body.loadAt s.literal (call s.position) s.className) body

/-- The site is a look-up with these marks in between. -/
def LooksUpOver (body : Body) (call : Nat → NodeId) (s : ForNameSite) (between : List NodeId) : Prop :=
  ∃ ahead behind, body.LooksUp s.name s.literal (call s.position) ahead between behind

/-- The sites are look-ups to which nothing refers, no two of them by the same call. -/
structure Sites (body : Body) (call : Nat → NodeId) (sites : List ForNameSite) : Prop where
  proper : body.insns.Proper
  lookUps : ∀ s ∈ sites, ∃ between, body.LooksUpOver call s between
  alone : ∀ s ∈ sites, ¬ body.RefersTo s.literal ∧ ¬ body.RefersTo (call s.position)
  apart : sites.Pairwise fun s s' => call s.position ≠ call s'.position

/-- At each site, three new nodes that load the class take the place of the call, and nothing that of the
literal. All other nodes keep their places. -/
structure Loads (P : ForNameSite → Prop) (call : Nat → NodeId) (old new : InsnList) (made : NodeId → List NodeId) :
    Prop where
  get : ∀ id, id.index < old.nodes.size → new.get id = old.get id
  order : new.order.toList = old.order.toList.flatMap made
  literal : ∀ s, P s → made s.literal = []
  code : ∀ s, P s → (made (call s.position)).map new.get = initializedClass s.className
  fresh : ∀ s, P s → ∀ id ∈ made (call s.position), old.nodes.size ≤ id.index
  stays : ∀ id, (∀ s, P s → id ≠ s.literal ∧ id ≠ call s.position) → made id = [id]

namespace Sites

variable {body : Body} {call : Nat → NodeId} {s : ForNameSite} {sites : List ForNameSite}

theorem mem (h : body.Sites call sites) (hs : s ∈ sites) :
    s.literal ∈ body.insns.order ∧ call s.position ∈ body.insns.order := by
  obtain ⟨between, ahead, behind, hlooks⟩ := h.lookUps s hs
  exact ⟨hlooks.literal_mem, hlooks.call_mem⟩

/-- The other sites are sites still where the class of the first one is loaded. -/
theorem load (h : body.Sites call (s :: sites)) :
    (body.loadAt s.literal (call s.position) s.className).Sites call sites := by
  obtain ⟨between, ahead, behind, hfirst⟩ := h.lookUps s List.mem_cons_self
  obtain ⟨hapart, hrest⟩ := List.pairwise_cons.mp h.apart
  constructor
  case proper => exact hfirst.proper_loadAt _ h.proper
  case lookUps =>
    intro s' hs'
    obtain ⟨between', ahead', behind', hlooks⟩ := h.lookUps s' (List.mem_cons_of_mem _ hs')
    exact ⟨between', hfirst.loadAt_other h.proper hlooks (Ne.symm (hapart s' hs'))⟩
  case alone =>
    intro s' hs'
    rw [hfirst.refersTo_loadAt h.proper, hfirst.refersTo_loadAt h.proper]
    exact h.alone s' (List.mem_cons_of_mem _ hs')
  case apart => exact hrest

theorem loadAll_proper (h : body.Sites call sites) : (body.loadAll call sites).insns.Proper := by
  induction sites generalizing body with
  | nil => exact h.proper
  | cons s sites ih => exact ih h.load

theorem refersTo_loadAll (h : body.Sites call sites) {id : NodeId} :
    (body.loadAll call sites).RefersTo id ↔ body.RefersTo id := by
  induction sites generalizing body with
  | nil => exact .rfl
  | cons s sites ih =>
    obtain ⟨between, ahead, behind, hfirst⟩ := h.lookUps s List.mem_cons_self
    exact (ih h.load).trans (hfirst.refersTo_loadAt h.proper)

/-- There is no look-up that was not there. -/
theorem of_loadAll (h : body.Sites call sites) {text : String} {literal last : NodeId}
    {ahead between behind : List NodeId}
    (hlooks : (body.loadAll call sites).LooksUp text literal last ahead between behind) :
    ∃ front back, body.LooksUp text literal last front between back := by
  induction sites generalizing body with
  | nil => exact ⟨ahead, behind, hlooks⟩
  | cons s sites ih =>
    obtain ⟨front, back, hlooks⟩ := ih h.load hlooks
    obtain ⟨_, _, _, hfirst⟩ := h.lookUps s List.mem_cons_self
    exact hfirst.of_loadAt h.proper hlooks

/-- Constant propagation comes to the same frames at all nodes apart from the sites. -/
theorem settles (h : body.Sites call sites) {m : MethodSig} {frames : Frame.Frames ConstantValue}
    (hrun : Frame.Settles ConstantValue.domain m body frames) :
    ∃ frames', Frame.Settles ConstantValue.domain m (body.loadAll call sites) frames' ∧
      ∀ id ∈ body.insns.order, (∀ s ∈ sites, ∀ between, body.LooksUpOver call s between →
          id ∉ s.literal :: (between ++ [call s.position])) →
        Frame.SameFrame body.insns (body.loadAll call sites).insns frames frames' id := by
  induction sites generalizing body frames with
  | nil => exact ⟨frames, hrun, fun _ _ _ => rfl⟩
  | cons s sites ih =>
    obtain ⟨between, ahead, behind, hfirst⟩ := h.lookUps s List.mem_cons_self
    obtain ⟨frames₁, hrun₁, hsame₁⟩ := hfirst.settles h.proper (h.alone s List.mem_cons_self) hrun
    obtain ⟨frames', hrun', hsame'⟩ := ih h.load hrun₁
    refine ⟨frames', hrun', fun id hid hout => ?_⟩
    have hfar := hout s List.mem_cons_self between ⟨ahead, behind, hfirst⟩
    refine (hsame' id ?_ fun s' hs' between' hlooks => ?_).trans (hsame₁ id hid hfar)
    · refine (hfirst.mem_loadAt h.proper).mpr (.inr ⟨hid, ?_, ?_⟩)
      · rintro rfl
        exact hfar List.mem_cons_self
      · rintro rfl
        exact hfar (by simp)
    · obtain ⟨_, _, hlooks⟩ := hlooks
      exact hout s' (List.mem_cons_of_mem _ hs') between' (hfirst.of_loadAt h.proper hlooks)

/-- The nodes of each site give way to three new ones. -/
theorem exists_made (h : body.Sites call sites) :
    ∃ made, Loads (· ∈ sites) call body.insns (body.loadAll call sites).insns made := by
  induction sites generalizing body with
  | nil =>
    refine ⟨fun id => [id], ?_⟩
    constructor
    case get => exact fun _ _ => rfl
    case order => exact (List.flatMap_singleton' _).symm
    case stays => exact fun _ _ => rfl
    all_goals exact fun _ hs => absurd hs List.not_mem_nil
  | cons s sites ih =>
    obtain ⟨between, ahead, behind, hfirst⟩ := h.lookUps s List.mem_cons_self
    obtain ⟨hapart, _⟩ := List.pairwise_cons.mp h.apart
    obtain ⟨made, hmade⟩ := ih h.load
    have hgrows : (body.loadAt s.literal (call s.position) s.className).insns.nodes.size =
        body.insns.nodes.size + 3 := by
      simp [loadAt, initializedClass]
    have hcall := standIn_call (body.insns.freshIds 3) (Ne.symm hfirst.ne)
    have hother : ∀ s' ∈ sites, (s'.literal ≠ s.literal ∧ s'.literal ≠ call s.position) ∧
        call s'.position ≠ s.literal ∧ call s'.position ≠ call s.position := by
      intro s' hs'
      obtain ⟨_, _, _, hlooks⟩ := h.lookUps s' (List.mem_cons_of_mem _ hs')
      have hne := Ne.symm (hapart s' hs')
      refine ⟨⟨fun heq => hne ?_, hlooks.literal_ne_call hfirst⟩, Ne.symm (hfirst.literal_ne_call hlooks), hne⟩
      rw [heq] at hlooks
      exact hfirst.call_eq h.proper hlooks
    have hfresh : (body.insns.freshIds 3).flatMap made = body.insns.freshIds 3 := by
      have hkept : ∀ id ∈ body.insns.freshIds 3, made id = [id] := by
        intro id hid
        have hnew : ∀ {id'}, id' ∈ body.insns.order → id ≠ id' := by
          rintro id' hid' rfl
          exact h.proper.freshIds_not_mem 3 id hid (Array.mem_toList_iff.mpr hid')
        refine hmade.stays id fun s' hs' => ?_
        obtain ⟨hmem, hmem'⟩ := h.mem (List.mem_cons_of_mem _ hs')
        exact ⟨hnew hmem, hnew hmem'⟩
      rw [List.flatMap_congr hkept, List.flatMap_singleton']
    refine ⟨fun id => (standIn s.literal (call s.position) (body.insns.freshIds 3) id).flatMap made, ?_⟩
    constructor
    case get =>
      intro id hid
      rw [loadAll, List.foldl_cons]
      exact (hmade.get id (by omega)).trans (LooksUp.get_loadAt hid)
    case order =>
      refine hmade.order.trans ?_
      show (body.insns.order.toList.flatMap _).flatMap made = _
      rw [List.flatMap_assoc]
    case literal =>
      intro s' hs'
      rcases List.mem_cons.mp hs' with rfl | hs'
      · rw [standIn_literal]
        rfl
      · rw [standIn_self _ (hother s' hs').1.1 (hother s' hs').1.2, List.flatMap_singleton, hmade.literal s' hs']
    case code =>
      intro s' hs'
      rcases List.mem_cons.mp hs' with rfl | hs'
      · rw [hcall, hfresh]
        have hget : ∀ id ∈ body.insns.freshIds 3, (body.loadAll call (s' :: sites)).insns.get id =
            (body.loadAt s'.literal (call s'.position) s'.className).insns.get id := by
          intro id hid
          exact hmade.get id (hgrows ▸ (NodeId.mem_numbered.mp hid).2)
        rw [List.map_congr_left hget, map_get_freshIds]
      · rw [standIn_self _ (hother s' hs').2.1 (hother s' hs').2.2, List.flatMap_singleton]
        exact hmade.code s' hs'
    case fresh =>
      intro s' hs' id hid
      rcases List.mem_cons.mp hs' with rfl | hs'
      · rw [hcall, hfresh] at hid
        exact (NodeId.mem_numbered.mp hid).1
      · rw [standIn_self _ (hother s' hs').2.1 (hother s' hs').2.2, List.flatMap_singleton] at hid
        have := hmade.fresh s' hs' id hid
        omega
    case stays =>
      intro id hid
      obtain ⟨hliteral, hlast⟩ := hid s List.mem_cons_self
      rw [standIn_self _ hliteral hlast, List.flatMap_singleton]
      exact hmade.stays id fun s' hs' => hid s' (List.mem_cons_of_mem _ hs')

end Sites

end Body

end DirectCall
