import DirectCall.CallSite.ForName
import DirectCall.Proofs.Constants.Rank
import DirectCall.Proofs.Flow.Thinned
import DirectCall.Proofs.Frame.ThreeForTwo

/-!
# One class look-up

A look-up by a literal name stands in a body as the literal, marks to which nothing refers, and the call
(`Body.LooksUp`). Where the class constant takes its place (`Body.loadAt`), control passes on as it did, so
constant propagation comes to the same frames at all nodes but the literal, the marks and the call
(`Body.LooksUp.settles`).

The look-up leaves a class object that nothing is known of (`ConstantValue.takes_forName`), and so do the three
instructions that load the class and initialise it (`takes_lookup`, `takes_classRef`,
`takes_ensureInitialized`). No array is handed to any of them, so nothing else changes.
-/

namespace DirectCall

namespace ConstantValue

/-- A call of which nothing is known takes its operands and leaves an unknown value. -/
theorem execute_call {insn : Insn} {code : UInt8} (operands : List ConstantValue)
    (hcode : insn.opcode? = some code) (heffect : Opcode.effect code = .call)
    (hshape : Frame.callShape insn = .ok (operands.length, true)) (hlookup : insn.isMethodLookup = false)
    (hresult : ofDescriptor insn.result? = .unknown .single) (hkept : ∀ v ∈ operands, v.escape = [])
    (id : NodeId) (g : Frame ConstantValue) :
    Frame.execute domain id insn ⟨g.locals, operands ++ g.stack⟩ = .ok (g.push (.unknown .single)) := by
  have hvalue : nary id insn operands.reverse = .unknown .single := by
    have hnone : lookup? id insn operands.reverse = none := by
      unfold lookup?
      rw [hlookup]
    rw [nary, hnone]
    exact hresult
  have hstays : refine id insn operands.reverse = [] := by
    have hstore : code ≠ Opcode.aastore := by
      rintro rfl
      cases heffect
    have hnone : operands.reverse.flatMap escape = [] := by
      rw [List.flatMap_eq_nil_iff]
      exact fun v hv => hkept v (List.mem_reverse.mp hv)
    simp only [refine, hcode, hstore, if_false, hnone, ite_self]
  have hstep : Frame.step domain id insn code ⟨g.locals, operands ++ g.stack⟩ =
      .ok (operands.reverse, g.push (.unknown .single)) := by
    simp only [Frame.step, heffect]
    refine bind_eq_ok.mpr ⟨_, hshape, Frame.stepNary_eq_ok.mpr ⟨by simp, ?_⟩⟩
    rw [List.take_left, List.drop_left]
    exact Prod.ext rfl (congrArg g.push hvalue.symm)
  rw [Frame.execute, hcode]
  refine bind_eq_ok.mpr ⟨_, hstep, ?_⟩
  show Except.ok ((g.push (.unknown .single)).replaceAll (refine id insn operands.reverse)) = _
  rw [hstays]
  rfl

theorem takes_constant (index : UInt16) {constant : Constant} {v : ConstantValue} (hnarrow : constant.isWide = false)
    (hvalue : ∀ id, produce id (.ldc index constant) = v) (g : Frame ConstantValue) :
    Frame.Takes domain (.ldc index constant) g (g.push v) where
  straight := ⟨rfl, rfl⟩
  real := rfl
  executes id := by
    have hcode : Insn.opcode? (.ldc index constant) = some Opcode.ldc := by rw [Insn.opcode?, hnarrow]; rfl
    rw [Frame.execute, hcode, ← hvalue id]
    simp only [bind, Except.bind, Frame.step, domain, refine, hcode]
    rfl

theorem takes_forName {insn : Insn} (h : insn.isForName = true) (text : String) (g : Frame ConstantValue) :
    Frame.Takes domain insn (g.push (.string text)) (g.push (.unknown .single)) := by
  cases insn with
  | invoke code index member interface =>
    obtain ⟨owner, name, descriptor⟩ := member
    simp only [Insn.isForName, MemberRef.isNamed, Bool.and_eq_true, beq_iff_eq] at h
    obtain ⟨⟨rfl, rfl, rfl⟩, rfl⟩ := h
    refine ⟨⟨rfl, rfl⟩, rfl, fun id => ?_⟩
    exact execute_call [.string text] rfl rfl rfl rfl rfl (by simp [escape]) id g
  | _ => cases h

section InitializedClass

variable {className : String} {insn : Insn} (g : Frame ConstantValue)

theorem takes_lookup (h : (Body.initializedClass className)[0]? = some insn) :
    Frame.Takes domain insn g (g.push (.unknown .single)) := by
  obtain rfl := Option.some.inj h
  refine ⟨⟨rfl, rfl⟩, rfl, fun id => execute_call [] rfl rfl ?_ rfl ?_ nofun id g⟩
  · rfl
  · rfl

theorem takes_classRef (h : (Body.initializedClass className)[1]? = some insn) :
    Frame.Takes domain insn g (g.push (.classRef className)) := by
  obtain rfl := Option.some.inj h
  exact takes_constant 0 rfl (fun _ => rfl) g

theorem takes_ensureInitialized (h : (Body.initializedClass className)[2]? = some insn) :
    Frame.Takes domain insn ((g.push (.unknown .single)).push (.classRef className))
      (g.push (.unknown .single)) := by
  obtain rfl := Option.some.inj h
  refine ⟨⟨rfl, rfl⟩, rfl, fun id => ?_⟩
  refine execute_call [.classRef className, .unknown .single] rfl rfl ?_ rfl ?_ (by simp [escape]) id g
  · rfl
  · rfl

end InitializedClass

end ConstantValue

namespace Body

/-- A jump leads to the node, or a region names it. -/
def RefersTo (body : Body) (id : NodeId) : Prop :=
  (∃ n ∈ body.insns.order, id ∈ (body.insns.get n).targets) ∨
    ∃ r ∈ body.regions, id = r.start ∨ id = r.stop ∨ id = r.handler

theorem contains_referencedNodes {body : Body} {id : NodeId} :
    body.referencedNodes.contains id = true ↔ body.RefersTo id := by
  rw [referencedNodes, Std.HashSet.contains_ofList, List.contains_iff_mem, List.mem_append, List.mem_flatMap,
    List.mem_flatMap]
  refine or_congr ⟨?_, ?_⟩ ?_
  · rintro ⟨insn, hinsn, hid⟩
    rw [Array.mem_toList_iff, InsnList.insns, Array.mem_map] at hinsn
    obtain ⟨n, hn, rfl⟩ := hinsn
    exact ⟨n, hn, hid⟩
  · rintro ⟨n, hn, hid⟩
    refine ⟨body.insns.get n, ?_, hid⟩
    rw [Array.mem_toList_iff, InsnList.insns, Array.mem_map]
    exact ⟨n, hn, rfl⟩
  · simp

theorem refersTo_of_mem_targets {body : Body} {f : Flow} (hflow : Flow.ofBody body = .ok f) {p : Nat} (hp : p < f.size)
    {id : NodeId} (hid : id ∈ (f.insnAt p).targets) : body.RefersTo id := by
  rw [Flow.size_of_ofBody hflow] at hp
  rw [Flow.insnAt_of_ofBody hflow] at hid
  exact .inl ⟨_, InsnList.mem_order.mpr ⟨p, hp, rfl⟩, hid⟩

/-- Between a literal and the call that looks a class up by it there are only marks to which nothing
refers. -/
structure LooksUp (body : Body) (text : String) (literal call : NodeId) (ahead between behind : List NodeId) :
    Prop where
  order : body.insns.order.toList = ahead ++ literal :: (between ++ call :: behind)
  literal : ∃ index, body.insns.get literal = .ldc index (.string text)
  call : (body.insns.get call).isForName = true
  marks : ∀ id ∈ between, (body.insns.get id).isReal = false ∧ ¬ body.RefersTo id

/-- What stands for a node where new ones take the place of a call and its literal. -/
def standIn (literal call : NodeId) (ids : List NodeId) (id : NodeId) : List NodeId :=
  if id = literal then [] else if id = call then ids else [id]

/-- Loads and initialises a class in the place of a call. -/
def loadAt (body : Body) (literal call : NodeId) (className : String) : Body :=
  { body with
    insns := ⟨body.insns.nodes ++ (initializedClass className).toArray,
      (body.insns.order.toList.flatMap (standIn literal call (body.insns.freshIds 3))).toArray⟩ }

section StandIn

variable {literal call id : NodeId} (ids : List NodeId)

theorem standIn_literal : standIn literal call ids literal = [] := if_pos rfl

theorem standIn_call (hne : call ≠ literal) : standIn literal call ids call = ids := by
  rw [standIn, if_neg hne, if_pos rfl]

theorem standIn_self (hliteral : id ≠ literal) (hcall : id ≠ call) : standIn literal call ids id = [id] := by
  rw [standIn, if_neg hliteral, if_neg hcall]

theorem flatMap_standIn {nodes : List NodeId} (hliteral : literal ∉ nodes) (hcall : call ∉ nodes) :
    nodes.flatMap (standIn literal call ids) = nodes := by
  have hself : ∀ id ∈ nodes, standIn literal call ids id = [id] := fun id hid =>
    standIn_self ids (ne_of_mem_of_not_mem hid hliteral) (ne_of_mem_of_not_mem hid hcall)
  rw [List.flatMap_congr hself, List.flatMap_singleton']

end StandIn

end Body

theorem InsnList.idAt_eq (list : InsnList) (p : Nat) : list.idAt p = list.order.toList[p]?.getD .dangling := by
  rw [idAt, Array.getElem?_toList]

theorem getElem?_append_add {α : Type} (xs ys : List α) (i : Nat) : (xs ++ ys)[xs.length + i]? = ys[i]? := by
  rw [List.getElem?_append_right (Nat.le_add_right _ _), Nat.add_sub_cancel_left]

namespace Body.LooksUp

open Frame.Progress

variable {body : Body} {text className : String} {literal call : NodeId} {ahead between behind : List NodeId}

section Nodes

variable (h : body.LooksUp text literal call ahead between behind)
include h

theorem ne : literal ≠ call := by
  rintro rfl
  obtain ⟨index, hliteral⟩ := h.literal
  have hcall := h.call
  rw [hliteral] at hcall
  cases hcall

theorem size_eq : body.insns.size = ahead.length + between.length + 2 + behind.length := by
  rw [InsnList.size, ← Array.length_toList, h.order]
  simp only [List.length_append, List.length_cons]
  omega

theorem literal_mem : literal ∈ body.insns.order := by
  rw [← Array.mem_toList_iff, h.order]
  simp

theorem call_mem : call ∈ body.insns.order := by
  rw [← Array.mem_toList_iff, h.order]
  simp

theorem mem_of_between {id : NodeId} (hid : id ∈ between) : id ∈ body.insns.order := by
  rw [← Array.mem_toList_iff, h.order]
  simp [hid]

/-! ## Where nodes stand -/

theorem idAt_behind (i : Nat) : body.insns.idAt (ahead.length + i) =
    (literal :: (between ++ call :: behind))[i]?.getD .dangling := by
  rw [InsnList.idAt_eq, h.order, getElem?_append_add]

theorem idAt_literal : body.insns.idAt ahead.length = literal := h.idAt_behind 0

theorem idAt_between {i : Nat} (hi : i < between.length) :
    body.insns.idAt (ahead.length + 1 + i) = between[i] := by
  rw [Nat.add_assoc, h.idAt_behind, Nat.add_comm 1 i, List.getElem?_cons_succ, List.getElem?_append_left hi,
    List.getElem?_eq_getElem hi, Option.getD_some]

theorem idAt_call : body.insns.idAt (ahead.length + between.length + 1) = call := by
  rw [Nat.add_assoc, h.idAt_behind, List.getElem?_cons_succ, ← Nat.add_zero between.length, getElem?_append_add]
  rfl

/-- A node from the literal to the call is one of them or a mark. -/
theorem idAt_cases {p : Nat} (hle : ahead.length ≤ p) (hp : p ≤ ahead.length + between.length + 1) :
    body.insns.idAt p = literal ∨ body.insns.idAt p ∈ between ∨ body.insns.idAt p = call := by
  by_cases hfirst : p = ahead.length
  · exact .inl (hfirst ▸ h.idAt_literal)
  by_cases hlast : p = ahead.length + between.length + 1
  · exact .inr (.inr (hlast ▸ h.idAt_call))
  · have hi : p - (ahead.length + 1) < between.length := by omega
    have hmark := h.idAt_between hi
    rw [show ahead.length + 1 + (p - (ahead.length + 1)) = p by omega] at hmark
    exact .inr (.inl (hmark ▸ List.getElem_mem hi))

variable (hproper : body.insns.Proper)
include hproper

theorem order_loadAt : (body.loadAt literal call className).insns.order.toList =
    ahead ++ (between ++ (body.insns.freshIds 3 ++ behind)) := by
  have hdistinct := hproper.distinct
  rw [h.order] at hdistinct
  simp only [List.nodup_append, List.nodup_cons, List.mem_append, List.mem_cons, not_or] at hdistinct
  obtain ⟨_, ⟨⟨hbetween, hne, hbehind⟩, _, ⟨hcall, _⟩, hapart⟩, hahead⟩ := hdistinct
  have hkept : ahead.flatMap (standIn literal call (body.insns.freshIds 3)) = ahead :=
    flatMap_standIn _ (fun hmem => hahead literal hmem literal (.inl rfl) rfl)
      fun hmem => hahead call hmem call (.inr (.inr (.inl rfl))) rfl
  have hmarks : between.flatMap (standIn literal call (body.insns.freshIds 3)) = between :=
    flatMap_standIn _ hbetween fun hmem => hapart call hmem call (.inl rfl) rfl
  have hrest : behind.flatMap (standIn literal call (body.insns.freshIds 3)) = behind :=
    flatMap_standIn _ hbehind hcall
  show (body.insns.order.toList.flatMap _) = _
  rw [h.order, List.flatMap_append, List.flatMap_cons, List.flatMap_append, List.flatMap_cons, hkept, hmarks,
    hrest, standIn_literal, standIn_call _ (Ne.symm h.ne), List.nil_append]

variable (className) in
/-- Nodes outside the look-up have moved to where the instructions that stand for it let them. -/
theorem idAt_shifted {p : Nat} (hp : p < ahead.length ∨ ahead.length + between.length + 1 < p) :
    (body.loadAt literal call className).insns.idAt (shifted ahead.length between.length p) =
      body.insns.idAt p := by
  rw [InsnList.idAt_eq, h.order_loadAt hproper]
  rcases hp with hp | hp
  · rw [shifted, if_pos (by omega), InsnList.idAt_eq, h.order, List.getElem?_append_left hp,
      List.getElem?_append_left hp]
  · obtain ⟨i, rfl⟩ : ∃ i, p = ahead.length + (1 + (between.length + (1 + i))) :=
      ⟨p - (ahead.length + between.length + 2), by omega⟩
    have hnew : (body.insns.freshIds 3).length = 3 := by simp [InsnList.freshIds]
    have hplace : ahead.length + (1 + (between.length + (1 + i))) + 1 =
        ahead.length + (between.length + ((body.insns.freshIds 3).length + i)) := by omega
    rw [shifted_behind (by omega), hplace, getElem?_append_add, getElem?_append_add, getElem?_append_add,
      h.idAt_behind, Nat.add_comm 1 (between.length + (1 + i)), List.getElem?_cons_succ, getElem?_append_add,
      Nat.add_comm 1 i, List.getElem?_cons_succ]

theorem idAt_mark {i : Nat} (hi : i < between.length) :
    (body.loadAt literal call className).insns.idAt (ahead.length + i) = between[i] := by
  rw [InsnList.idAt_eq, h.order_loadAt hproper, getElem?_append_add, List.getElem?_append_left hi,
    List.getElem?_eq_getElem hi, Option.getD_some]

theorem idAt_new {i : Nat} (hi : i < 3) :
    (body.loadAt literal call className).insns.idAt (ahead.length + between.length + i) =
      ⟨body.insns.nodes.size + i⟩ := by
  have hnew : (body.insns.freshIds 3).length = 3 := by simp [InsnList.freshIds]
  rw [InsnList.idAt_eq, h.order_loadAt hproper, Nat.add_assoc, getElem?_append_add, getElem?_append_add,
    List.getElem?_append_left (by omega), InsnList.freshIds, List.getElem?_map, List.getElem?_range' hi]
  simp

theorem mem_loadAt {id : NodeId} : id ∈ (body.loadAt literal call className).insns.order ↔
    id ∈ body.insns.freshIds 3 ∨ id ∈ body.insns.order ∧ id ≠ literal ∧ id ≠ call := by
  have hdistinct := hproper.distinct
  rw [h.order] at hdistinct
  simp only [List.nodup_append, List.nodup_cons, List.mem_append, List.mem_cons, not_or] at hdistinct
  obtain ⟨_, ⟨⟨hbetween, hne, hbehind⟩, _, ⟨hcall, _⟩, hapart⟩, hahead⟩ := hdistinct
  rw [← Array.mem_toList_iff, ← Array.mem_toList_iff, h.order_loadAt hproper, h.order]
  simp only [List.mem_append, List.mem_cons]
  constructor
  · rintro (hid | hid | hid | hid)
    · exact .inr ⟨.inl hid, fun heq => hahead id hid literal (.inl rfl) heq,
        fun heq => hahead id hid call (.inr (.inr (.inl rfl))) heq⟩
    · exact .inr ⟨.inr (.inr (.inl hid)), ne_of_mem_of_not_mem hid hbetween,
        fun heq => hapart id hid call (.inl rfl) heq⟩
    · exact .inl hid
    · exact .inr ⟨.inr (.inr (.inr (.inr hid))), ne_of_mem_of_not_mem hid hbehind, ne_of_mem_of_not_mem hid hcall⟩
  · rintro (hid | ⟨hid | hid | hid | hid | hid, hliteral, hcall⟩)
    · exact .inr (.inr (.inl hid))
    · exact .inl hid
    · exact absurd hid hliteral
    · exact .inr (.inl hid)
    · exact absurd hid hcall
    · exact .inr (.inr (.inr hid))

omit h hproper in
theorem get_loadAt {id : NodeId} (hid : id.index < body.insns.nodes.size) :
    (body.loadAt literal call className).insns.get id = body.insns.get id := by
  rw [InsnList.get, InsnList.get, loadAt, Array.getElem?_append_left hid]

omit h hproper in
theorem get_new {i : Nat} {insn : Insn} (hinsn : (initializedClass className)[i]? = some insn) :
    (body.loadAt literal call className).insns.get ⟨body.insns.nodes.size + i⟩ = insn := by
  rw [InsnList.get, loadAt]
  simp only
  rw [Array.getElem?_append_right (Nat.le_add_right _ _), Nat.add_sub_cancel_left, List.getElem?_toArray, hinsn,
    Option.getD_some]

variable (className) in
theorem proper_loadAt : (body.loadAt literal call className).insns.Proper := by
  have hold : (ahead ++ (between ++ behind)).Nodup := by
    have hdistinct := hproper.distinct
    rw [h.order] at hdistinct
    refine hdistinct.sublist ?_
    exact (List.Sublist.refl ahead).append (((List.Sublist.refl between).append (List.sublist_cons_self _ _)).trans
      (List.sublist_cons_self _ _))
  have hfresh : ∀ id ∈ body.insns.freshIds 3, id ∉ ahead ++ (between ++ behind) := by
    intro id hid hmem
    refine hproper.freshIds_not_mem 3 id hid ?_
    rw [h.order]
    simp only [List.mem_append, List.mem_cons] at hmem ⊢
    tauto
  refine ⟨?_, fun id hid => ?_⟩
  · rw [h.order_loadAt hproper]
    have hperm : (ahead ++ (between ++ (body.insns.freshIds 3 ++ behind))).Perm
        (body.insns.freshIds 3 ++ (ahead ++ (between ++ behind))) := by
      rw [← List.append_assoc between, ← List.append_assoc ahead, ← List.append_assoc ahead,
        ← List.append_assoc ahead, ← List.append_assoc (body.insns.freshIds 3)]
      exact List.Perm.append_right behind List.perm_append_comm
    rw [hperm.nodup_iff, List.nodup_append]
    refine ⟨NodeId.nodup_numbered _ _, hold, fun id hid id' hid' heq => ?_⟩
    exact hfresh id hid (heq ▸ hid')
  · have hsize : (body.loadAt literal call className).insns.nodes.size = body.insns.nodes.size + 3 := by
      simp [loadAt, initializedClass]
    rw [hsize]
    rcases (h.mem_loadAt hproper).mp hid with hnew | ⟨hold, _⟩
    · exact (NodeId.mem_numbered.mp hnew).2
    · exact Nat.lt_of_lt_of_le (hproper.owned id hold) (Nat.le_add_right _ _)

end Nodes

section Flow

variable (h : body.LooksUp text literal call ahead between behind) (hproper : body.insns.Proper)
include h hproper

/-! ## How control passes on -/

theorem size_loadAt : (body.loadAt literal call className).insns.size = body.insns.size + 1 := by
  have hnew : (body.insns.freshIds 3).length = 3 := by simp [InsnList.freshIds]
  rw [h.size_eq, InsnList.size, ← Array.length_toList, h.order_loadAt hproper]
  simp only [List.length_append, hnew]
  omega

variable (className) in
theorem rank_loadAt {id : NodeId} (hid : id ∈ body.insns.order)
    (hout : body.insns.rank id < ahead.length ∨ ahead.length + between.length + 1 < body.insns.rank id) :
    id ∈ (body.loadAt literal call className).insns.order ∧
      (body.loadAt literal call className).insns.rank id =
        shifted ahead.length between.length (body.insns.rank id) := by
  obtain ⟨hlt, hidAt⟩ := hproper.rank_lt hid
  have hplace := h.idAt_shifted className hproper hout
  have hsize := h.size_eq
  have hlt' : shifted ahead.length between.length (body.insns.rank id) <
      (body.loadAt literal call className).insns.size := by
    rw [h.size_loadAt hproper]
    unfold shifted
    split_ifs <;> omega
  rw [hidAt] at hplace
  have hrank := (h.proper_loadAt className hproper).rank_idAt hlt'
  rw [hplace] at hrank
  exact ⟨InsnList.mem_order.mpr ⟨_, hlt', hplace.symm⟩, hrank⟩

variable (halone : ¬ body.RefersTo literal ∧ ¬ body.RefersTo call)
include halone

/-- Nothing refers to what stands between the literal and the call, nor to them. -/
theorem outside_of_refersTo {id : NodeId} (hrefers : body.RefersTo id) (hid : id ∈ body.insns.order) :
    body.insns.rank id < ahead.length ∨ ahead.length + between.length + 1 < body.insns.rank id := by
  by_contra hinside
  rw [not_or] at hinside
  obtain ⟨_, hidAt⟩ := hproper.rank_lt hid
  rcases h.idAt_cases (p := body.insns.rank id) (by omega) (by omega) with heq | hmem | heq
  · exact halone.1 (heq ▸ hidAt.symm ▸ hrefers)
  · exact (h.marks _ hmem).2 (hidAt.symm ▸ hrefers)
  · exact halone.2 (heq ▸ hidAt.symm ▸ hrefers)

variable {f e : Flow} (hflow : Flow.ofBody body = .ok f)
include hflow

variable (className) in
theorem exists_flow : ∃ e, Flow.ofBody (body.loadAt literal call className) = .ok e := by
  have hplaces := (Flow.exists_ofBody_iff hproper).mp ⟨f, hflow⟩
  refine (Flow.exists_ofBody_iff (h.proper_loadAt _ hproper)).mpr fun r hr => ?_
  have hkept : ∀ {id}, id = r.start ∨ id = r.stop ∨ id = r.handler → id ∈ body.insns.order →
      id ∈ (body.loadAt literal call className).insns.order := fun hnamed hid =>
    (h.rank_loadAt _ hproper hid (h.outside_of_refersTo hproper halone (.inr ⟨r, hr, hnamed⟩) hid)).1
  obtain ⟨hstart, hstop, hhandler⟩ := hplaces r hr
  exact ⟨hkept (.inl rfl) hstart, hkept (.inr (.inl rfl)) hstop, hkept (.inr (.inr rfl)) hhandler⟩

variable (he : Flow.ofBody (body.loadAt literal call className) = .ok e)
include he

/-- Where the same regions start and stop around two positions, the same handlers cover them. -/
theorem handlersAt_loadAt {p q : Nat}
    (hplaces : ∀ x, x < ahead.length ∨ ahead.length + between.length + 1 < x →
      (shifted ahead.length between.length x ≤ q ↔ x ≤ p)) :
    e.handlersAt q = (f.handlersAt p).map fun edge =>
      ⟨shifted ahead.length between.length edge.handler, edge.catchType⟩ := by
  have hplaced := (Flow.exists_ofBody_iff hproper).mp ⟨f, hflow⟩
  have hmoved : ∀ {r id}, r ∈ body.regions → id = r.start ∨ id = r.stop ∨ id = r.handler →
      id ∈ body.insns.order → (body.loadAt literal call className).insns.rank id =
          shifted ahead.length between.length (body.insns.rank id) ∧
        ((body.loadAt literal call className).insns.rank id ≤ q ↔ body.insns.rank id ≤ p) := by
    intro r id hr hnamed hid
    have hout := h.outside_of_refersTo hproper halone (.inr ⟨r, hr, hnamed⟩) hid
    have hrank := (h.rank_loadAt className hproper hid hout).2
    exact ⟨hrank, by rw [hrank, hplaces _ hout]⟩
  rw [Flow.handlersAt_eq hproper hflow, Flow.handlersAt_eq (h.proper_loadAt _ hproper) he, List.map_filterMap]
  refine List.filterMap_congr fun r hr => ?_
  obtain ⟨hstart, hstop, hhandler⟩ := hplaced r hr
  have hle := (hmoved hr (.inl rfl) hstart).2
  have hlt := (hmoved hr (.inr (.inl rfl)) hstop).2.not
  rw [Nat.not_le, Nat.not_le] at hlt
  by_cases hspans : body.insns.rank r.start ≤ p ∧ p < body.insns.rank r.stop
  · rw [if_pos hspans, if_pos (And.imp hle.mpr hlt.mpr hspans), Option.map_some,
      (hmoved hr (.inr (.inr rfl)) hhandler).1]
  · rw [if_neg hspans, if_neg fun hspans' => hspans (And.imp hle.mp hlt.mp hspans')]
    rfl

omit halone in
theorem size_flow : e.size = f.size + 1 := by
  rw [Flow.size_of_ofBody he, Flow.size_of_ofBody hflow, h.size_loadAt hproper]

theorem sameAt {p : Nat} (hp : p < f.size)
    (hout : p < ahead.length ∨ ahead.length + between.length + 1 < p) :
    SameAt f e (shifted ahead.length between.length) p := by
  have hsize := h.size_eq
  have hfsize := Flow.size_of_ofBody hflow
  have hesize := h.size_flow hproper hflow he
  have hnode : e.idAt (shifted ahead.length between.length p) = f.idAt p := by
    rw [Flow.idAt_of_ofBody he, Flow.idAt_of_ofBody hflow, h.idAt_shifted _ hproper hout]
  have hinsn : e.insnAt (shifted ahead.length between.length p) = f.insnAt p := by
    rw [Flow.insnAt_of_ofBody he, Flow.insnAt_of_ofBody hflow, InsnList.insnAt, InsnList.insnAt,
      h.idAt_shifted _ hproper hout, get_loadAt (hproper.idAt_lt (hfsize ▸ hp))]
  refine ⟨hnode, hinsn, fun targets htargets => ?_, fun _ => ?_⟩
  · refine Flow.successors_moved hinsn htargets (fun t ht q _ hq => ?_) fun _ hnext => ?_
    · rw [Flow.find_eq_ok hproper hflow] at hq
      obtain ⟨hmem, rfl⟩ := hq
      rw [Flow.find_eq_ok (h.proper_loadAt _ hproper) he]
      exact h.rank_loadAt className hproper hmem
        (h.outside_of_refersTo hproper halone (refersTo_of_mem_targets hflow hp ht) hmem)
    · unfold shifted
      split_ifs <;> omega
  · refine h.handlersAt_loadAt hproper halone hflow he fun x hx => ?_
    unfold shifted
    split_ifs <;> omega

omit e he in
theorem handler_outside {p : Nat} {edge : HandlerEdge} (hedge : edge ∈ f.handlersAt p) :
    Outside f.size ahead.length between.length edge.handler := by
  obtain ⟨r, hr, _, _, handler, _, _, hhandler, _, _, rfl⟩ := (Flow.mem_handlersAt_iff hflow).mp hedge
  rw [hproper.find_eq_ok] at hhandler
  obtain ⟨hmem, rfl⟩ := hhandler
  have hapart := h.outside_of_refersTo hproper halone (.inr ⟨r, hr, .inr (.inr rfl)⟩) hmem
  refine ⟨?_, hapart.imp_left Nat.le_of_lt⟩
  rw [Flow.size_of_ofBody hflow]
  exact (hproper.rank_lt hmem).1

omit e he in
/-- Control comes to the marks and to the call from the literal alone. -/
theorem enters {p : Nat} (hp : p < f.size) (hout : p < ahead.length ∨ ahead.length + between.length + 1 < p)
    {move : Move} (hmove : f.Allows p move) :
    Outside f.size ahead.length between.length move.target := by
  cases move with
  | next q =>
    refine ⟨hmove.target_lt hflow, ?_⟩
    obtain ⟨targets, htargets, hq⟩ := hmove
    show q ≤ ahead.length ∨ ahead.length + between.length + 1 < q
    rcases (Flow.mem_successors_iff htargets).mp hq with ⟨jumps, hjumps, hq⟩ | ⟨_, _, rfl⟩
    · obtain ⟨t, ht, hfound⟩ := mem_mapM_ok hjumps hq
      rw [Flow.find_eq_ok hproper hflow] at hfound
      obtain ⟨hmem, rfl⟩ := hfound
      exact (h.outside_of_refersTo hproper halone (refersTo_of_mem_targets hflow hp ht) hmem).imp_left Nat.le_of_lt
    · omega
  | raise edge => exact h.handler_outside hproper halone hflow hmove.2

omit he in
theorem covered : f.handlersAt (ahead.length + between.length + 1) = f.handlersAt ahead.length := by
  have hplaced := (Flow.exists_ofBody_iff hproper).mp ⟨f, hflow⟩
  rw [Flow.handlersAt_eq hproper hflow, Flow.handlersAt_eq hproper hflow]
  refine List.filterMap_congr fun r hr => ?_
  obtain ⟨hstart, hstop, _⟩ := hplaced r hr
  have hahead := h.outside_of_refersTo hproper halone (.inr ⟨r, hr, .inl rfl⟩) hstart
  have hbehind := h.outside_of_refersTo hproper halone (.inr ⟨r, hr, .inr (.inl rfl)⟩) hstop
  refine if_congr ?_ rfl rfl
  omega

/-- The three instructions stand for the two. -/
theorem threeForTwo : ThreeForTwo ConstantValue.domain f e ahead.length between.length (.string text)
    (.unknown .single) (.unknown .single) (.classRef className) := by
  have hsize := h.size_eq
  have hfsize := Flow.size_of_ofBody hflow
  have hinsn : ∀ p, f.insnAt p = body.insns.get (body.insns.idAt p) := Flow.insnAt_of_ofBody hflow
  have hnew : ∀ i < 3, (Body.initializedClass className)[i]? =
      some (e.insnAt (ahead.length + between.length + i)) := by
    intro i hi
    obtain ⟨insn, hinsn⟩ : ∃ insn, (Body.initializedClass className)[i]? = some insn :=
      Option.isSome_iff_exists.mp (by simpa [initializedClass] using hi)
    rw [Flow.insnAt_of_ofBody he, InsnList.insnAt, h.idAt_new hproper hi, get_new hinsn, hinsn]
  constructor
  case size => exact h.size_flow hproper hflow he
  case inside => omega
  case within => exact fun _ _ hmove => hmove.target_lt hflow
  case marks =>
    intro i hi
    have hmem := List.getElem_mem hi
    have hmark := (h.marks _ hmem).1
    rw [hinsn, h.idAt_between hi, Flow.insnAt_of_ofBody he, InsnList.insnAt, h.idAt_mark hproper hi,
      get_loadAt (hproper.owned _ (h.mem_of_between hmem))]
    exact ⟨hmark, hmark⟩
  case pushes =>
    intro g
    obtain ⟨index, hliteral⟩ := h.literal
    rw [hinsn, h.idAt_literal, hliteral]
    exact ConstantValue.takes_constant index rfl (fun _ => rfl) g
  case turns =>
    intro g
    rw [hinsn, h.idAt_call]
    exact ConstantValue.takes_forName h.call text g
  case pushes' => exact fun g => ConstantValue.takes_lookup g (hnew 0 (by omega))
  case adds' => exact fun g => ConstantValue.takes_classRef _ (hnew 1 (by omega))
  case turns' => exact fun g => ConstantValue.takes_ensureInitialized g (hnew 2 (by omega))
  case same => exact fun p hp hout => h.sameAt hproper halone hflow he hp hout
  case enters => exact fun p hp hout _ hmove => h.enters hproper halone hflow hp hout hmove
  case handlers => exact fun _ hedge => h.handler_outside hproper halone hflow hedge
  case covered => exact h.covered hproper halone hflow
  case covered' =>
    intro i hi
    refine h.handlersAt_loadAt hproper halone hflow he fun x hx => ?_
    unfold shifted
    split_ifs <;> omega

end Flow

/-- Where a class is loaded in the place of a look-up, constant propagation comes to the same frames at all
nodes ahead of the literal and behind the call. -/
theorem settles (h : body.LooksUp text literal call ahead between behind) (hproper : body.insns.Proper)
    (halone : ¬ body.RefersTo literal ∧ ¬ body.RefersTo call) {m : MethodSig}
    {frames : Frame.Frames ConstantValue} (hrun : Frame.Settles ConstantValue.domain m body frames) :
    ∃ frames', Frame.Settles ConstantValue.domain m (body.loadAt literal call className) frames' ∧
      ∀ id ∈ body.insns.order, id ∉ literal :: (between ++ [call]) →
        Frame.SameFrame body.insns (body.loadAt literal call className).insns frames frames' id := by
  obtain ⟨f, entry, visits, hflow, hpos, hentry, hrun⟩ := hrun
  obtain ⟨e, he⟩ := h.exists_flow className hproper halone hflow
  have hthree := h.threeForTwo hproper halone hflow he
  obtain ⟨visits', frames', hframes, hsame⟩ := hthree.settle ConstantValue.semilattice hrun
  refine ⟨frames', ⟨e, entry, visits', he, by rw [hthree.size]; omega, hentry, hframes⟩, fun id hid hout => ?_⟩
  obtain ⟨hlt, hidAt⟩ := hproper.rank_lt hid
  have hapart : body.insns.rank id < ahead.length ∨ ahead.length + between.length + 1 < body.insns.rank id := by
    by_contra hinside
    rw [not_or] at hinside
    rw [List.mem_cons, List.mem_append, List.mem_singleton, ← hidAt] at hout
    exact hout (h.idAt_cases (by omega) (by omega))
  rw [Frame.SameFrame, (h.rank_loadAt _ hproper hid hapart).2]
  refine hsame _ ⟨?_, by omega⟩
  rw [Flow.size_of_ofBody hflow]
  exact hlt

end Body.LooksUp

end DirectCall
