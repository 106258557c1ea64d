import DirectCall.Proofs.Code.Range

/-!
# Bodies are read back

A body that is encoded and written can be read, and what is read recovers it (`Body.Recovers`): labels have
other identities and places, but lead to the same instructions.
-/

namespace DirectCall

open Code ConstantPool

/-! ## Bodies by number -/

/-- For every instruction the numbers of its targets. -/
def InsnList.targetNumbers (list : InsnList) : List (List (Option Nat)) :=
  list.reals.map fun insn => insn.targets.map list.leadsTo?

/-- The nodes of a region as numbers, and what it catches. -/
def Region.numbered (list : InsnList) (r : Region) : List (Option Nat) × Option String :=
  ([r.start, r.stop, r.handler].map list.leadsTo?, r.catchType)

/-- Some instruction is covered by the region. -/
def Region.protects (list : InsnList) (r : Region) : Bool :=
  match list.leadsTo? r.start, list.leadsTo? r.stop with
  | some first, some last => first < last
  | _, _ => false

/-- The nodes of an entry as numbers, and what it says. -/
def LocalEntry.numbered (list : InsnList) (v : LocalEntry) :
    List (Option Nat) × UInt16 × UInt16 × UInt16 :=
  ([v.start, v.stop].map list.leadsTo?, v.nameIndex, v.descriptorIndex, v.index)

/-- The entry does not end ahead of its start. -/
def LocalEntry.Ordered (list : InsnList) (v : LocalEntry) : Prop :=
  ∀ first last, list.leadsTo? v.start = some first → list.leadsTo? v.stop = some last → first ≤ last

/-- Instructions fit and name what they carry, and no local variable entry is reversed. -/
structure Body.Sound (pool : ConstantPool) (body : Body) : Prop where
  insns : ∀ p < body.insns.size, (body.insns.insnAt p).Sound pool
  locals : ∀ v ∈ body.locals, v.Ordered body.insns

/-- The second body says the same as the first one: its instructions are the same up to the index of one
made afresh, and all else is where it was among them. Regions that protect nothing are left out, and so
are lines behind the last instruction. -/
structure Body.Recovers (body body' : Body) : Prop where
  insns : List.Forall₂ Insn.Becomes body.insns.reals body'.insns.reals
  targets : body'.insns.targetNumbers = body.insns.targetNumbers
  placed : ∀ numbers ∈ body.insns.targetNumbers, none ∉ numbers
  regions : body'.regions.map (·.numbered body'.insns) =
    (body.regions.filter (·.protects body.insns)).map (·.numbered body.insns)
  lines : body'.insns.lines = body.insns.lines.filter (·.1 < body.insns.reals.length)
  locals : ∀ isTypeEntry, (body'.locals.filter (·.isTypeEntry = isTypeEntry)).map (·.numbered body'.insns) =
    (body.locals.filter (·.isTypeEntry = isTypeEntry)).map (·.numbered body.insns)

/-! ## What is encoded -/

/-- How a body was laid out and written. -/
structure Body.Encodes (pool : ConstantPool) (body : Body) (l : Layout) (long : Layout.LongJumps)
    (encoded : EncodedCode) : Prop where
  list_eq : l.list = body.insns
  writable : l.Writable pool
  settled : l.Settled long encoded.offsets
  code_eq : Bytes.concat ((List.range l.size).map (l.writeAt long encoded.offsets)) = .ok encoded.code
  ends : ∀ r ∈ body.regions, l.IsPlaced r.start ∧ l.IsPlaced r.stop
  handlers : List.Forall₂ (Layout.HandlerOf pool l encoded.offsets)
    (body.regions.filter (l.covers encoded.offsets)) encoded.handlers
  lines_eq : encoded.lines.map (fun e => (e.1.toNat, e.2)) = l.lineOffsets encoded.offsets
  places : ∀ v ∈ body.locals, l.IsPlaced v.start ∧ l.IsPlaced v.stop
  ordered : ∀ v ∈ body.locals, l.targetOf encoded.offsets v.start ≤ l.targetOf encoded.offsets v.stop
  locals_eq : encoded.locals = body.locals.map fun v =>
    (v, (l.targetOf encoded.offsets v.start).toUInt16,
      (l.targetOf encoded.offsets v.stop - l.targetOf encoded.offsets v.start).toUInt16)

namespace Layout

variable {l : Layout} {long : LongJumps} {offsets : Array Nat}

theorem targetOf_eq {id : NodeId} {p : Nat} (h : l.positions.find? id = some p) :
    l.targetOf offsets id = offsets.getD p 0 := by
  rw [targetOf, h]

/-- A node with a place leads to the instructions behind those ahead of it. -/
theorem leadsTo?_eq (hpositions : l.positions = l.list.positions) {id : NodeId} {p : Nat}
    (h : l.positions.find? id = some p) : l.list.leadsTo? id = some (l.list.ahead p) := by
  rw [InsnList.leadsTo?, ← hpositions, h]
  rfl

theorem le_size_of_find? (hpositions : l.positions = l.list.positions) {id : NodeId} {p : Nat}
    (h : l.positions.find? id = some p) : p ≤ l.size := by
  rw [hpositions] at h
  exact Nat.le_of_lt (Positions.find?_lt h)

/-- Nodes with places have offsets in the order of their numbers. -/
theorem targetOf_lt_iff (hpositions : l.positions = l.list.positions) (hsettled : l.Settled long offsets)
    {id id' : NodeId} {first last : Nat} (h : l.list.leadsTo? id = some first)
    (h' : l.list.leadsTo? id' = some last) : l.targetOf offsets id < l.targetOf offsets id' ↔ first < last := by
  obtain ⟨p, hp, rfl⟩ := Option.map_eq_some_iff.mp h
  obtain ⟨q, hq, rfl⟩ := Option.map_eq_some_iff.mp h'
  rw [← hpositions] at hp hq
  rw [targetOf_eq hp, targetOf_eq hq, hsettled.offsets_eq]
  exact offsets_lt_iff long (le_size_of_find? hpositions hp) (le_size_of_find? hpositions hq)

theorem covers_eq_protects (hpositions : l.positions = l.list.positions)
    (hsettled : l.Settled long offsets) {r : Region} (h : l.IsPlaced r.start ∧ l.IsPlaced r.stop) :
    l.covers offsets r = r.protects l.list := by
  obtain ⟨⟨p, hp⟩, q, hq⟩ := h
  have hstart := leadsTo?_eq hpositions hp
  have hstop := leadsTo?_eq hpositions hq
  rw [covers, Region.protects, hstart, hstop]
  exact decide_eq_decide.mpr (targetOf_lt_iff hpositions hsettled hstart hstop)

end Layout

theorem Body.encodes_of_encode {pool pool' : ConstantPool} {body : Body} {encoded : EncodedCode}
    (hlaid : pool.LaidOut) (hsound : body.Sound pool)
    (h : pool.edit body.encode = (.ok encoded, pool')) :
    ∃ l long, body.Encodes pool' l long encoded := by
  obtain ⟨l, pool₁, hlayout, h₁⟩ := edit_bind_eq_ok.mp h
  obtain ⟨⟨long, offsets⟩, pool₂, hsettling, h₂⟩ := edit_bind_eq_ok.mp h₁
  obtain ⟨hsettle, rfl⟩ := edit_liftM_eq_ok.mp hsettling
  obtain ⟨code, pool₃, hwriting, h₃⟩ := edit_bind_eq_ok.mp h₂
  obtain ⟨hcode, rfl⟩ := edit_liftM_eq_ok.mp hwriting
  obtain ⟨founds, pool₄, hfounds, h₄⟩ := edit_bind_eq_ok.mp h₃
  obtain ⟨ranges, pool₅, hranging, hlast⟩ := edit_bind_eq_ok.mp h₄
  obtain ⟨hranges, rfl⟩ : body.locals.mapM (l.localRange? offsets) = .ok ranges ∧ pool₄ = pool₅ :=
    Prod.mk.inj hranging
  cases hlast
  obtain ⟨hlist, hwritable⟩ := Layout.writable_ofList hlaid.2 hsound.insns hlayout
  have hgrows₁ := (Layout.adds_ofList _).grows hlayout
  have hgrows₂ := (Edit.Adds.mapM (l.adds_handler? offsets) _).grows hfounds
  have hsettled := Layout.settle_settled hsettle
  have hpositions := hwritable.positions_eq
  have hhandles : List.Forall₂ (Layout.Handles pool' l offsets) body.regions founds :=
    edit_mapM (l.adds_handler? offsets) (fun hgrows hhandle => hhandle.grow hgrows)
      (fun r _ _ _ found hgrows hfound =>
        Layout.handles_of_handler? (hgrows.laidOut (hgrows₁.laidOut hlaid)) hpositions hsettled hfound)
      hfounds
  have hordered : ∀ v ∈ body.locals, l.IsPlaced v.start → l.IsPlaced v.stop →
      l.targetOf offsets v.start ≤ l.targetOf offsets v.stop := by
    rintro v hv ⟨p, hp⟩ ⟨q, hq⟩
    have hstart := Layout.leadsTo?_eq hpositions hp
    have hstop := Layout.leadsTo?_eq hpositions hq
    have hle := hsound.locals v hv _ _ (hlist ▸ hstart) (hlist ▸ hstop)
    rw [← hlist] at hle
    exact Nat.le_of_not_lt fun hlt =>
      Nat.not_lt.mpr hle ((Layout.targetOf_lt_iff hpositions hsettled hstop hstart).mp hlt)
  obtain ⟨hplaces, hlocals⟩ := Layout.filterMap_localRange? hranges hordered
  refine ⟨l, long, hlist, hwritable.grow hgrows₂, hsettled, hcode, fun r hr => ?_,
    Layout.handlers_of_handles hhandles, Layout.filterMap_line? hsettled, hplaces,
    fun v hv => hordered v hv (hplaces v hv).1 (hplaces v hv).2, hlocals⟩
  obtain ⟨found, _, hfound⟩ := exists_of_forall₂ hhandles hr
  exact hfound.ends

/-! ## What is decoded -/

theorem Code.bare_link (labels : Labels) (l : Located) : (l.link labels).bare = l.insn.bare := by
  unfold Located.link
  split
  · rename_i h _
    rw [h]
    rfl
  · rename_i h _
    rw [h]
    rfl
  · rename_i h _
    rw [h]
    rfl
  · rfl

/-- Linked to labels, an instruction has the labels of its target offsets. -/
theorem Code.targets_link (labels : Labels) {insn : Insn} (offset : Nat) (index : UInt16)
    (target : NodeId → Nat) :
    ((Located.mk offset (insn.withIndex index).bare (insn.targets.map target)).link labels).targets =
      insn.targets.map fun id => labels.find (target id) := by
  cases insn with
  | tableSwitch low default ids => simp [Located.link, Insn.withIndex, Insn.bare, Insn.targets]
  | lookupSwitch default keys ids => simp [Located.link, Insn.withIndex, Insn.bare, Insn.targets]
  | _ => rfl

namespace Body.Encodes

variable {pool : ConstantPool} {body : Body} {l : Layout} {long : Layout.LongJumps}
  {encoded : EncodedCode}

/-- What the tables of the code tell. -/
def tables (body : Body) (l : Layout) (offsets : Array Nat) : Tables :=
  ⟨l.lineOffsets offsets, (body.locals.filter (!·.isTypeEntry)).map (l.localRange offsets false) ++
    (body.locals.filter (·.isTypeEntry)).map (l.localRange offsets true)⟩

theorem located (h : body.Encodes pool l long encoded) :
    Code.located pool encoded.code = .ok (l.locatedInsns encoded.offsets) ∧
      encoded.code.length = encoded.offsets.getD l.size 0 :=
  h.writable.located h.settled h.code_eq

theorem inOrder (h : body.Encodes pool l long encoded) :
    InOrder encoded.code.length (l.locatedInsns encoded.offsets) :=
  inOrder_of_located h.located.1

/-- Every target of an instruction has a place. -/
theorem target_placed (h : body.Encodes pool l long encoded) {p : Nat} (hp : p < l.size) {id : NodeId}
    (hid : id ∈ (l.list.insnAt p).targets) : l.IsPlaced id := by
  obtain ⟨part, hpart⟩ := Bytes.ok_of_concat_map h.code_eq (List.mem_range.mpr hp)
  obtain ⟨d, hd⟩ := Insn.distance_of_write (h.writable.fits p hp).sized hpart id hid
  obtain ⟨offset, hoffset, _⟩ := bind_eq_ok.mp hd
  exact (Layout.offsetOf_eq_ok hoffset).1

theorem isBoundary_targetOf (h : body.Encodes pool l long encoded) {id : NodeId} (hid : l.IsPlaced id) :
    IsBoundary encoded.code.length (l.locatedInsns encoded.offsets) (l.targetOf encoded.offsets id) := by
  obtain ⟨p, hp⟩ := hid
  have hle := Layout.le_size_of_find? h.writable.positions_eq hp
  rw [Layout.targetOf_eq hp, h.located.2, h.settled.offsets_eq]
  exact Layout.isBoundary_locatedInsns long hle

/-- The offsets that the code and its tables refer to. -/
def references (body : Body) (l : Layout) (encoded : EncodedCode) : List Nat :=
  referenced (l.locatedInsns encoded.offsets) encoded.handlers (tables body l encoded.offsets)

/-- The labels of these offsets. They are told by what they lead to and never computed, nor is the list. -/
@[irreducible]
def labels (body : Body) (l : Layout) (encoded : EncodedCode) : Labels :=
  labelsOf encoded.code.length (references body l encoded)

/-- The list of instructions that is read. -/
@[irreducible]
def list (body : Body) (l : Layout) (encoded : EncodedCode) : InsnList :=
  listOf encoded.code.length (l.locatedInsns encoded.offsets) (references body l encoded)
    (l.lineOffsets encoded.offsets)

/-! ### References -/

theorem target_mem {p : Nat} (hp : p ∈ l.realsFrom 0 l.size) {id : NodeId}
    (hid : id ∈ (l.list.insnAt p).targets) :
    l.targetOf encoded.offsets id ∈ references body l encoded := by
  exact mem_referenced_target (List.mem_map_of_mem hp) (List.mem_map_of_mem hid)

theorem region_mem (h : body.Encodes pool l long encoded) {r : Region}
    (hr : r ∈ body.regions.filter (l.covers encoded.offsets)) {id : NodeId}
    (hid : id ∈ [r.start, r.stop, r.handler]) :
    l.IsPlaced id ∧ l.targetOf encoded.offsets id ∈ references body l encoded := by
  obtain ⟨range, hrange, hhandler⟩ := exists_of_forall₂ h.handlers hr
  refine ⟨hhandler.placed id hid, mem_referenced_region hrange ?_⟩
  rw [hhandler.offsets_eq]
  exact List.mem_map_of_mem hid

theorem local_mem {v : LocalEntry} (hv : v ∈ body.locals) {id : NodeId} (hid : id ∈ [v.start, v.stop]) :
    l.targetOf encoded.offsets id ∈ references body l encoded := by
  refine mem_referenced_range (v := l.localRange encoded.offsets v.isTypeEntry v) ?_ (List.mem_map_of_mem hid)
  simp only [tables, List.mem_append]
  cases htype : v.isTypeEntry with
  | false => exact .inl (List.mem_map_of_mem (List.mem_filter.mpr ⟨hv, by simp [htype]⟩))
  | true => exact .inr (List.mem_map_of_mem (List.mem_filter.mpr ⟨hv, htype⟩))

/-- Whatever is referred to is the offset of an instruction or the end. -/
theorem isBoundary_references (h : body.Encodes pool l long encoded) :
    ∀ o ∈ references body l encoded,
      IsBoundary encoded.code.length (l.locatedInsns encoded.offsets) o := by
  intro o ho
  simp only [references, referenced, List.mem_append] at ho
  rcases ho with ((ho | ho) | ho) | ho
  · obtain ⟨located, hlocated, ho⟩ := List.mem_flatMap.mp ho
    obtain ⟨p, hp, rfl⟩ := List.mem_map.mp hlocated
    obtain ⟨id, hid, rfl⟩ := List.mem_map.mp ho
    have hinside : p < l.size := by simpa using (List.mem_filter.mp hp).1
    exact h.isBoundary_targetOf (h.target_placed hinside hid)
  · obtain ⟨range, hrange, ho⟩ := List.mem_flatMap.mp ho
    obtain ⟨r, _, hhandler⟩ := exists_of_forall₂ h.handlers.flip hrange
    rw [hhandler.offsets_eq] at ho
    obtain ⟨id, hid, rfl⟩ := List.mem_map.mp ho
    exact h.isBoundary_targetOf (hhandler.placed id hid)
  · obtain ⟨e, he, rfl⟩ := List.mem_map.mp ho
    obtain ⟨p, hp, he⟩ := List.mem_filterMap.mp he
    rw [(Layout.fst_of_lineOffset? he).1, h.located.2, h.settled.offsets_eq]
    exact Layout.isBoundary_locatedInsns long (Nat.le_of_lt (List.mem_range.mp hp))
  · obtain ⟨range, hrange, ho⟩ := List.mem_flatMap.mp ho
    obtain ⟨v, hv, hends⟩ : ∃ v ∈ body.locals,
        [range.start, range.stop] = [v.start, v.stop].map (l.targetOf encoded.offsets) := by
      rcases List.mem_append.mp hrange with hrange | hrange <;>
      · obtain ⟨v, hv, rfl⟩ := List.mem_map.mp hrange
        exact ⟨v, (List.mem_filter.mp hv).1, rfl⟩
    rw [hends] at ho
    obtain ⟨id, hid, rfl⟩ := List.mem_map.mp ho
    have hplaces := h.places v hv
    simp only [List.mem_cons, List.not_mem_nil, or_false] at hid
    rcases hid with rfl | rfl
    · exact h.isBoundary_targetOf hplaces.1
    · exact h.isBoundary_targetOf hplaces.2

/-- The label of an offset leads where the node leads that the offset stands for. -/
theorem leadsTo?_list (h : body.Encodes pool l long encoded) {id : NodeId} (hid : l.IsPlaced id)
    (hmem : l.targetOf encoded.offsets id ∈ references body l encoded) :
    (list body l encoded).leadsTo? ((labels body l encoded).find (l.targetOf encoded.offsets id)) =
      body.insns.leadsTo? id := by
  obtain ⟨p, hp⟩ := hid
  have hpositions := h.writable.positions_eq
  have hle := Layout.le_size_of_find? hpositions hp
  rw [list, labels, h.inOrder.leadsTo?_listOf hmem (h.isBoundary_targetOf ⟨p, hp⟩), ← h.list_eq,
    Layout.leadsTo?_eq hpositions hp, Layout.targetOf_eq hp, h.settled.offsets_eq,
    Layout.numberAt_locatedInsns long hle]

theorem map_leadsTo?_list (h : body.Encodes pool l long encoded) {ids : List NodeId}
    (hids : ∀ id ∈ ids, l.IsPlaced id ∧ l.targetOf encoded.offsets id ∈ references body l encoded) :
    (ids.map fun id => (labels body l encoded).find (l.targetOf encoded.offsets id)).map
      (list body l encoded).leadsTo? = ids.map body.insns.leadsTo? := by
  rw [List.map_map]
  refine List.map_congr_left fun id hid => ?_
  rw [Function.comp_apply, h.leadsTo?_list (hids id hid).1 (hids id hid).2]

/-! ### What is recovered -/

theorem reals_eq (h : body.Encodes pool l long encoded) :
    body.insns.reals = (l.realsFrom 0 l.size).map l.list.insnAt ∧
      (list body l encoded).reals = (l.realsFrom 0 l.size).map fun p =>
        (l.locatedAt encoded.offsets p).link (labels body l encoded) := by
  constructor
  · rw [← h.list_eq, InsnList.reals, InsnList.insns_eq_map, List.filter_map, List.range_eq_range']
    rfl
  · rw [list, labels, h.inOrder.reals_listOf, Layout.locatedInsns, List.map_map]
    rfl

theorem becomes (h : body.Encodes pool l long encoded) :
    List.Forall₂ Insn.Becomes body.insns.reals (list body l encoded).reals := by
  rw [h.reals_eq.1, h.reals_eq.2, List.forall₂_map_left_iff, List.forall₂_map_right_iff,
    List.forall₂_same]
  intro p hp
  have hinside : p < l.size := by simpa using (List.mem_filter.mp hp).1
  exact ⟨_, (h.writable.indexed p hinside).kept, (bare_link _ _).trans Insn.bare_bare⟩

theorem targetNumbers_list (h : body.Encodes pool l long encoded) :
    (list body l encoded).targetNumbers = body.insns.targetNumbers := by
  rw [InsnList.targetNumbers, InsnList.targetNumbers, h.reals_eq.1, h.reals_eq.2, List.map_map,
    List.map_map]
  refine List.map_congr_left fun p hp => ?_
  have hinside : p < l.size := by simpa using (List.mem_filter.mp hp).1
  simp only [Function.comp_apply]
  rw [Layout.locatedAt, targets_link]
  exact h.map_leadsTo?_list fun id hid => ⟨h.target_placed hinside hid, target_mem hp hid⟩

theorem none_not_mem_targetNumbers (h : body.Encodes pool l long encoded) :
    ∀ numbers ∈ body.insns.targetNumbers, none ∉ numbers := by
  intro numbers hnumbers hnone
  obtain ⟨insn, hinsn, rfl⟩ := List.mem_map.mp hnumbers
  obtain ⟨id, hid, hlost⟩ := List.mem_map.mp hnone
  rw [h.reals_eq.1] at hinsn
  obtain ⟨p, hp, rfl⟩ := List.mem_map.mp hinsn
  have hinside : p < l.size := by simpa using (List.mem_filter.mp hp).1
  obtain ⟨q, hq⟩ := h.target_placed hinside hid
  rw [← h.list_eq, Layout.leadsTo?_eq h.writable.positions_eq hq] at hlost
  cases hlost

theorem regions_numbered (h : body.Encodes pool l long encoded) :
    ((body.regions.filter (l.covers encoded.offsets)).map
      (l.relabel encoded.offsets (labels body l encoded))).map (·.numbered (list body l encoded)) =
        (body.regions.filter (·.protects body.insns)).map (·.numbered body.insns) := by
  have hsame : body.regions.filter (l.covers encoded.offsets) =
      body.regions.filter (·.protects body.insns) := by
    refine List.filter_congr fun r hr => ?_
    rw [← h.list_eq]
    exact Layout.covers_eq_protects h.writable.positions_eq h.settled (h.ends r hr)
  rw [← hsame, List.map_map]
  refine List.map_congr_left fun r hr => ?_
  have hnumbers := h.map_leadsTo?_list fun id hid => h.region_mem hr hid
  simp only [List.map_cons, List.map_nil] at hnumbers
  simp only [Function.comp_apply, Layout.relabel, Region.numbered, List.map_cons, List.map_nil, hnumbers]

theorem lines_list (h : body.Encodes pool l long encoded) :
    (list body l encoded).lines = body.insns.lines.filter (·.1 < body.insns.reals.length) := by
  have hoffsets := h.settled.offsets_eq
  have hmem : ∀ e ∈ l.lineOffsets encoded.offsets,
      ∃ located ∈ l.locatedInsns encoded.offsets, located.offset = e.1 := by
    intro e he
    obtain ⟨p, hp, he⟩ := List.mem_filterMap.mp he
    obtain ⟨heq, hlt⟩ := Layout.fst_of_lineOffset? he
    rw [hoffsets] at heq hlt ⊢
    rcases Layout.isBoundary_locatedInsns long (Nat.le_of_lt (List.mem_range.mp hp)) with hend | hfound
    · exact absurd hend (Nat.ne_of_lt hlt)
    · rw [heq]
      exact hfound
  rw [list, h.inOrder.lines_listOf,
    flatMap_linesAt h.inOrder.increasing (Layout.sorted_lineOffsets h.settled) hmem 0, Layout.lineOffsets,
    List.map_filterMap, ← InsnList.ahead_size, ← h.list_eq, InsnList.lines_eq_filterMap,
    List.filter_filterMap]
  refine List.filterMap_congr fun p hp => ?_
  have hle : p ≤ l.size := Nat.le_of_lt (List.mem_range.mp hp)
  have hlt : (l.offsets long).getD p 0 < (l.offsets long).getD l.size 0 ↔
    l.list.ahead p < l.list.ahead l.list.size := Layout.offsets_lt_iff long hle (Nat.le_refl _)
  have hnumber := Layout.numberAt_locatedInsns long hle
  rw [Layout.lineOffset?, hoffsets]
  cases l.list.insnAt p with
  | line number =>
    dsimp only
    by_cases hinside : l.list.ahead p < l.list.ahead l.list.size
    · rw [if_pos (hlt.mpr hinside), Option.map_some, hnumber, Nat.zero_add,
        Option.filter_some_pos (by simpa using hinside)]
    · rw [if_neg (fun hcontra => hinside (hlt.mp hcontra)), Option.filter_some_neg (by simpa using hinside)]
      rfl
  | _ => rfl

theorem filter_localEntry (labels : Labels) (isTypeEntry isTypeEntry' : Bool) (entries : List LocalEntry) :
    ((entries.map (l.localRange encoded.offsets isTypeEntry)).map (localEntry labels)).filter
      (·.isTypeEntry = isTypeEntry') = if isTypeEntry = isTypeEntry' then
        (entries.map (l.localRange encoded.offsets isTypeEntry)).map (localEntry labels) else [] := by
  have hentry : ∀ v ∈ (entries.map (l.localRange encoded.offsets isTypeEntry)).map (localEntry labels),
      v.isTypeEntry = isTypeEntry := by
    intro v hv
    obtain ⟨range, hrange, rfl⟩ := List.mem_map.mp hv
    obtain ⟨v, _, rfl⟩ := List.mem_map.mp hrange
    rfl
  split_ifs with heq
  · exact List.filter_eq_self.mpr fun v hv => by simpa [hentry v hv] using heq
  · exact List.filter_eq_nil_iff.mpr fun v hv => by simpa [hentry v hv] using heq

theorem locals_numbered (h : body.Encodes pool l long encoded) (isTypeEntry : Bool) :
    (((tables body l encoded.offsets).locals.map (localEntry (labels body l encoded))).filter
      (·.isTypeEntry = isTypeEntry)).map (·.numbered (list body l encoded)) =
        (body.locals.filter (·.isTypeEntry = isTypeEntry)).map (·.numbered body.insns) := by
  have hpart : ((tables body l encoded.offsets).locals.map (localEntry (labels body l encoded))).filter
      (·.isTypeEntry = isTypeEntry) = ((body.locals.filter (·.isTypeEntry = isTypeEntry)).map
        (l.localRange encoded.offsets isTypeEntry)).map (localEntry (labels body l encoded)) := by
    rw [tables, List.map_append, List.filter_append, filter_localEntry, filter_localEntry]
    cases isTypeEntry with
    | false =>
      rw [if_pos rfl, if_neg (by decide), List.append_nil]
      simp
    | true =>
      rw [if_neg Bool.false_ne_true, if_pos rfl, List.nil_append]
      simp
  rw [hpart, List.map_map, List.map_map]
  refine List.map_congr_left fun v hv => ?_
  have hv : v ∈ body.locals := (List.mem_filter.mp hv).1
  have hnumbers : ([v.start, v.stop].map fun id => (labels body l encoded).find
      (l.targetOf encoded.offsets id)).map (list body l encoded).leadsTo? =
        [v.start, v.stop].map body.insns.leadsTo? := by
    refine h.map_leadsTo?_list fun id hid => ⟨?_, local_mem hv hid⟩
    have hplaces := h.places v hv
    simp only [List.mem_cons, List.not_mem_nil, or_false] at hid
    rcases hid with rfl | rfl
    · exact hplaces.1
    · exact hplaces.2
  simp only [List.map_cons, List.map_nil] at hnumbers
  simp only [Function.comp_apply, localEntry, Layout.localRange, LocalEntry.numbered, List.map_cons,
    List.map_nil, hnumbers]

/-- The body that is read. -/
def decoded (body : Body) (l : Layout) (encoded : EncodedCode) (maxStack maxLocals : UInt16) : Body where
  insns := list body l encoded
  regions := (body.regions.filter (l.covers encoded.offsets)).map
    (l.relabel encoded.offsets (labels body l encoded))
  locals := (tables body l encoded.offsets).locals.map (localEntry (labels body l encoded))
  maxStack := maxStack
  maxLocals := maxLocals

theorem decode_eq (h : body.Encodes pool l long encoded) {attributes : List Attribute}
    (htables : Tables.ofAttributes pool attributes = .ok (tables body l encoded.offsets))
    (maxStack maxLocals : UInt16) :
    Body.decode pool ⟨maxStack, maxLocals, encoded.code, encoded.handlers, attributes⟩ =
      .ok (decoded body l encoded maxStack maxLocals) := by
  have hregions : encoded.handlers.mapM (region pool (labels body l encoded)) =
      .ok ((body.regions.filter (l.covers encoded.offsets)).map
        (l.relabel encoded.offsets (labels body l encoded))) := by
    refine mapM_eq_ok.mpr (List.forall₂_map_right_iff.mpr ?_)
    exact h.handlers.flip.imp fun _ _ hhandler => hhandler.region _
  rw [decoded, list]
  rw [labels] at hregions ⊢
  exact Body.decode_eq_ok.mpr ⟨l.locatedInsns encoded.offsets, tables body l encoded.offsets, _,
    h.located.1, htables, h.isBoundary_references, hregions, rfl⟩

theorem recovers (h : body.Encodes pool l long encoded) (maxStack maxLocals : UInt16) :
    body.Recovers (decoded body l encoded maxStack maxLocals) where
  insns := h.becomes
  targets := h.targetNumbers_list
  placed := h.none_not_mem_targetNumbers
  regions := h.regions_numbered
  lines := h.lines_list
  locals := h.locals_numbered

theorem grow {pool' : ConstantPool} (h : body.Encodes pool l long encoded) (hgrows : pool.Grows pool') :
    body.Encodes pool' l long encoded :=
  { h with
    writable := h.writable.grow hgrows
    handlers := h.handlers.imp fun _ _ hhandler =>
      ⟨hhandler.placed, hhandler.offsets_eq, hhandler.catches.grow hgrows⟩ }

/-- The tables are told by the lines and local variables that were encoded. -/
theorem tables_eq (h : body.Encodes pool l long encoded) :
    tables body l encoded.offsets = ⟨encoded.lines.map fun e => (e.1.toNat, e.2),
      (encoded.locals.filter (!·.1.isTypeEntry)).map (EncodedCode.rangeOf false) ++
        (encoded.locals.filter (·.1.isTypeEntry)).map (EncodedCode.rangeOf true)⟩ := by
  have hrange : ∀ (isTypeEntry : Bool) (entries : List LocalEntry), (∀ v ∈ entries, v ∈ body.locals) →
      (entries.map fun v => (v, (l.targetOf encoded.offsets v.start).toUInt16,
        (l.targetOf encoded.offsets v.stop - l.targetOf encoded.offsets v.start).toUInt16)).map
          (EncodedCode.rangeOf isTypeEntry) = entries.map (l.localRange encoded.offsets isTypeEntry) := by
    intro isTypeEntry entries hentries
    rw [List.map_map]
    exact List.map_congr_left fun v hv => Layout.rangeOf_localRange h.writable.positions_eq h.settled
      isTypeEntry (h.ordered v (hentries v hv))
  rw [tables, h.lines_eq, h.locals_eq, List.filter_map, List.filter_map,
    hrange false _ fun v hv => (List.mem_filter.mp hv).1, hrange true _ fun v hv => (List.mem_filter.mp hv).1]
  rfl

end Body.Encodes

/-- A body that is encoded and written is read back, also if the pool has grown meanwhile. -/
theorem Body.decode_encode {pool pool₁ pool₂ pool₃ : ConstantPool} {body : Body} {encoded : EncodedCode}
    {code : CodeAttribute} {maxStack maxLocals : UInt16} {extra : List Attribute} {info : List UInt8}
    (hlaid : pool.LaidOut) (hsound : body.Sound pool)
    (hencode : pool.edit body.encode = (.ok encoded, pool₁)) (hgrows : pool₁.Grows pool₂)
    (hextra : ∀ a ∈ extra, ∃ name, pool₂.utf8 a.nameIndex = .ok name ∧ name ∉ tableNames)
    (hattribute : pool₂.edit (encoded.toAttribute maxStack maxLocals extra) = (.ok code, pool₃))
    (hbytes : code.toBytes = .ok info) :
    ∃ code' body', CodeAttribute.parse info = .ok code' ∧ Body.decode pool₃ code' = .ok body' ∧
      body.Recovers body' ∧ body'.maxStack = maxStack ∧ body'.maxLocals = maxLocals := by
  obtain ⟨l, long, hencodes⟩ := Body.encodes_of_encode hlaid hsound hencode
  have hlaid₂ := hgrows.laidOut ((body.adds_encode.grows hencode).laidOut hlaid)
  have hgrows' := (encoded.adds_toAttribute maxStack maxLocals extra).grows hattribute
  have hencodes' := hencodes.grow (hgrows.trans hgrows')
  obtain ⟨attributes, rfl, htables⟩ := EncodedCode.toAttribute_spec hlaid₂.2 hextra hattribute
  rw [← hencodes'.tables_eq] at htables
  exact ⟨_, _, CodeAttribute.parse_toBytes hbytes, hencodes'.decode_eq htables maxStack maxLocals,
    hencodes'.recovers maxStack maxLocals, rfl, rfl⟩

/-- A loop that loads a fresh constant, with a line, a region and a local variable. -/
def loopBody : Body where
  insns := ⟨#[.label, .line 7, .load (.int 100000), .op 87, .jump Opcode.goto ⟨0⟩, .label],
    #[⟨0⟩, ⟨1⟩, ⟨2⟩, ⟨3⟩, ⟨4⟩, ⟨5⟩]⟩
  regions := [⟨⟨0⟩, ⟨5⟩, ⟨0⟩, none⟩]
  locals := [⟨⟨0⟩, ⟨5⟩, 1, 2, 0, false⟩]
  maxStack := 1
  maxLocals := 1

theorem loopBody_sound : loopBody.Sound .empty where
  insns p hp := by
    have hfits : ∀ insn ∈ loopBody.insns.nodes.toList, insn.Fits ∧ insn.storedIndex = 0 := by
      simp only [loopBody, List.forall_mem_cons]
      exact ⟨⟨trivial, rfl⟩, ⟨trivial, rfl⟩, ⟨trivial, rfl⟩, ⟨rfl, rfl⟩, ⟨rfl, rfl⟩, ⟨trivial, rfl⟩, by simp⟩
    have hp : p < 6 := hp
    obtain ⟨hinsn, hindex⟩ := hfits (loopBody.insns.insnAt p) (by
      obtain rfl | rfl | rfl | rfl | rfl | rfl : p = 0 ∨ p = 1 ∨ p = 2 ∨ p = 3 ∨ p = 4 ∨ p = 5 := by omega
      all_goals decide)
    exact ⟨hinsn, fun h => absurd hindex h⟩
  locals v hv first last hfirst hlast := by
    obtain rfl := List.mem_singleton.mp hv
    obtain rfl : 0 = first := Option.some.inj hfirst
    exact Nat.zero_le last

theorem Body.decode_encode_loop :
    ∃ encoded pool code pool' info, ConstantPool.empty.edit loopBody.encode = (.ok encoded, pool) ∧
      pool.edit (encoded.toAttribute 1 1 []) = (.ok code, pool') ∧ code.toBytes = .ok info ∧
      ∃ code' body', CodeAttribute.parse info = .ok code' ∧ Body.decode pool' code' = .ok body' ∧
        loopBody.Recovers body' ∧ body'.maxStack = 1 ∧ body'.maxLocals = 1 := by
  have hencode : ConstantPool.empty.edit loopBody.encode =
      (.ok ⟨[18, 1, 87, 167, 255, 253], #[0, 0, 0, 2, 3, 6, 6], [⟨0, 6, 0, 0⟩], [(0, 7)],
        [(⟨⟨0⟩, ⟨5⟩, 1, 2, 0, false⟩, 0, 6)]⟩, ⟨#[.unusable, .int 100000]⟩) := by
    with_unfolding_all rfl
  have hattribute : (ConstantPool.mk #[.unusable, .int 100000]).edit (EncodedCode.toAttribute
      ⟨[18, 1, 87, 167, 255, 253], #[0, 0, 0, 2, 3, 6, 6], [⟨0, 6, 0, 0⟩], [(0, 7)],
        [(⟨⟨0⟩, ⟨5⟩, 1, 2, 0, false⟩, 0, 6)]⟩ 1 1 []) =
      (.ok ⟨1, 1, [18, 1, 87, 167, 255, 253], [⟨0, 6, 0, 0⟩],
        [⟨2, [0, 1, 0, 0, 0, 7]⟩, ⟨3, [0, 1, 0, 0, 0, 6, 0, 1, 0, 2, 0, 0]⟩]⟩,
        ⟨#[.unusable, .int 100000, .utf8 lineTable, .utf8 localTable]⟩) := by
    with_unfolding_all rfl
  have hbytes : CodeAttribute.toBytes ⟨1, 1, [18, 1, 87, 167, 255, 253], [⟨0, 6, 0, 0⟩],
      [⟨2, [0, 1, 0, 0, 0, 7]⟩, ⟨3, [0, 1, 0, 0, 0, 6, 0, 1, 0, 2, 0, 0]⟩]⟩ =
      .ok [0, 1, 0, 1, 0, 0, 0, 6, 18, 1, 87, 167, 255, 253, 0, 1, 0, 0, 0, 6, 0, 0, 0, 0, 0, 2, 0, 2,
        0, 0, 0, 6, 0, 1, 0, 0, 0, 7, 0, 3, 0, 0, 0, 12, 0, 1, 0, 0, 0, 6, 0, 1, 0, 2, 0, 0] := by
    rfl
  exact ⟨_, _, _, _, _, hencode, hattribute, hbytes, Body.decode_encode laidOut_empty loopBody_sound hencode
    (.refl _) (by simp) hattribute hbytes⟩

end DirectCall
