import DirectCall.Proofs.ConstantPool.Layout

/-!
# Pools only grow

An edit leaves the entries of a pool where they are and adds new ones at the end, which were not in it
(`Grows`, `Edit.Adds`). So what an index stands for stays what it is (`Grows.keeps`).
-/

namespace DirectCall.ConstantPool

/-! ## Growth -/

/-- The second pool is the first one with the slots of usable entries behind it that it does not have.
An index still reaches all slots. -/
structure Grows (pool pool' : ConstantPool) : Prop where
  added : ∃ es : List Entry, (∀ e ∈ es, e ≠ .unusable ∧ e ∉ pool.entries.toList) ∧
    pool'.entries.toList = pool.entries.toList ++ es.flatMap Entry.slots
  small : pool.size ≤ 65535 → pool'.size ≤ 65535

theorem Grows.refl (pool : ConstantPool) : pool.Grows pool :=
  ⟨⟨[], by simp, by simp⟩, id⟩

theorem Grows.trans {pool pool' pool'' : ConstantPool} (h : pool.Grows pool') (h' : pool'.Grows pool'') :
    pool.Grows pool'' := by
  obtain ⟨⟨es, hes, heq⟩, hsmall⟩ := h
  obtain ⟨⟨es', hes', heq'⟩, hsmall'⟩ := h'
  refine ⟨⟨es ++ es', fun e he => ?_, ?_⟩, hsmall' ∘ hsmall⟩
  · rcases List.mem_append.mp he with he | he
    · exact hes e he
    · obtain ⟨husable, hnew⟩ := hes' e he
      refine ⟨husable, fun hold => hnew ?_⟩
      rw [heq]
      exact List.mem_append_left _ hold
  · rw [heq', heq, List.flatMap_append, List.append_assoc]

theorem Grows.laidOut {pool pool' : ConstantPool} (h : pool.Grows pool') (hpool : pool.LaidOut) :
    pool'.LaidOut := by
  obtain ⟨⟨es, hes, heq⟩, hsmall⟩ := h
  obtain ⟨⟨es', hes', heq'⟩, hsmall'⟩ := hpool
  refine ⟨⟨es' ++ es, fun e he => ?_, ?_⟩, hsmall hsmall'⟩
  · rcases List.mem_append.mp he with he | he
    · exact hes' e he
    · exact (hes e he).1
  · rw [heq, heq', List.flatMap_append, List.cons_append]

theorem Grows.slot {pool pool' : ConstantPool} (h : pool.Grows pool') {i : Nat} {e : Entry}
    (hslot : pool.entries[i]? = some e) : pool'.entries[i]? = some e := by
  obtain ⟨⟨es, _, heq⟩, _⟩ := h
  rw [← Array.getElem?_toList] at hslot ⊢
  rw [heq]
  exact List.getElem?_append_left (List.getElem?_eq_some_iff.mp hslot).1 ▸ hslot

/-! ## Look-ups -/

theorem get_eq_ok {pool : ConstantPool} {index : UInt16} {e : Entry} :
    pool.get index = .ok e ↔ pool.entries[index.toNat]? = some e ∧ e ≠ .unusable := by
  unfold get
  split
  · rename_i hslot
    simp [hslot]
  · rename_i hslot
    rw [hslot]
    constructor
    · intro h
      cases h
    · rintro ⟨h, husable⟩
      exact absurd (Option.some.inj h).symm husable
  · rename_i e' husable hslot
    rw [hslot, Except.ok.injEq, Option.some.injEq]
    constructor
    · rintro rfl
      exact ⟨rfl, husable⟩
    · exact And.left

theorem utf8_eq_ok {pool : ConstantPool} {index : UInt16} {text : String} :
    pool.utf8 index = .ok text ↔ pool.entries[index.toNat]? = some (.utf8 text) := by
  unfold utf8
  constructor
  · intro h
    obtain ⟨e, he, h⟩ := bind_eq_ok.mp h
    split at h
    · cases h
      exact (get_eq_ok.mp he).1
    · cases h
  · intro h
    rw [get_eq_ok.mpr ⟨h, nofun⟩]
    rfl

/-- Whatever can be looked up in the first pool is the same in the second one. -/
structure Keeps (pool pool' : ConstantPool) : Prop where
  get : ∀ index e, pool.get index = .ok e → pool'.get index = .ok e
  utf8 : ∀ index text, pool.utf8 index = .ok text → pool'.utf8 index = .ok text
  className : ∀ index name, pool.className index = .ok name → pool'.className index = .ok name
  moduleName : ∀ index name, pool.moduleName index = .ok name → pool'.moduleName index = .ok name
  packageName : ∀ index name, pool.packageName index = .ok name → pool'.packageName index = .ok name
  nameAndType : ∀ index nat, pool.nameAndType index = .ok nat → pool'.nameAndType index = .ok nat
  member : ∀ index m, pool.member index = .ok m → pool'.member index = .ok m
  invokeDynamic : ∀ index nat, pool.invokeDynamic index = .ok nat → pool'.invokeDynamic index = .ok nat
  loadable : ∀ index k, pool.loadable index = .ok k → pool'.loadable index = .ok k

section

variable {pool pool' : ConstantPool}

theorem Grows.get (h : pool.Grows pool') {index : UInt16} {e : Entry} (hget : pool.get index = .ok e) :
    pool'.get index = .ok e :=
  get_eq_ok.mpr ⟨h.slot (get_eq_ok.mp hget).1, (get_eq_ok.mp hget).2⟩

theorem Grows.utf8 (h : pool.Grows pool') {index : UInt16} {text : String}
    (hget : pool.utf8 index = .ok text) : pool'.utf8 index = .ok text :=
  utf8_eq_ok.mpr (h.slot (utf8_eq_ok.mp hget))

/-- A look-up keeps its answer if it gets an entry first and its second step keeps it. -/
theorem Grows.get_bind {α : Type} (h : pool.Grows pool') {index : UInt16}
    {next next' : Entry → Except Fault α} {a : α} (hnext : ∀ e, next e = .ok a → next' e = .ok a)
    (hget : (pool.get index >>= next) = .ok a) : (pool'.get index >>= next') = .ok a := by
  obtain ⟨e, he, ha⟩ := bind_eq_ok.mp hget
  exact bind_eq_ok.mpr ⟨e, h.get he, hnext e ha⟩

theorem Grows.className (h : pool.Grows pool') {index : UInt16} {name : String}
    (hget : pool.className index = .ok name) : pool'.className index = .ok name := by
  refine h.get_bind (fun e he => ?_) hget
  split at he
  · exact h.utf8 he
  · cases he

theorem Grows.nameAndType (h : pool.Grows pool') {index : UInt16} {nat : String × String}
    (hget : pool.nameAndType index = .ok nat) : pool'.nameAndType index = .ok nat := by
  refine h.get_bind (fun e he => ?_) hget
  split at he
  · obtain ⟨name, hname, he⟩ := bind_eq_ok.mp he
    obtain ⟨descriptor, hdescriptor, he⟩ := bind_eq_ok.mp he
    exact bind_eq_ok.mpr ⟨name, h.utf8 hname, bind_eq_ok.mpr ⟨descriptor, h.utf8 hdescriptor, he⟩⟩
  · cases he

theorem Grows.memberAt (h : pool.Grows pool') {owner nat : UInt16} {m : MemberRef}
    (hget : pool.memberAt owner nat = .ok m) : pool'.memberAt owner nat = .ok m := by
  obtain ⟨⟨name, descriptor⟩, hnat, hget⟩ := bind_eq_ok.mp hget
  obtain ⟨className, hclass, hget⟩ := bind_eq_ok.mp hget
  exact bind_eq_ok.mpr ⟨_, h.nameAndType hnat, bind_eq_ok.mpr ⟨className, h.className hclass, hget⟩⟩

theorem Grows.member (h : pool.Grows pool') {index : UInt16} {m : MemberRef × Bool}
    (hget : pool.member index = .ok m) : pool'.member index = .ok m := by
  have hpart : ∀ {owner nat : UInt16} {interface : Bool},
      (do return (← pool.memberAt owner nat, interface)) = Except.ok m →
        (do return (← pool'.memberAt owner nat, interface)) = Except.ok m := by
    intro owner nat interface hpart
    obtain ⟨found, hfound, hpart⟩ := bind_eq_ok.mp hpart
    exact bind_eq_ok.mpr ⟨found, h.memberAt hfound, hpart⟩
  refine h.get_bind (fun e he => ?_) hget
  split at he
  · exact hpart he
  · exact hpart he
  · exact hpart he
  · cases he

theorem Grows.loadable (h : pool.Grows pool') {index : UInt16} {k : Constant}
    (hget : pool.loadable index = .ok k) : pool'.loadable index = .ok k := by
  have hpart : ∀ {text : UInt16} {make : String → Constant},
      (do return make (← pool.utf8 text)) = Except.ok k →
        (do return make (← pool'.utf8 text)) = Except.ok k := by
    intro text make hpart
    obtain ⟨found, hfound, hpart⟩ := bind_eq_ok.mp hpart
    exact bind_eq_ok.mpr ⟨found, h.utf8 hfound, hpart⟩
  refine h.get_bind (fun e he => ?_) hget
  split at he
  case h_5 => exact hpart he
  case h_6 => exact hpart he
  case h_7 => exact hpart he
  case h_9 =>
    obtain ⟨found, hfound, he⟩ := bind_eq_ok.mp he
    exact bind_eq_ok.mpr ⟨found, h.nameAndType hfound, he⟩
  all_goals exact he

/-- Growth changes no answer. -/
theorem Grows.keeps (h : pool.Grows pool') : pool.Keeps pool' where
  get _ _ := h.get
  utf8 _ _ := h.utf8
  className _ _ := h.className
  moduleName _ _ hget := h.get_bind (fun e he => by
    split at he
    · exact h.utf8 he
    · cases he) hget
  packageName _ _ hget := h.get_bind (fun e he => by
    split at he
    · exact h.utf8 he
    · cases he) hget
  nameAndType _ _ := h.nameAndType
  member _ _ := h.member
  invokeDynamic _ _ hget := h.get_bind (fun e he => by
    split at he
    · exact h.nameAndType he
    · cases he) hget
  loadable _ _ := h.loadable

/-- A text that is in the pool is not added again, so no new index leads to it. -/
theorem Grows.utf8_iff (h : pool.Grows pool') {text : String} (hmem : .utf8 text ∈ pool.entries.toList)
    {index : UInt16} : pool'.utf8 index = .ok text ↔ pool.utf8 index = .ok text := by
  refine ⟨fun hnew => ?_, h.utf8⟩
  obtain ⟨⟨es, hes, heq⟩, _⟩ := h
  rw [utf8_eq_ok, ← Array.getElem?_toList] at hnew ⊢
  rw [heq, List.getElem?_append] at hnew
  split_ifs at hnew with hold
  · exact hnew
  · obtain ⟨e, he, hslot⟩ := List.mem_flatMap.mp (List.mem_of_getElem? hnew)
    have hsame : .utf8 text = e := by
      unfold Entry.slots at hslot
      split_ifs at hslot
      · rcases List.mem_cons.mp hslot with hsame | hsame
        · exact hsame
        · cases List.mem_singleton.mp hsame
      · exact List.mem_singleton.mp hslot
    exact absurd (hsame ▸ hmem) (hes e he).2

end

/-! ## Interning -/

theorem intern_grows {pool pool' : ConstantPool} {e : Entry} {index : UInt16} (husable : e ≠ .unusable)
    (h : pool.intern e = .ok (index, pool')) :
    pool.Grows pool' ∧ (pool.size ≤ 65535 → pool'.entries[index.toNat]? = some e) := by
  have hcount : ∀ {n : Nat}, n ≤ 65535 → n.toUInt16.toNat = n := by
    intro n hn
    rw [Nat.toUInt16_eq, UInt16.toNat_ofNat']
    omega
  unfold intern at h
  split at h
  · rename_i i hfound
    cases h
    obtain ⟨hi, heq, _⟩ := Array.findIdx?_eq_some_iff_getElem.mp hfound
    refine ⟨.refl pool, fun hsmall => ?_⟩
    rw [hcount (show i ≤ 65535 by unfold size at hsmall; omega), Array.getElem?_eq_getElem hi]
    exact congrArg some (of_decide_eq_true heq)
  · rename_i hnone
    dsimp only at h
    split_ifs at h with hfull
    cases h
    have hnew : e ∉ pool.entries.toList := by
      intro hmem
      have hne := Array.findIdx?_eq_none_iff.mp hnone e (Array.mem_toList_iff.mp hmem)
      simp at hne
    refine ⟨⟨⟨[e], ?_, by simp⟩, fun _ => ?_⟩, fun _ => ?_⟩
    · intro e' he'
      rw [List.mem_singleton.mp he']
      exact ⟨husable, hnew⟩
    · show (pool.entries ++ e.slots.toArray).size ≤ 65535
      rw [Array.size_append]
      show pool.size + e.slots.length ≤ 65535
      omega
    · obtain ⟨others, hslots⟩ : ∃ others, e.slots = e :: others := by
        unfold Entry.slots
        split_ifs
        · exact ⟨[.unusable], rfl⟩
        · exact ⟨[], rfl⟩
      rw [hcount (show pool.size ≤ 65535 by omega), hslots, ← Array.getElem?_toList]
      simp [size]

/-! ## Edits -/

/-- The edit only adds to a pool, whether it succeeds or not. -/
def Edit.Adds {α : Type} (steps : Edit α) : Prop :=
  ∀ pool : ConstantPool, pool.Grows (pool.edit steps).2

section

variable {α β : Type}

theorem edit_bind (pool : ConstantPool) (steps : Edit α) (next : α → Edit β) :
    pool.edit (steps >>= next) =
      match pool.edit steps with
      | (.ok a, pool') => pool'.edit (next a)
      | (.error fault, pool') => (.error fault, pool') := by
  unfold edit
  rw [ExceptT.run_bind, StateT.run_bind]
  rcases StateT.run (ExceptT.run steps) pool with ⟨_ | a, pool'⟩
  · rfl
  · rfl

theorem edit_bind_eq_ok {pool pool'' : ConstantPool} {steps : Edit α} {next : α → Edit β} {b : β} :
    pool.edit (steps >>= next) = (.ok b, pool'') ↔
      ∃ a pool', pool.edit steps = (.ok a, pool') ∧ pool'.edit (next a) = (.ok b, pool'') := by
  rw [edit_bind]
  rcases pool.edit steps with ⟨_ | a, pool'⟩
  · simp
  · simp

theorem edit_internM_eq_ok {pool pool' : ConstantPool} {e : Entry} {index : UInt16} :
    pool.edit (internM e) = (.ok index, pool') ↔ pool.intern e = .ok (index, pool') := by
  unfold edit internM
  rw [ExceptT.run_mk, StateT.run]
  split
  · rename_i found pool'' hintern
    simp [hintern]
  · rename_i fault hintern
    simp [hintern]

theorem adds_pure (a : α) : Edit.Adds (pure a) :=
  fun pool => .refl pool

theorem adds_throw (fault : Fault) : Edit.Adds (throw fault : Edit α) :=
  fun pool => .refl pool

theorem adds_liftM (result : Except Fault α) : Edit.Adds (liftM result) :=
  fun pool => .refl pool

theorem adds_mk_pure (result : Except Fault α) : Edit.Adds (ExceptT.mk (pure result)) :=
  fun pool => .refl pool

theorem Edit.Adds.bind {steps : Edit α} {next : α → Edit β} (h : steps.Adds)
    (hnext : ∀ a, (next a).Adds) : Edit.Adds (steps >>= next) := by
  intro pool
  have hfirst := h pool
  rw [edit_bind]
  revert hfirst
  rcases pool.edit steps with ⟨_ | a, pool'⟩ <;> intro hfirst
  · exact hfirst
  · exact hfirst.trans (hnext a pool')

theorem Edit.Adds.ite {c : Prop} [Decidable c] {steps steps' : Edit α} (h : steps.Adds)
    (h' : steps'.Adds) : Edit.Adds (if c then steps else steps') := by
  split_ifs
  · exact h
  · exact h'

theorem Edit.Adds.mapM {f : α → Edit β} (h : ∀ a, (f a).Adds) (items : List α) :
    Edit.Adds (items.mapM f) := by
  induction items with
  | nil => exact adds_pure []
  | cons a rest ih =>
    rw [List.mapM_cons]
    exact (h a).bind fun b => ih.bind fun bs => adds_pure (b :: bs)

theorem Edit.Adds.foldlM {f : β → α → Edit β} (h : ∀ b a, (f b a).Adds) (start : β) (items : List α) :
    Edit.Adds (items.foldlM f start) := by
  induction items generalizing start with
  | nil => exact adds_pure start
  | cons a rest ih =>
    rw [List.foldlM_cons]
    exact (h start a).bind fun b => ih b

end

theorem adds_internM {e : Entry} (husable : e ≠ .unusable) : (internM e).Adds := by
  intro pool
  unfold edit internM
  rw [ExceptT.run_mk, StateT.run]
  split
  · rename_i found pool' hintern
    exact (intern_grows husable hintern).1
  · exact .refl pool

theorem adds_utf8Index (text : String) : (utf8Index text).Adds := adds_internM nofun

/-- The index that a text is given leads to it. -/
theorem utf8_of_utf8Index {pool pool' : ConstantPool} {text : String} {index : UInt16}
    (hsmall : pool.size ≤ 65535) (h : pool.edit (utf8Index text) = (.ok index, pool')) :
    pool'.utf8 index = .ok text := by
  have hintern := edit_internM_eq_ok.mp h
  obtain ⟨_, hslot⟩ := intern_grows (show Entry.utf8 text ≠ .unusable from nofun) hintern
  exact utf8_eq_ok.mpr (hslot hsmall)

theorem adds_classIndex (name : String) : (classIndex name).Adds :=
  (adds_utf8Index name).bind fun _ => adds_internM nofun

theorem adds_stringIndex (text : String) : (stringIndex text).Adds :=
  (adds_utf8Index text).bind fun _ => adds_internM nofun

theorem adds_nameAndTypeIndex (name descriptor : String) : (nameAndTypeIndex name descriptor).Adds :=
  (adds_utf8Index name).bind fun _ => (adds_utf8Index descriptor).bind fun _ => adds_internM nofun

theorem adds_methodIndex (m : MemberRef) (interface : Bool) : (methodIndex m interface).Adds := by
  refine (adds_classIndex m.owner).bind fun owner =>
    (adds_nameAndTypeIndex m.name m.descriptor).bind fun nat => adds_internM ?_
  split_ifs <;> exact nofun

theorem adds_fieldIndex (m : MemberRef) : (fieldIndex m).Adds :=
  (adds_classIndex m.owner).bind fun _ =>
    (adds_nameAndTypeIndex m.name m.descriptor).bind fun _ => adds_internM nofun

theorem adds_constantIndex (k : Constant) : (constantIndex k).Adds := by
  cases k with
  | int value => exact adds_internM nofun
  | float bits => exact adds_internM nofun
  | long value => exact adds_internM nofun
  | double bits => exact adds_internM nofun
  | string text => exact adds_stringIndex text
  | classRef name => exact adds_classIndex name
  | methodType descriptor => exact (adds_utf8Index descriptor).bind fun _ => adds_internM nofun
  | methodHandle => exact adds_throw _
  | dynamic descriptor => exact adds_throw _

end DirectCall.ConstantPool
