import DirectCall.Proofs.ConstantPool.Growth

/-!
# Indices lead to what they were asked for

An index that a pool hands out leads to the constant, class or member it was asked for, and goes on doing
so when the pool grows. It is never zero: slot 0 of a pool that is laid out entry by entry is unusable.
-/

namespace DirectCall.ConstantPool

/-- An edit that only adds has grown the pool. -/
theorem Edit.Adds.grows {α : Type} {steps : Edit α} (h : steps.Adds) {pool pool' : ConstantPool}
    {result : Except Fault α} (hrun : pool.edit steps = (result, pool')) : pool.Grows pool' := by
  have hgrows := h pool
  rwa [hrun] at hgrows

section

variable {α β : Type}

theorem edit_liftM_eq_ok {pool pool' : ConstantPool} {result : Except Fault α} {a : α} :
    pool.edit (liftM result : Edit α) = (.ok a, pool') ↔ result = .ok a ∧ pool = pool' :=
  Prod.mk.injEq .. ▸ Iff.rfl

/-- What steps in a row made. Each starts from a pool that has grown, and what is said of it stays so. -/
theorem edit_mapM {f : α → Edit β} {P : ConstantPool → α → β → Prop} {items : List α} {results : List β}
    {pool pool' : ConstantPool} (hadds : ∀ a, (f a).Adds)
    (hkeep : ∀ {pool pool' a b}, pool.Grows pool' → P pool a b → P pool' a b)
    (hstep : ∀ a ∈ items, ∀ {pool₁ pool₂ b}, pool.Grows pool₁ →
      pool₁.edit (f a) = (.ok b, pool₂) → P pool₂ a b)
    (h : pool.edit (items.mapM f) = (.ok results, pool')) : List.Forall₂ (P pool') items results := by
  induction items generalizing pool results with
  | nil =>
    cases h
    exact .nil
  | cons a rest ih =>
    rw [List.mapM_cons] at h
    obtain ⟨b, pool₁, hfirst, hrest⟩ := edit_bind_eq_ok.mp h
    obtain ⟨bs, pool₂, hothers, hlast⟩ := edit_bind_eq_ok.mp hrest
    cases hlast
    have hgrows := (hadds a).grows hfirst
    have hgrows' := (Edit.Adds.mapM hadds rest).grows hothers
    refine .cons (hkeep hgrows' (hstep a List.mem_cons_self (.refl pool) hfirst)) ?_
    exact ih (fun a' ha' pool₁ pool₂ b h => hstep a' (List.mem_cons_of_mem _ ha') (hgrows.trans h)) hothers

end

/-- Slot 0 leads nowhere. -/
theorem LaidOut.get_zero {pool : ConstantPool} (h : pool.LaidOut) :
    pool.get 0 = .error (.badPoolIndex 0) := by
  obtain ⟨⟨es, _, hslots⟩, _⟩ := h
  have hfirst : pool.entries[(0 : UInt16).toNat]? = some .unusable := by
    rw [← Array.getElem?_toList, hslots]
    rfl
  rw [get, hfirst]

theorem LaidOut.ne_zero {pool : ConstantPool} (h : pool.LaidOut) {index : UInt16} {e : Entry}
    (hget : pool.get index = .ok e) : index ≠ 0 := by
  rintro rfl
  rw [h.get_zero] at hget
  cases hget

/-- A look-up that starts with an entry fails at slot 0. -/
theorem LaidOut.bind_ne_zero {α : Type} {pool : ConstantPool} (h : pool.LaidOut) {index : UInt16}
    {next : Entry → Except Fault α} {a : α} (hget : (pool.get index >>= next) = .ok a) : index ≠ 0 := by
  obtain ⟨e, he, _⟩ := bind_eq_ok.mp hget
  exact h.ne_zero he

section

variable {pool pool' : ConstantPool} {index : UInt16}

theorem get_of_internM {e : Entry} (husable : e ≠ .unusable) (hsmall : pool.size ≤ 65535)
    (h : pool.edit (internM e) = (.ok index, pool')) : pool'.get index = .ok e := by
  obtain ⟨_, hslot⟩ := intern_grows husable (edit_internM_eq_ok.mp h)
  exact get_eq_ok.mpr ⟨hslot hsmall, husable⟩

theorem className_of_get {name : UInt16} {text : String} (hget : pool.get index = .ok (.classRef name))
    (htext : pool.utf8 name = .ok text) : pool.className index = .ok text := by
  rw [className, hget]
  exact htext

/-- An entry that refers to a text, added behind the text. -/
theorem get_of_utf8Index_bind {text : String} {f : UInt16 → Entry} (husable : ∀ i, f i ≠ .unusable)
    (hsmall : pool.size ≤ 65535)
    (h : pool.edit (utf8Index text >>= fun i => internM (f i)) = (.ok index, pool')) :
    ∃ i, pool'.get index = .ok (f i) ∧ pool'.utf8 i = .ok text := by
  obtain ⟨i, pool₁, htext, hentry⟩ := edit_bind_eq_ok.mp h
  have hgrows := (adds_utf8Index text).grows htext
  have hgrows' := (adds_internM (husable i)).grows hentry
  exact ⟨i, get_of_internM (husable i) (hgrows.small hsmall) hentry,
    hgrows'.utf8 (utf8_of_utf8Index hsmall htext)⟩

theorem className_of_classIndex {name : String} (hsmall : pool.size ≤ 65535)
    (h : pool.edit (classIndex name) = (.ok index, pool')) : pool'.className index = .ok name := by
  obtain ⟨i, hget, htext⟩ := get_of_utf8Index_bind (f := .classRef) nofun hsmall h
  exact className_of_get hget htext

theorem nameAndType_of_nameAndTypeIndex {name descriptor : String} (hsmall : pool.size ≤ 65535)
    (h : pool.edit (nameAndTypeIndex name descriptor) = (.ok index, pool')) :
    pool'.nameAndType index = .ok (name, descriptor) := by
  obtain ⟨i, pool₁, hname, h⟩ := edit_bind_eq_ok.mp h
  obtain ⟨j, pool₂, hdescriptor, hentry⟩ := edit_bind_eq_ok.mp h
  have hgrows₁ := (adds_utf8Index name).grows hname
  have hgrows₂ := (adds_utf8Index descriptor).grows hdescriptor
  have hgrows₃ := (adds_internM (e := .nameAndType i j) nofun).grows hentry
  have hsmall₂ := hgrows₂.small (hgrows₁.small hsmall)
  refine bind_eq_ok.mpr ⟨_, get_of_internM (e := .nameAndType i j) nofun hsmall₂ hentry, ?_⟩
  refine bind_eq_ok.mpr ⟨name, (hgrows₂.trans hgrows₃).utf8 (utf8_of_utf8Index hsmall hname), ?_⟩
  exact bind_eq_ok.mpr ⟨descriptor,
    hgrows₃.utf8 (utf8_of_utf8Index (hgrows₁.small hsmall) hdescriptor), rfl⟩

/-- An entry that refers to a class and to a name with a type, added behind both. -/
theorem get_of_memberIndex {m : MemberRef} {f : UInt16 → UInt16 → Entry}
    (husable : ∀ i j, f i j ≠ .unusable) (hsmall : pool.size ≤ 65535)
    (h : pool.edit (classIndex m.owner >>= fun i => nameAndTypeIndex m.name m.descriptor >>= fun j =>
      internM (f i j)) = (.ok index, pool')) :
    ∃ i j, pool'.get index = .ok (f i j) ∧ pool'.memberAt i j = .ok m := by
  obtain ⟨i, pool₁, howner, h⟩ := edit_bind_eq_ok.mp h
  obtain ⟨j, pool₂, hnat, hentry⟩ := edit_bind_eq_ok.mp h
  have hgrows₁ := (adds_classIndex m.owner).grows howner
  have hgrows₂ := (adds_nameAndTypeIndex m.name m.descriptor).grows hnat
  have hgrows₃ := (adds_internM (husable i j)).grows hentry
  refine ⟨i, j, get_of_internM (husable i j) (hgrows₂.small (hgrows₁.small hsmall)) hentry, ?_⟩
  refine bind_eq_ok.mpr ⟨(m.name, m.descriptor),
    hgrows₃.nameAndType (nameAndType_of_nameAndTypeIndex (hgrows₁.small hsmall) hnat), ?_⟩
  exact bind_eq_ok.mpr ⟨m.owner,
    (hgrows₂.trans hgrows₃).className (className_of_classIndex hsmall howner), rfl⟩

theorem member_of_fieldIndex {m : MemberRef} (hsmall : pool.size ≤ 65535)
    (h : pool.edit (fieldIndex m) = (.ok index, pool')) : pool'.member index = .ok (m, false) := by
  obtain ⟨i, j, hget, hmember⟩ := get_of_memberIndex (f := .fieldRef) nofun hsmall h
  exact bind_eq_ok.mpr ⟨_, hget, bind_eq_ok.mpr ⟨m, hmember, rfl⟩⟩

theorem member_of_methodIndex {m : MemberRef} {interface : Bool} (hsmall : pool.size ≤ 65535)
    (h : pool.edit (methodIndex m interface) = (.ok index, pool')) :
    pool'.member index = .ok (m, interface) := by
  obtain ⟨i, j, hget, hmember⟩ := get_of_memberIndex
    (f := fun i j => if interface then .interfaceMethodRef i j else .methodRef i j)
    (by intro i j; split_ifs <;> exact nofun) hsmall h
  cases interface with
  | false => exact bind_eq_ok.mpr ⟨_, hget, bind_eq_ok.mpr ⟨m, hmember, rfl⟩⟩
  | true => exact bind_eq_ok.mpr ⟨_, hget, bind_eq_ok.mpr ⟨m, hmember, rfl⟩⟩

theorem loadable_of_constantIndex {k : Constant} (hsmall : pool.size ≤ 65535)
    (h : pool.edit (constantIndex k) = (.ok index, pool')) : pool'.loadable index = .ok k := by
  cases k with
  | int value => exact bind_eq_ok.mpr ⟨_, get_of_internM (e := .int value) nofun hsmall h, rfl⟩
  | float bits => exact bind_eq_ok.mpr ⟨_, get_of_internM (e := .float bits) nofun hsmall h, rfl⟩
  | long value => exact bind_eq_ok.mpr ⟨_, get_of_internM (e := .long value) nofun hsmall h, rfl⟩
  | double bits => exact bind_eq_ok.mpr ⟨_, get_of_internM (e := .double bits) nofun hsmall h, rfl⟩
  | string text =>
    obtain ⟨i, hget, htext⟩ := get_of_utf8Index_bind (f := .string) nofun hsmall h
    exact bind_eq_ok.mpr ⟨_, hget, bind_eq_ok.mpr ⟨text, htext, rfl⟩⟩
  | classRef name =>
    obtain ⟨i, hget, htext⟩ := get_of_utf8Index_bind (f := .classRef) nofun hsmall h
    exact bind_eq_ok.mpr ⟨_, hget, bind_eq_ok.mpr ⟨name, htext, rfl⟩⟩
  | methodType descriptor =>
    obtain ⟨i, hget, htext⟩ := get_of_utf8Index_bind (f := .methodType) nofun hsmall h
    exact bind_eq_ok.mpr ⟨_, hget, bind_eq_ok.mpr ⟨descriptor, htext, rfl⟩⟩
  | methodHandle => cases h
  | dynamic descriptor => cases h

end

/-! ## What is there already -/

/-- Steps in a row that leave the pool as it is. -/
theorem edit_mapM_same {α β : Type} {pool : ConstantPool} {f : α → Edit β} {items : List α}
    {results : List β} (h : List.Forall₂ (fun a b => pool.edit (f a) = (.ok b, pool)) items results) :
    pool.edit (items.mapM f) = (.ok results, pool) := by
  induction h with
  | nil => rfl
  | cons hfirst _ ih =>
    rw [List.mapM_cons]
    exact edit_bind_eq_ok.mpr ⟨_, pool, hfirst, edit_bind_eq_ok.mpr ⟨_, pool, ih, rfl⟩⟩

/-- An entry that is there is found, and nothing is added. -/
theorem edit_internM_of_mem {pool : ConstantPool} {e : Entry} {i : Nat} (h : pool.entries[i]? = some e) :
    ∃ index, pool.edit (internM e) = (.ok index, pool) := by
  obtain ⟨hi, rfl⟩ := Array.getElem?_eq_some_iff.mp h
  have hsome : (pool.entries.findIdx? (· = pool.entries[i])).isSome = true := by
    rw [Array.findIdx?_isSome, Array.any_eq_true]
    exact ⟨i, hi, by simp⟩
  obtain ⟨found, hfound⟩ := Option.isSome_iff_exists.mp hsome
  refine ⟨found.toUInt16, edit_internM_eq_ok.mpr ?_⟩
  rw [intern, hfound]

/-- An entry with an index that was there already was found, and nothing was added. -/
theorem internM_same {pool pool' : ConstantPool} {e : Entry} {index : UInt16}
    (h : pool.edit (internM e) = (.ok index, pool')) (hold : index.toNat < pool.size) : pool' = pool := by
  have hintern := edit_internM_eq_ok.mp h
  unfold intern at hintern
  cases hfound : pool.entries.findIdx? (· = e) with
  | some found =>
    rw [hfound] at hintern
    cases hintern
    rfl
  | none =>
    rw [hfound] at hintern
    dsimp only at hintern
    split_ifs at hintern with hfull
    cases hintern
    rw [Nat.toUInt16_eq, UInt16.toNat_ofNat', Nat.mod_eq_of_lt (by omega)] at hold
    exact absurd hold (Nat.lt_irrefl _)

/-- The index of a class that is named already was there, or the pool has grown. -/
theorem classIndex_same {pool pool' : ConstantPool} {name : String} {i index : UInt16}
    (hname : pool.className i = .ok name) (h : pool.edit (classIndex name) = (.ok index, pool'))
    (hold : index.toNat < pool.size) : pool' = pool := by
  obtain ⟨e, _, hname⟩ := bind_eq_ok.mp hname
  split at hname
  · rename_i text
    obtain ⟨j, hj⟩ := edit_internM_of_mem (utf8_eq_ok.mp hname)
    obtain ⟨j', pool₁, htext, hentry⟩ := edit_bind_eq_ok.mp h
    obtain ⟨_, rfl⟩ := Prod.mk.inj (htext.symm.trans hj)
    exact internM_same hentry hold
  · cases hname

theorem className_lt {pool : ConstantPool} {index : UInt16} {name : String}
    (h : pool.className index = .ok name) : index.toNat < pool.size := by
  obtain ⟨e, he, _⟩ := bind_eq_ok.mp h
  exact (Array.getElem?_eq_some_iff.mp (get_eq_ok.mp he).1).1

end DirectCall.ConstantPool
