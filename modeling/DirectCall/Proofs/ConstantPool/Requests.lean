import DirectCall.Proofs.ConstantPool.Named

/-!
# Asking a pool for indices

A pool may be asked for indices in any order, and some requests may fail half-way. What was there stays
where it is, every index that was handed out leads to what it was asked for, and asking again gives the
same index and adds nothing (`answer_faithful`). The last is a property of the steps on their own: once
they have succeeded, they go on giving the same result while the pool grows (`Edit.Repeats`).
-/

namespace DirectCall.ConstantPool

/-! ## Steps that repeat themselves -/

/-- Once the steps have succeeded, they find everything there and give the same result, however much the
pool has grown since. -/
def Edit.Repeats {α : Type} (steps : Edit α) : Prop :=
  ∀ (pool after later : ConstantPool) (a : α), pool.edit steps = (.ok a, after) → after.Grows later →
    later.edit steps = (.ok a, later)

theorem Edit.Repeats.bind {α β : Type} {steps : Edit α} {next : α → Edit β} (h : steps.Repeats)
    (hadds : ∀ a, (next a).Adds) (hnext : ∀ a, (next a).Repeats) : Edit.Repeats (steps >>= next) := by
  intro pool after later b hrun hgrows
  obtain ⟨a, middle, hfirst, hrest⟩ := edit_bind_eq_ok.mp hrun
  have hmiddle : middle.Grows later := ((hadds a).grows hrest).trans hgrows
  exact edit_bind_eq_ok.mpr ⟨a, later, h _ _ _ _ hfirst hmiddle, hnext a _ _ _ _ hrest hgrows⟩

theorem repeats_throw {α : Type} (fault : Fault) : Edit.Repeats (throw fault : Edit α) := by
  intro pool after later a hrun
  cases hrun

/-- The first slot that holds an entry stays the first one. -/
theorem Grows.findIdx? {pool pool' : ConstantPool} (h : pool.Grows pool') {e : Entry} {i : Nat}
    (hfound : pool.entries.findIdx? (· = e) = some i) : pool'.entries.findIdx? (· = e) = some i := by
  obtain ⟨⟨es, _, heq⟩, _⟩ := h
  have hentries : pool'.entries = pool.entries ++ (es.flatMap Entry.slots).toArray := by
    apply Array.toList_inj.mp
    rw [heq, Array.toList_append]
  rw [hentries, Array.findIdx?_append, hfound]
  rfl

/-- The index of an entry is that of the first slot that holds it, also if the entry was added. -/
theorem findIdx?_of_intern {pool pool' : ConstantPool} {e : Entry} {index : UInt16}
    (h : pool.intern e = .ok (index, pool')) :
    ∃ i : Nat, pool'.entries.findIdx? (· = e) = some i ∧ index = i.toUInt16 := by
  unfold intern at h
  split at h
  · rename_i i hfound
    cases h
    exact ⟨i, hfound, rfl⟩
  · rename_i hnone
    dsimp only at h
    split_ifs at h
    cases h
    refine ⟨pool.size, ?_, rfl⟩
    rw [Array.findIdx?_append, hnone, Entry.slots_eq, List.findIdx?_toArray, List.findIdx?_cons]
    simp [size]

theorem repeats_internM (e : Entry) : (internM e).Repeats := by
  intro pool after later index hrun hgrows
  obtain ⟨i, hfound, rfl⟩ := findIdx?_of_intern (edit_internM_eq_ok.mp hrun)
  refine edit_internM_eq_ok.mpr ?_
  rw [intern, hgrows.findIdx? hfound]

theorem repeats_utf8Index (text : String) : (utf8Index text).Repeats := repeats_internM _

theorem repeats_classIndex (name : String) : (classIndex name).Repeats :=
  (repeats_utf8Index name).bind (fun _ => adds_internM nofun) fun _ => repeats_internM _

theorem repeats_stringIndex (text : String) : (stringIndex text).Repeats :=
  (repeats_utf8Index text).bind (fun _ => adds_internM nofun) fun _ => repeats_internM _

theorem repeats_nameAndTypeIndex (name descriptor : String) : (nameAndTypeIndex name descriptor).Repeats :=
  (repeats_utf8Index name).bind (fun _ => (adds_utf8Index descriptor).bind fun _ => adds_internM nofun)
    fun _ => (repeats_utf8Index descriptor).bind (fun _ => adds_internM nofun) fun _ => repeats_internM _

/-- An entry for a member is added behind its class and its name and type. -/
theorem repeats_memberIndex (m : MemberRef) {f : UInt16 → UInt16 → Entry}
    (husable : ∀ i j, f i j ≠ .unusable) :
    Edit.Repeats (classIndex m.owner >>= fun i => nameAndTypeIndex m.name m.descriptor >>= fun j =>
      internM (f i j)) :=
  (repeats_classIndex m.owner).bind
    (fun i => (adds_nameAndTypeIndex m.name m.descriptor).bind fun j => adds_internM (husable i j))
    fun i => (repeats_nameAndTypeIndex m.name m.descriptor).bind (fun j => adds_internM (husable i j))
      fun j => repeats_internM (f i j)

theorem repeats_methodIndex (m : MemberRef) (interface : Bool) : (methodIndex m interface).Repeats := by
  refine repeats_memberIndex m (f := fun i j => if interface then .interfaceMethodRef i j
    else .methodRef i j) fun i j => ?_
  split_ifs <;> exact nofun

theorem repeats_fieldIndex (m : MemberRef) : (fieldIndex m).Repeats :=
  repeats_memberIndex m (f := .fieldRef) nofun

theorem repeats_constantIndex (k : Constant) : (constantIndex k).Repeats := by
  cases k with
  | int value => exact repeats_internM _
  | float bits => exact repeats_internM _
  | long value => exact repeats_internM _
  | double bits => exact repeats_internM _
  | string text => exact repeats_stringIndex text
  | classRef name => exact repeats_classIndex name
  | methodType descriptor =>
    exact (repeats_utf8Index descriptor).bind (fun _ => adds_internM nofun) fun _ => repeats_internM _
  | methodHandle => exact repeats_throw _
  | dynamic descriptor => exact repeats_throw _

/-! ## Requests -/

/-- What a pool can be asked an index for. -/
inductive Request where
  | utf8 (text : String)
  | classRef (name : String)
  | string (text : String)
  | nameAndType (name descriptor : String)
  | method (m : MemberRef) (interface : Bool)
  | field (m : MemberRef)
  | constant (k : Constant)

namespace Request

/-- The steps that find or make the index. -/
def index : Request → Edit UInt16
  | utf8 text => utf8Index text
  | classRef name => classIndex name
  | string text => stringIndex text
  | nameAndType name descriptor => nameAndTypeIndex name descriptor
  | method m interface => methodIndex m interface
  | field m => fieldIndex m
  | constant k => constantIndex k

/-- The index leads to what was asked for. -/
def ReadsBack (pool : ConstantPool) (index : UInt16) : Request → Prop
  | utf8 text => pool.utf8 index = .ok text
  | classRef name => pool.className index = .ok name
  | string text => pool.loadable index = .ok (.string text)
  | nameAndType name descriptor => pool.nameAndType index = .ok (name, descriptor)
  | method m interface => pool.member index = .ok (m, interface)
  | field m => pool.member index = .ok (m, false)
  | constant k => pool.loadable index = .ok k

theorem adds_index (request : Request) : request.index.Adds := by
  cases request with
  | utf8 text => exact adds_utf8Index text
  | classRef name => exact adds_classIndex name
  | string text => exact adds_stringIndex text
  | nameAndType name descriptor => exact adds_nameAndTypeIndex name descriptor
  | method m interface => exact adds_methodIndex m interface
  | field m => exact adds_fieldIndex m
  | constant k => exact adds_constantIndex k

theorem repeats_index (request : Request) : request.index.Repeats := by
  cases request with
  | utf8 text => exact repeats_utf8Index text
  | classRef name => exact repeats_classIndex name
  | string text => exact repeats_stringIndex text
  | nameAndType name descriptor => exact repeats_nameAndTypeIndex name descriptor
  | method m interface => exact repeats_methodIndex m interface
  | field m => exact repeats_fieldIndex m
  | constant k => exact repeats_constantIndex k

theorem readsBack_of_index {pool pool' : ConstantPool} {request : Request} {index : UInt16}
    (hsmall : pool.size ≤ 65535) (h : pool.edit request.index = (.ok index, pool')) :
    request.ReadsBack pool' index := by
  cases request with
  | utf8 text => exact utf8_of_utf8Index hsmall h
  | classRef name => exact className_of_classIndex hsmall h
  | string text => exact loadable_of_constantIndex (k := .string text) hsmall h
  | nameAndType name descriptor => exact nameAndType_of_nameAndTypeIndex hsmall h
  | method m interface => exact member_of_methodIndex hsmall h
  | field m => exact member_of_fieldIndex hsmall h
  | constant k => exact loadable_of_constantIndex hsmall h

theorem ReadsBack.grow {pool pool' : ConstantPool} (hgrows : pool.Grows pool') {request : Request}
    {index : UInt16} (h : request.ReadsBack pool index) : request.ReadsBack pool' index := by
  cases request with
  | utf8 text => exact hgrows.utf8 h
  | classRef name => exact hgrows.className h
  | string text => exact hgrows.loadable h
  | nameAndType name descriptor => exact hgrows.nameAndType h
  | method m interface => exact hgrows.member h
  | field m => exact hgrows.member h
  | constant k => exact hgrows.loadable h

/-- Whoever has the result of a request can go on using it: the index leads to what was asked for, and it
is the one that asking again gives. -/
def Holds (pool : ConstantPool) (request : Request) (result : Except Fault UInt16) : Prop :=
  ∀ index, result = .ok index →
    request.ReadsBack pool index ∧ pool.edit request.index = (.ok index, pool)

/-- A result holds in every pool that grows from the one the request left. -/
theorem holds_of_index {pool pool' later : ConstantPool} {request : Request}
    {result : Except Fault UInt16} (hsmall : pool.size ≤ 65535)
    (h : pool.edit request.index = (result, pool')) (hgrows : pool'.Grows later) :
    request.Holds later result := by
  rintro index rfl
  exact ⟨(readsBack_of_index hsmall h).grow hgrows, request.repeats_index _ _ _ _ h hgrows⟩

end Request

/-! ## One request after the other -/

/-- A pool as it comes about: empty or read, and then asked for indices. -/
inductive Obtained : ConstantPool → Prop where
  | empty : Obtained empty
  | read {c c' : Bytes.Cursor} {pool : ConstantPool} (h : read c = .ok (pool, c')) : Obtained pool
  | asked {pool : ConstantPool} (h : Obtained pool) (request : Request) :
    Obtained (pool.edit request.index).2

theorem Obtained.laidOut {pool : ConstantPool} (h : Obtained pool) : pool.LaidOut := by
  induction h with
  | empty => exact laidOut_empty
  | read h => exact read_laidOut h
  | asked _ request ih => exact (request.adds_index _).laidOut ih

/-- The results of requests in a row, and the pool after them. A request that fails leaves what it has
added so far. -/
def answer (pool : ConstantPool) : List Request → List (Except Fault UInt16) × ConstantPool
  | [] => ([], pool)
  | request :: rest =>
    let (result, pool) := pool.edit request.index
    let (results, pool) := pool.answer rest
    (result :: results, pool)

theorem answer_grows (pool : ConstantPool) (requests : List Request) :
    pool.Grows (pool.answer requests).2 := by
  induction requests generalizing pool with
  | nil => exact .refl pool
  | cons request rest ih => exact (request.adds_index pool).trans (ih _)

theorem answer_holds {pool : ConstantPool} (hsmall : pool.size ≤ 65535) (requests : List Request) :
    List.Forall₂ (Request.Holds (pool.answer requests).2) requests (pool.answer requests).1 := by
  induction requests generalizing pool with
  | nil => exact .nil
  | cons request rest ih =>
    have hgrows := request.adds_index pool
    exact .cons (Request.holds_of_index hsmall rfl (answer_grows _ rest)) (ih (hgrows.small hsmall))

/-- A method that an entry refers to is still referred to. -/
theorem Grows.references {pool pool' : ConstantPool} (h : pool.Grows pool') {owner name : String}
    (href : pool.references owner name) : pool'.references owner name := by
  obtain ⟨i, hi, hentry⟩ := Array.any_eq_true.mp href
  obtain ⟨hi', hslot⟩ := Array.getElem?_eq_some_iff.mp (h.slot (Array.getElem?_eq_getElem hi))
  refine Array.any_eq_true.mpr ⟨i, hi', ?_⟩
  rw [hslot]
  revert hentry
  unfold refersTo
  split
  · rename_i class_ nat heq
    cases hmember : pool.memberAt class_ nat with
    | ok m =>
      rw [h.memberAt hmember]
      exact id
    | error fault => exact nofun
  · exact nofun

/-- What holds of a pool and the results after requests to an earlier one: nothing has moved, the slots
are in order and all within reach, each result holds, and no look-up has changed its answer. -/
structure Faithful (pool : ConstantPool) (requests : List Request)
    (results : List (Except Fault UInt16)) (after : ConstantPool) : Prop where
  stays : ∀ (i : Nat) (e : Entry), pool.entries[i]? = some e → after.entries[i]? = some e
  proper : after.ProperSlots
  small : after.size ≤ 65535
  results : List.Forall₂ (Request.Holds after) requests results
  keeps : pool.Keeps after
  references : ∀ owner name, pool.references owner name → after.references owner name

/-- Requests to a pool are answered faithfully, in whatever order they come and whichever of them fail. -/
theorem answer_faithful {pool : ConstantPool} (h : Obtained pool) (requests : List Request) :
    Faithful pool requests (pool.answer requests).1 (pool.answer requests).2 := by
  have hgrows := answer_grows pool requests
  obtain ⟨hproper, hsmall⟩ := laidOut_iff.mp (hgrows.laidOut h.laidOut)
  exact {
    stays := fun i e he => hgrows.slot he
    proper := hproper
    small := hsmall
    results := answer_holds h.laidOut.small requests
    keeps := hgrows.keeps
    references := fun owner name => hgrows.references }

/-- A double, a method of an interface, its class, a handle, and the double once more. -/
def mixedRequests : List Request :=
  [.constant (.double 0x7FF8000000000001), .method ⟨"A", "f", "()V"⟩ true, .classRef "A",
    .constant .methodHandle, .string "f", .constant (.double 0x7FF8000000000001)]

theorem answer_faithful_mixed : Obtained empty ∧
    (empty.answer mixedRequests).1.map Except.toOption =
      [some 1, some 8, some 4, none, some 9, some 1] ∧
    Faithful empty mixedRequests (empty.answer mixedRequests).1 (empty.answer mixedRequests).2 :=
  ⟨.empty, by decide +kernel, answer_faithful .empty mixedRequests⟩

end DirectCall.ConstantPool
