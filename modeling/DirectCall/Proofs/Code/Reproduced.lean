import DirectCall.Proofs.Code.Handlers
import DirectCall.Proofs.Code.Shortest

/-!
# Code is reproduced

Code in shortest spellings that is decoded and encoded again is the same code, with the handlers that
cover bytes, in exactly the cases that `Body.encode_decode_iff` names. The widths of jumps are found anew
(`Body.KeepsWidths`); without long jumps they always are what they were (`Body.keepsWidths_of_short`).
-/

namespace DirectCall

open Bytes ConstantPool

namespace Code

variable {pool : ConstantPool}

/-- In shortest spellings, each instruction has its bytes at its offset, and the next one follows. -/
theorem shortest_getElem {insns : List Located} {code : List UInt8} (h : Row (IsShortest pool) 0 insns code)
    {i : Nat} (hi : i < insns.length) : ∃ spelling,
      IsShortest pool insns[i].offset spelling insns[i] ∧
      offsetAt insns code.length (i + 1) = insns[i].offset + spelling.length ∧
      code.drop insns[i].offset = spelling ++ code.drop (offsetAt insns code.length (i + 1)) := by
  obtain ⟨front, spelling, back, hcode, hshortest, hnext⟩ :=
    h.getElem (fun _ _ _ hshortest => hshortest.spells.offset_eq) hi
  rw [Nat.zero_add] at hshortest hnext
  rw [Nat.zero_add] at hnext
  have hoffset := hshortest.spells.offset_eq
  rw [← hoffset] at hshortest hnext
  refine ⟨spelling, hshortest, hnext, ?_⟩
  rw [hnext, hoffset, hcode, List.drop_left' rfl, ← List.append_assoc, List.drop_left' (by simp)]

end Code

/-! ## Writing what was read -/

/-- Only jumps depend on their width. -/
theorem Insn.write_of_not_jump {insn : Insn} (h : ∀ code id, insn ≠ .jump code id) (offset : Nat)
    (index : UInt16) (isLong isLong' : Bool) (distance : NodeId → Except Fault Int) :
    insn.write offset index isLong distance = insn.write offset index isLong' distance := by
  cases insn with
  | jump code id => exact absurd rfl (h code id)
  | _ => rfl

namespace Code

/-- A list that stands for code in shortest spellings, none of which loads a dynamic constant of two
slots. -/
structure Reproducible (pool : ConstantPool) (insns : List Located) (code : List UInt8)
    (references : List Nat) (labels : Labels) (list : InsnList) : Prop
    extends Linked insns code.length references labels list where
  row : Row (IsShortest pool) 0 insns code
  narrow : ∀ l ∈ insns, ∀ index d, l.insn = .ldc index (.dynamic d) → Descriptor.isWide d = false

namespace Reproducible

variable {pool : ConstantPool} {insns : List Located} {code : List UInt8} {references : List Nat}
  {labels : Labels} {list : InsnList}

/-- The bytes at the offset of an instruction are what is written of it there. -/
theorem write (h : Reproducible pool insns code references labels list) {p : Nat} (hp : p < list.size)
    (hreal : (list.insnAt p).isReal = true) {offset : Nat}
    (hoffset : offset = offsetAt insns code.length (list.ahead p)) {isLong : Bool}
    (hlong : ∀ op id, list.insnAt p = .jump op id → isLong = isLongJump (code.drop offset))
    {distance : NodeId → Except Fault Int}
    (hdistance : ∀ t ∈ references, distance (labels.find t) = .ok ((t : Int) - offset)) :
    ∃ spelling, (list.insnAt p).write offset (list.insnAt p).storedIndex isLong distance = .ok spelling ∧
      offsetAt insns code.length (list.ahead p + 1) = offset + spelling.length ∧
      code.drop offset = spelling ++ code.drop (offsetAt insns code.length (list.ahead p + 1)) := by
  obtain ⟨hi, hinsn⟩ := h.getElem hp hreal
  rw [offsetAt_getElem hi] at hoffset
  subst hoffset
  obtain ⟨spelling, hshortest, hnext, hdrop⟩ := shortest_getElem h.row hi
  have hmem := List.getElem_mem hi
  have hwrite := hshortest.write_link (fun index d => h.narrow _ hmem index d) labels
    fun t ht => hdistance t (h.targets _ hmem t ht)
  refine ⟨spelling, ?_, hnext, hdrop⟩
  have hindex : (list.insnAt p).storedIndex = insns[list.ahead p].insn.storedIndex := by
    rw [hinsn, ← Insn.storedIndex_bare, bare_link, Insn.storedIndex_bare]
  rw [hindex, ← hwrite, ← hinsn]
  by_cases hjump : ∃ op id, list.insnAt p = .jump op id
  · obtain ⟨op, id, hjump⟩ := hjump
    rw [hlong op id hjump, hdrop, isLongJump_append hshortest.ne_nil]
  · exact Insn.write_of_not_jump (fun op id heq => hjump ⟨op, id, heq⟩) _ _ _ _ _

/-- Distances by the numbers that nodes lead to. -/
def distanceByNumber (insns : List Located) (code : List UInt8) (list : InsnList) (offset : Nat)
    (id : NodeId) : Except Fault Int :=
  match list.leadsTo? id with
  | some number => .ok ((offsetAt insns code.length number : Int) - offset)
  | none => .error .lostLabel

theorem distanceByNumber_find (h : Reproducible pool insns code references labels list) (offset : Nat) :
    ∀ t ∈ references,
      distanceByNumber insns code list offset (labels.find t) = .ok ((t : Int) - offset) := by
  intro t ht
  obtain ⟨number, hleads, hnumber⟩ := h.leads t ht
  rw [distanceByNumber, hleads, ← hnumber]

theorem fits (h : Reproducible pool insns code references labels list) {p : Nat} (hp : p < list.size)
    (hreal : (list.insnAt p).isReal = true) : (list.insnAt p).Fits := by
  obtain ⟨hi, hinsn⟩ := h.getElem hp hreal
  obtain ⟨spelling, hshortest, _⟩ := shortest_getElem h.row hi
  rw [hinsn]
  exact (hshortest.spells.fits_names labels).1

/-- Offsets of the layout are those that the instructions were read at, if long jumps are as they were. -/
theorem offsets_eq (h : Reproducible pool insns code references labels list) {long : Layout.LongJumps}
    (hlong : ∀ p < list.size, ∀ op id, list.insnAt p = .jump op id →
      ((Layout.stored list).offsets long).getD p 0 = offsetAt insns code.length (list.ahead p) →
      long.getD p false = isLongJump (code.drop (((Layout.stored list).offsets long).getD p 0))) {p : Nat}
    (hp : p ≤ list.size) :
    ((Layout.stored list).offsets long).getD p 0 = offsetAt insns code.length (list.ahead p) := by
  induction p with
  | zero =>
    have hzero := h.row.offsetAt_zero fun _ _ _ hshortest => hshortest.spells.offset_eq
    rw [Nat.zero_add] at hzero
    rw [Layout.offsets_zero, InsnList.ahead, List.take_zero, List.countP_nil, hzero]
  | succ p ih =>
    have hoffset := ih (Nat.le_of_succ_le hp)
    rw [Layout.offsets_succ (l := Layout.stored list) long hp, InsnList.ahead_succ hp]
    cases hreal : (list.insnAt p).isReal with
    | false =>
      rw [Layout.sizeAt_of_not_isReal (l := Layout.stored list) hreal, Nat.add_zero, hoffset]
      rfl
    | true =>
      obtain ⟨spelling, hwrite, hnext, _⟩ := h.write hp hreal hoffset
        (fun op id hjump => hlong p hp op id hjump hoffset)
        (h.distanceByNumber_find (((Layout.stored list).offsets long).getD p 0))
      have hlength := Insn.length_write (h.fits hp hreal).sized hwrite
      rw [if_pos rfl, hnext, hlength, Layout.sizeAt, Layout.getD_stored hp]
      rfl

/-- A layout whose long jumps are those of the code. -/
structure Keeps (code : List UInt8) (list : InsnList) (long : Layout.LongJumps) (offsets : Array Nat) :
    Prop where
  offsets_eq : offsets = (Layout.stored list).offsets long
  long_eq : ∀ p < list.size, ∀ op id, list.insnAt p = .jump op id →
    long.getD p false = isLongJump (code.drop (offsets.getD p 0))

variable {long : Layout.LongJumps} {offsets : Array Nat}

theorem getD_offsets (h : Reproducible pool insns code references labels list)
    (hkeeps : Keeps code list long offsets) {p : Nat} (hp : p ≤ list.size) :
    offsets.getD p 0 = offsetAt insns code.length (list.ahead p) := by
  have hlong := hkeeps.long_eq
  rw [hkeeps.offsets_eq] at hlong ⊢
  exact h.offsets_eq (fun p hp op id hjump _ => hlong p hp op id hjump) hp

/-- The label of an offset stands for that offset again. -/
theorem offsetOf_find (h : Reproducible pool insns code references labels list)
    (hkeeps : Keeps code list long offsets) {t : Nat} (ht : t ∈ references) :
    (Layout.stored list).offsetOf offsets (labels.find t) = .ok t := by
  obtain ⟨number, hleads, hnumber⟩ := h.leads t ht
  obtain ⟨q, hq, rfl⟩ := Option.map_eq_some_iff.mp hleads
  have hle := Layout.le_size_of_find? (l := Layout.stored list) rfl hq
  have hfind : (Layout.stored list).positions.find? (labels.find t) = some q := hq
  rw [Layout.offsetOf, hfind]
  dsimp only
  rw [h.getD_offsets hkeeps hle, hnumber]

/-- What is written from a position on is the code from its offset on. -/
theorem concat_writeAt (h : Reproducible pool insns code references labels list)
    (hkeeps : Keeps code list long offsets) {count p : Nat} (hp : p + count = list.size) :
    concat ((List.range' p count).map ((Layout.stored list).writeAt long offsets)) =
      .ok (code.drop (offsets.getD p 0)) := by
  induction count generalizing p with
  | zero =>
    obtain rfl : p = list.size := hp
    rw [h.getD_offsets hkeeps (Nat.le_refl _), h.ahead_size, List.drop_length]
    rfl
  | succ count ih =>
    have hlt : p < list.size := by omega
    have hrest := @ih (p + 1) (by omega)
    have hoffset := h.getD_offsets hkeeps (Nat.le_of_lt hlt)
    rw [h.getD_offsets hkeeps hlt, InsnList.ahead_succ hlt] at hrest
    rw [List.range'_succ, List.map_cons]
    cases hreal : (list.insnAt p).isReal with
    | false =>
      have hwrite : (Layout.stored list).writeAt long offsets p = .ok [] := by
        unfold Layout.writeAt
        change (list.insnAt p).write _ _ _ _ = _
        cases hinsn : list.insnAt p with
        | label => rfl
        | line number => rfl
        | _ =>
          rw [hinsn] at hreal
          cases hreal
      rw [hreal] at hrest
      rw [hwrite, hoffset]
      exact concat_cons hrest
    | true =>
      have hdistance : ∀ t ∈ references, (Layout.stored list).displacement offsets (offsets.getD p 0)
          (labels.find t) = .ok ((t : Int) - (offsets.getD p 0 : Nat)) := by
        intro t ht
        rw [Layout.displacement, h.offsetOf_find hkeeps ht]
        rfl
      obtain ⟨spelling, hwrite, _, hdrop⟩ := h.write hlt hreal hoffset (hkeeps.long_eq p hlt) hdistance
      have hat : (Layout.stored list).writeAt long offsets p = .ok spelling := by
        unfold Layout.writeAt
        rw [Layout.getD_stored hlt]
        exact hwrite
      rw [hreal, if_pos rfl] at hrest
      rw [hat, hdrop]
      exact concat_cons hrest

/-! ### Code without long jumps -/

theorem isLongJump_of_jump (h : Reproducible pool insns code references labels list)
    (hshort : ∀ l ∈ insns, isLongJump (code.drop l.offset) = false) {p : Nat} (hp : p < list.size) {op : UInt8}
    {id : NodeId} (hjump : list.insnAt p = .jump op id) :
    isLongJump (code.drop (offsetAt insns code.length (list.ahead p))) = false := by
  obtain ⟨hi, -⟩ := h.getElem hp (by rw [hjump]; rfl)
  rw [offsetAt_getElem hi]
  exact hshort _ (List.getElem_mem hi)

theorem keeps_noneLong (h : Reproducible pool insns code references labels list)
    (hshort : ∀ l ∈ insns, isLongJump (code.drop l.offset) = false) :
    Keeps code list (Layout.stored list).noneLong
      ((Layout.stored list).offsets (Layout.stored list).noneLong) := by
  have hoffsets : ∀ p ≤ list.size,
      ((Layout.stored list).offsets (Layout.stored list).noneLong).getD p 0 =
        offsetAt insns code.length (list.ahead p) := by
    refine fun p hp => h.offsets_eq (fun p hp op id hjump hoffset => ?_) hp
    rw [hoffset, h.isLongJump_of_jump hshort hp hjump, Layout.getD_noneLong]
  refine ⟨rfl, fun p hp op id hjump => ?_⟩
  rw [hoffsets p (Nat.le_of_lt hp), h.isLongJump_of_jump hshort hp hjump, Layout.getD_noneLong]

/-- Without long jumps, all jumps of the layout reach their targets. -/
theorem settle_eq (h : Reproducible pool insns code references labels list)
    (hsmall : code.length ≤ 65535) (hshort : ∀ l ∈ insns, isLongJump (code.drop l.offset) = false) :
    (Layout.stored list).settle = .ok ((Layout.stored list).noneLong,
      (Layout.stored list).offsets (Layout.stored list).noneLong) := by
  have hkeeps := h.keeps_noneLong hshort
  refine Layout.settle_of_reaching ?_ fun p (hp : p < list.size) => ?_
  · rw [show (Layout.stored list).size = list.size from rfl, h.getD_offsets hkeeps (Nat.le_refl _), h.ahead_size]
    exact hsmall
  · unfold Layout.mustGrow
    rw [show (Layout.stored list).list = list from rfl]
    cases hinsn : list.insnAt p with
    | jump op id =>
      obtain ⟨hi, hlink⟩ := h.getElem hp (by rw [hinsn]; rfl)
      have hmem := List.getElem_mem hi
      obtain ⟨spelling, hspelling, -, hdrop⟩ := shortest_getElem h.row hi
      have hlong := hshort _ hmem
      rw [hdrop, isLongJump_append hspelling.ne_nil] at hlong
      obtain ⟨t, ht, rfl, hreach⟩ := hspelling.spells.isShort_of_link hlong labels (hlink.symm.trans hinsn)
      dsimp only
      rw [Layout.getD_noneLong, if_neg Bool.false_ne_true, h.getD_offsets hkeeps (Nat.le_of_lt hp),
        offsetAt_getElem hi, Layout.displacement, h.offsetOf_find hkeeps (h.targets _ hmem t ht)]
      refine bind_eq_ok.mpr ⟨_, rfl, ?_⟩
      rw [if_pos hreach]
      rfl
    | _ => rfl

end Reproducible

end Code

namespace Body

open Code

variable {pool : ConstantPool} {code : CodeAttribute} {body : Body} {insns : List Located}

/-- Laid out as it is, the list has long jumps where the code has them. -/
def KeepsWidths (code : List UInt8) (body : Body) : Prop :=
  ∃ long offsets, (Layout.stored body.insns).settle = .ok (long, offsets) ∧
    ∀ p < body.insns.size, ∀ op id, body.insns.insnAt p = .jump op id →
      long.getD p false = isLongJump (code.drop (offsets.getD p 0))

/-- Code that fits and has no long jumps keeps its widths. -/
theorem keepsWidths_of_short (hdecode : Body.decode pool code = .ok body)
    (hshortest : Row (IsShortest pool) 0 insns code.code)
    (hnarrow : ∀ l ∈ insns, ∀ index d, l.insn = .ldc index (.dynamic d) → Descriptor.isWide d = false)
    (hsmall : code.code.length ≤ 65535)
    (hshort : ∀ l ∈ insns, isLongJump (code.code.drop l.offset) = false) : body.KeepsWidths code.code := by
  have hlocated : Code.located pool code.code = .ok insns :=
    Code.located_iff.mpr (hshortest.imp fun _ _ _ h => h.spells)
  obtain ⟨tables, labels, hlinked, -, -⟩ := Body.linked_of_decode hdecode hlocated
  have hreproducible : Reproducible pool insns code.code _ labels body.insns :=
    ⟨hlinked, hshortest, hnarrow⟩
  exact ⟨_, _, hreproducible.settle_eq hsmall hshort, (hreproducible.keeps_noneLong hshort).long_eq⟩

/-- What is encoded is known if the layout, the code and the handlers are. -/
theorem encode_eq_ok {l : Layout} {long : Layout.LongJumps} {offsets : Array Nat} {bytes : List UInt8}
    {founds : List (Option HandlerRange)} {ranges : List (Option (LocalEntry × UInt16 × UInt16))}
    {pool' : ConstantPool} (hlayout : pool.edit (Layout.ofList body.insns) = (.ok l, pool))
    (hsettle : l.settle = .ok (long, offsets))
    (hcode : concat ((List.range l.size).map (l.writeAt long offsets)) = .ok bytes)
    (hhandlers : pool.edit (body.regions.mapM (l.handler? offsets)) = (.ok founds, pool'))
    (hranges : body.locals.mapM (l.localRange? offsets) = .ok ranges) :
    pool.edit body.encode = (.ok ⟨bytes, offsets, founds.filterMap id,
      (List.range l.size).filterMap (l.line? offsets), ranges.filterMap id⟩, pool') :=
  edit_bind_eq_ok.mpr ⟨l, pool, hlayout, edit_bind_eq_ok.mpr ⟨(long, offsets), pool,
    edit_liftM_eq_ok.mpr ⟨hsettle, rfl⟩, edit_bind_eq_ok.mpr ⟨bytes, pool,
    edit_liftM_eq_ok.mpr ⟨hcode, rfl⟩, edit_bind_eq_ok.mpr ⟨founds, pool', hhandlers,
    edit_bind_eq_ok.mpr ⟨ranges, pool', congrArg (·, pool') hranges, rfl⟩⟩⟩⟩⟩

/-- Code that is written again as it was has long jumps where the layout widens them. -/
theorem long_eq_of_code {l : Layout} {long : Layout.LongJumps} {offsets : Array Nat} {bytes : List UInt8}
    (hwritable : l.Writable pool) (hsettled : l.Settled long offsets)
    (hcode : concat ((List.range l.size).map (l.writeAt long offsets)) = .ok bytes) {p : Nat}
    (hp : p < l.size) {op : UInt8} {id : NodeId} (hinsn : l.list.insnAt p = .jump op id) :
    long.getD p false = isLongJump (bytes.drop (offsets.getD p 0)) := by
  obtain ⟨part, rest, hpart, hdrop⟩ := hwritable.drop_eq hsettled hcode hp
  have hfits := hwritable.fits p hp
  unfold Layout.writeAt at hpart
  rw [hinsn] at hpart hfits
  obtain ⟨d, _, hpart⟩ := bind_eq_ok.mp hpart
  cases hpart
  rw [hdrop]
  have hrule : ∀ code, isShortJump code = true → code ≠ Opcode.gotoW ∧ code ≠ Opcode.jsrW := by
    apply forall_byte
    decide +kernel
  cases long.getD p false with
  | true =>
    by_cases hjsr : op = Opcode.jsr
    · simp [Insn.writeJump, isLongJump, hjsr]
    · simp [Insn.writeJump, isLongJump, hjsr]
  | false => simp [Insn.writeJump, isLongJump, hrule op hfits]

/-- Code that is written again as it was loads no dynamic constant of two slots. -/
theorem narrow_of_code {l : Layout} {long : Layout.LongJumps} {offsets : Array Nat} {bytes : List UInt8}
    (hwritable : l.Writable pool) (hsettled : l.Settled long offsets)
    (hcode : concat ((List.range l.size).map (l.writeAt long offsets)) = .ok bytes)
    (hshortest : Row (IsShortest pool) 0 (l.locatedInsns offsets) bytes) :
    ∀ located ∈ l.locatedInsns offsets, ∀ index d, located.insn = .ldc index (.dynamic d) →
      Descriptor.isWide d = false := by
  intro located hlocated index d hinsn
  obtain ⟨i, hi, rfl⟩ := List.getElem_of_mem hlocated
  obtain ⟨spelling, hspelling, _, hdrop⟩ := shortest_getElem hshortest hi
  obtain ⟨p, hp, hat⟩ := List.mem_map.mp hlocated
  have hinside : p < l.size := by simpa using (List.mem_filter.mp hp).1
  obtain ⟨part, rest, hpart, hdrop'⟩ := hwritable.drop_eq hsettled hcode hinside
  have hoffset : (l.locatedInsns offsets)[i].offset = offsets.getD p 0 := by rw [← hat]; rfl
  have hload : ∃ stored, l.list.insnAt p = .ldc stored (.dynamic d) := by
    rw [← hat, Layout.locatedAt] at hinsn
    cases hinsn' : l.list.insnAt p with
    | ldc stored constant =>
      rw [hinsn'] at hinsn
      cases hinsn
      exact ⟨stored, rfl⟩
    | _ =>
      rw [hinsn'] at hinsn
      cases hinsn
  obtain ⟨stored, hload⟩ := hload
  have hnarrow : part.head? = some Opcode.ldcW ∨ part.head? = some Opcode.ldc := by
    unfold Layout.writeAt at hpart
    rw [hload] at hpart
    cases hpart
    unfold Insn.writeLoad
    rw [if_neg (by exact Bool.false_ne_true)]
    split_ifs
    · exact .inl rfl
    · exact .inr rfl
  have hne : part ≠ [] := by
    rintro rfl
    rcases hnarrow with h | h <;> cases h
  have hhead : spelling.head? = part.head? := by
    rw [hoffset, hdrop'] at hdrop
    rw [← List.head?_append_of_ne_nil _ hspelling.ne_nil, ← hdrop, List.head?_append_of_ne_nil _ hne]
  have htidy := hspelling.tidy
  rw [hinsn] at htidy
  refine Bool.eq_false_iff.mpr fun hwide => ?_
  have hlong := htidy.mpr hwide
  rw [hhead] at hlong
  rcases hnarrow with h | h <;> exact absurd (h.symm.trans hlong) (by decide)

/-- Code in shortest spellings is reproduced exactly if it loads no dynamic constant of two slots, if its
jumps take their long forms where the layout widens them, and if the pool finds the classes that are caught
where the handlers have them. -/
theorem encode_decode_iff (hlaid : pool.LaidOut) (hdecode : Body.decode pool code = .ok body)
    (hshortest : Row (IsShortest pool) 0 insns code.code) :
    (∃ encoded pool', pool.edit body.encode = (.ok encoded, pool') ∧ encoded.code = code.code ∧
        encoded.handlers = code.handlers.filter fun h => h.start < h.stop) ↔
      (∀ l ∈ insns, ∀ index d, l.insn = .ldc index (.dynamic d) → Descriptor.isWide d = false) ∧
      body.KeepsWidths code.code ∧
      ∀ h ∈ code.handlers, h.start < h.stop → ∀ name, pool.className h.catchType = .ok name →
        pool.edit (classIndex name) = (.ok h.catchType, pool) := by
  have hlocated : Code.located pool code.code = .ok insns :=
    Code.located_iff.mpr (hshortest.imp fun _ _ _ h => h.spells)
  obtain ⟨tables, labels, hlinked, hregions, hlocals⟩ := Body.linked_of_decode hdecode hlocated
  have hsound : ∀ p < body.insns.size, (body.insns.insnAt p).Sound pool := fun p hp =>
    ⟨(hlinked.fits_names hlocated hp).1, fun _ => (hlinked.fits_names hlocated hp).2⟩
  have hlayout : pool.edit (Layout.ofList body.insns) = (.ok (Layout.stored body.insns), pool) :=
    Layout.edit_ofList hlaid fun p hp => (hlinked.fits_names hlocated hp).2
  constructor
  · rintro ⟨encoded, pool', hencode, hcode, hhandlers⟩
    obtain ⟨l, pool₁, hlayout', h₁⟩ := edit_bind_eq_ok.mp hencode
    obtain ⟨⟨long, offsets⟩, pool₂, hsettling, h₂⟩ := edit_bind_eq_ok.mp h₁
    obtain ⟨hsettle, rfl⟩ := edit_liftM_eq_ok.mp hsettling
    obtain ⟨bytes, pool₃, hwriting, h₃⟩ := edit_bind_eq_ok.mp h₂
    obtain ⟨hbytes, rfl⟩ := edit_liftM_eq_ok.mp hwriting
    obtain ⟨founds, pool₄, hfounds, h₄⟩ := edit_bind_eq_ok.mp h₃
    obtain ⟨ranges, pool₅, _, hlast⟩ := edit_bind_eq_ok.mp h₄
    cases hlast
    obtain ⟨hl, rfl⟩ := Prod.mk.inj (hlayout.symm.trans hlayout')
    cases hl
    dsimp only at hcode hhandlers
    subst hcode
    obtain ⟨_, hwritable⟩ := Layout.writable_ofList hlaid.2 hsound hlayout
    have hsettled := Layout.settle_settled hsettle
    have hinsns := Except.ok.inj (hlocated.symm.trans (hwritable.located hsettled hbytes).1)
    have hlong : ∀ p < body.insns.size, ∀ op id, body.insns.insnAt p = .jump op id →
        long.getD p false = isLongJump (code.code.drop (offsets.getD p 0)) :=
      fun p hp op id => long_eq_of_code hwritable hsettled hbytes hp
    have hnarrow := narrow_of_code hwritable hsettled hbytes (hinsns ▸ hshortest)
    rw [← hinsns] at hnarrow
    have hreproducible : Reproducible pool insns code.code _ labels body.insns :=
      ⟨hlinked, hshortest, hnarrow⟩
    have hoffset := fun t ht => @Reproducible.offsetOf_find _ _ _ _ _ _ _ _ hreproducible
      ⟨hsettled.offsets_eq, hlong⟩ t ht
    exact ⟨hnarrow, ⟨long, offsets, hsettle, hlong⟩,
      findsCaught_of_handlers hlaid (forall_regionOf hregions hoffset) hfounds hhandlers⟩
  · rintro ⟨hnarrow, ⟨long, offsets, hsettle, hlong⟩, hcatch⟩
    have hreproducible : Reproducible pool insns code.code _ labels body.insns :=
      ⟨hlinked, hshortest, hnarrow⟩
    have hkeeps : Reproducible.Keeps code.code body.insns long offsets :=
      ⟨(Layout.settle_settled hsettle).offsets_eq, hlong⟩
    have hoffset := fun t ht => @Reproducible.offsetOf_find _ _ _ _ _ _ _ _ hreproducible hkeeps t ht
    obtain ⟨founds, hfounds, hkept⟩ := handlers_of_findsCaught hlaid (forall_regionOf hregions hoffset) hcatch
    obtain ⟨ranges, hranges⟩ := mapM_localRange?_eq_ok hoffset
    rw [← hlocals] at hranges
    have hwritten := @Reproducible.concat_writeAt _ _ _ _ _ _ _ _ hreproducible hkeeps body.insns.size 0
      (Nat.zero_add _)
    rw [hkeeps.offsets_eq, Layout.offsets_zero, List.drop_zero, ← List.range_eq_range',
      ← hkeeps.offsets_eq] at hwritten
    exact ⟨_, pool, encode_eq_ok hlayout hsettle hwritten hfounds hranges, rfl, hkept⟩

/-- A `long` is loaded and dropped, under a handler. -/
def loadPool : ConstantPool := ⟨#[.unusable, .long 5, .unusable, .utf8 "E", .classRef 3]⟩

def loadCode : CodeAttribute := ⟨2, 0, [20, 0, 1, 88, 177], [⟨0, 4, 4, 4⟩, ⟨3, 3, 4, 0⟩], []⟩

def loadInsns : List Located := [⟨0, .ldc 1 (.long 5), []⟩, ⟨3, .op 88, []⟩, ⟨4, .op 177, []⟩]

theorem loadPool_laidOut : loadPool.LaidOut :=
  ⟨⟨[.long 5, .utf8 "E", .classRef 3], by simp, rfl⟩, by decide⟩

theorem loadCode_shortest : Row (IsShortest loadPool) 0 loadInsns loadCode.code :=
  .cons (isShortest_ldc2W rfl rfl) (.cons (isShortest_op rfl) (.cons (isShortest_op rfl) (.nil _)))

theorem loadCode_decode : ∃ body, Body.decode loadPool loadCode = .ok body := by
  refine ⟨_, Body.decode_eq_ok.mpr ⟨loadInsns, ⟨[], []⟩, _,
    located_iff.mpr (loadCode_shortest.imp fun _ _ _ h => h.spells), rfl, ?_, rfl, rfl⟩⟩
  simp [referenced, loadInsns, loadCode, IsBoundary]

theorem encode_decode_load : ∃ body, Body.decode loadPool loadCode = .ok body ∧
    ∃ encoded pool', loadPool.edit body.encode = (.ok encoded, pool') ∧ encoded.code = loadCode.code ∧
      encoded.handlers = loadCode.handlers.filter fun h => h.start < h.stop := by
  obtain ⟨body, hdecode⟩ := loadCode_decode
  have hnarrow : ∀ l ∈ loadInsns, ∀ index d, l.insn = .ldc index (.dynamic d) →
      Descriptor.isWide d = false := by
    simp [loadInsns]
  have hwidths : body.KeepsWidths loadCode.code :=
    keepsWidths_of_short hdecode loadCode_shortest hnarrow (by decide) (by decide)
  have hcatches : ∀ h ∈ loadCode.handlers, h.start < h.stop → ∀ name,
      loadPool.className h.catchType = .ok name →
      loadPool.edit (classIndex name) = (.ok h.catchType, loadPool) := by
    simp only [loadCode, List.forall_mem_cons]
    refine ⟨fun _ name hname => ?_, fun h => absurd h (by decide), by simp⟩
    cases hname
    with_unfolding_all rfl
  exact ⟨body, hdecode, (encode_decode_iff loadPool_laidOut hdecode loadCode_shortest).mpr
    ⟨hnarrow, hwidths, hcatches⟩⟩

/-- A dynamic constant of two slots is loaded and dropped. -/
def dynamicPool : ConstantPool :=
  ⟨#[.unusable, .utf8 "J", .utf8 "c", .nameAndType 2 1, .dynamic 0 3]⟩

def dynamicCode : CodeAttribute := ⟨2, 0, [20, 0, 4, 88, 177], [], []⟩

def dynamicInsns : List Located := [⟨0, .ldc 4 (.dynamic "J"), []⟩, ⟨3, .op 88, []⟩, ⟨4, .op 177, []⟩]

theorem not_forall_encode_decode : ¬ ∀ (pool : ConstantPool) (code : CodeAttribute) (body : Body)
    (insns : List Located), pool.LaidOut → Body.decode pool code = .ok body →
    Row (IsShortest pool) 0 insns code.code →
    ∃ encoded pool', pool.edit body.encode = (.ok encoded, pool') ∧ encoded.code = code.code ∧
      encoded.handlers = code.handlers.filter fun h => h.start < h.stop := by
  intro h
  have hlaid : dynamicPool.LaidOut :=
    ⟨⟨[.utf8 "J", .utf8 "c", .nameAndType 2 1, .dynamic 0 3], by simp, rfl⟩, by decide⟩
  have hshortest : Row (IsShortest dynamicPool) 0 dynamicInsns dynamicCode.code :=
    .cons (isShortest_ldc2W rfl rfl) (.cons (isShortest_op rfl) (.cons (isShortest_op rfl) (.nil _)))
  have hdecode := Body.decode_eq_ok.mpr ⟨dynamicInsns, ⟨[], []⟩, [],
    located_iff.mpr (hshortest.imp fun _ _ _ h => h.spells), rfl, by simp [referenced, dynamicInsns, dynamicCode],
    rfl, rfl⟩
  obtain ⟨encoded, pool', hencode, hcode, -⟩ := h _ _ _ _ hlaid hdecode hshortest
  have hshorter : dynamicPool.edit (Body.encode ⟨listOf 5 dynamicInsns [] [], [], [], 2, 0⟩) =
      (.ok ⟨[18, 4, 88, 177], #[0, 2, 3, 4], [], [], []⟩, dynamicPool) := by
    with_unfolding_all rfl
  cases hshorter.symm.trans hencode
  cases hcode

end Body

end DirectCall
