import DirectCall.Proofs.Bytes.ReadBack
import DirectCall.Proofs.Code.Encode
import DirectCall.Proofs.ConstantPool.Named
import DirectCall.Verification.StackMap

/-!
# Frames in class files

The format of a table of full frames, as a verifier reads it: types by their tag, and every frame by its
distance from the one before (`FullFrame.place`). What is written for the frames of a stack map is read
back as the same types at the offsets of the frames (`StackMap.readFrames_of_attribute?`).
-/

namespace DirectCall

open Bytes Bytes.Reader ConstantPool

/-! ## The format -/

/-- The type of a slot in a class file: an object has the name of its class, one that is not initialised
yet the offset at which it was made. -/
inductive SlotType where
  | top
  | int
  | float
  | double
  | long
  | null
  | uninitThis
  | object (className : String)
  | uninit (offset : Nat)
  deriving DecidableEq, Repr

namespace SlotType

def read (pool : ConstantPool) : Reader SlotType := do
  match ← u8 with
  | 0 => return top
  | 1 => return int
  | 2 => return float
  | 3 => return double
  | 4 => return long
  | 5 => return null
  | 6 => return uninitThis
  | 7 => return object (← lift (pool.className (← u16)))
  | 8 => return uninit (← u16).toNat
  | tag => throw (.unknownTag tag 0)

/-- The slots of a value: a long or double has a second one, of which nothing is known. -/
def slots : SlotType → List SlotType
  | long => [long, top]
  | double => [double, top]
  | t => [t]

end SlotType

/-- A frame that names all its types; the stack starts at its bottom. -/
structure FullFrame where
  distance : UInt16
  locals : List SlotType
  stack : List SlotType
  deriving DecidableEq, Repr

namespace FullFrame

/-- Frames of other tags leave types out; they are not read. -/
def read (pool : ConstantPool) : Reader FullFrame := do
  match ← u8 with
  | 255 =>
    let distance ← u16
    let locals ← Reader.table (SlotType.read pool)
    return ⟨distance, locals, ← Reader.table (SlotType.read pool)⟩
  | tag => throw (.unknownTag tag 0)

/-- Frames with their offsets. The first stands at its distance, every other one by its distance behind
the byte that follows the start of the one before. -/
def place : Option Nat → List FullFrame → List (Nat × FullFrame)
  | _, [] => []
  | none, frame :: rest => (frame.distance.toNat, frame) :: place (some frame.distance.toNat) rest
  | some last, frame :: rest =>
    let offset := last + frame.distance.toNat + 1
    (offset, frame) :: place (some offset) rest

end FullFrame

/-- The frames of a table with their offsets. Without a table there are none. -/
def StackMap.readFrames (pool : ConstantPool) : Option Attribute → Except Fault (List (Nat × FullFrame))
  | none => .ok []
  | some a => do
    let (frames, c) ← Reader.table (FullFrame.read pool) (.start a.info)
    if c.rest.isEmpty then return FullFrame.place none frames else throw (.trailingBytes c.offset)

/-! ## Types -/

/-- What a class file says of a type, given the places and offsets of the nodes. -/
def VerificationType.shown (positions : Positions) (offsets : Array Nat) : VerificationType → SlotType
  | top => .top
  | int => .int
  | float => .float
  | long => .long
  | double => .double
  | null => .null
  | uninitThis => .uninitThis
  | object className => .object className
  | uninit site _ => .uninit (((positions.find? site).map (offsets.getD · 0)).getD 0)

/-- The spelling is read back through the pool, whatever is added to it. -/
def ReadsThrough {α : Type} (read : ConstantPool → Reader α) (pool : ConstantPool) (spelling : List UInt8)
    (a : α) : Prop :=
  ∀ later, pool.Grows later → (read later).Reads spelling a

theorem ReadsThrough.grow {α : Type} {read : ConstantPool → Reader α} {pool pool' : ConstantPool}
    {spelling : List UInt8} {a : α} (h : ReadsThrough read pool spelling a) (hgrows : pool.Grows pool') :
    ReadsThrough read pool' spelling a :=
  fun later hlater => h later (hgrows.trans hlater)

namespace StackMap

variable {positions : Positions} {offsets : Array Nat} {pool pool' : ConstantPool}

theorem reads_writeType (hsmall : pool.size ≤ 65535)
    (hoffsets : ∀ id p, positions.find? id = some p → offsets.getD p 0 ≤ 65535) {t : VerificationType}
    {part : List UInt8} (h : pool.edit (writeType positions offsets t) = (.ok part, pool')) :
    ReadsThrough SlotType.read pool' part (t.shown positions offsets) := by
  intro later hgrows
  cases t with
  | object className =>
    obtain ⟨index, pool₁, hindex, hpart⟩ := edit_bind_eq_ok.mp h
    cases hpart
    have hname := hgrows.className (className_of_classIndex hsmall hindex)
    exact (reads_u8 7).bind ((reads_u16 index).bind ((reads_lift hname).bind_pure SlotType.object))
  | uninit site className =>
    rw [writeType] at h
    split at h
    · rename_i position hposition
      cases h
      have hshown : VerificationType.shown positions offsets (.uninit site className) =
          .uninit (offsets.getD position 0).toUInt16.toNat := by
        have hsmall := hoffsets site position hposition
        rw [VerificationType.shown, hposition, Option.map_some, Option.getD_some, Nat.toUInt16_eq,
          UInt16.toNat_ofNat']
        congr 1
        omega
      rw [hshown]
      exact (reads_u8 8).bind ((reads_u16 _).bind_pure fun offset => SlotType.uninit offset.toNat)
    · cases h
  | _ =>
    cases h
    exact (reads_u8 _).bind (reads_pure _)

theorem reads_writeTypes (hsmall : pool.size ≤ 65535)
    (hoffsets : ∀ id p, positions.find? id = some p → offsets.getD p 0 ≤ 65535)
    {types : List VerificationType} {spelling : List UInt8}
    (h : pool.edit (writeTypes positions offsets types) = (.ok spelling, pool')) :
    ReadsThrough (fun pool => Reader.table (SlotType.read pool)) pool' spelling
      (types.map (·.shown positions offsets)) := by
  obtain ⟨length, pool₁, hlength, hrest⟩ := edit_bind_eq_ok.mp h
  obtain ⟨htable, rfl⟩ := edit_liftM_eq_ok.mp hlength
  obtain ⟨hcount, rfl⟩ := tableLength_eq_ok.mp htable
  obtain ⟨parts, pool₂, hparts, hlast⟩ := edit_bind_eq_ok.mp hrest
  cases hlast
  have hread : List.Forall₂ (fun t part => ReadsThrough SlotType.read pool' part (t.shown positions offsets))
      types parts :=
    edit_mapM (adds_writeType positions offsets) (fun hgrows h => h.grow hgrows)
      (fun t _ _ _ _ hgrows hpart => reads_writeType (hgrows.small hsmall) hoffsets hpart) hparts
  intro later hgrows
  rw [← List.length_map (·.shown positions offsets)] at hcount ⊢
  refine reads_table_parts hcount ?_
  rw [List.forall₂_map_left_iff]
  exact hread.imp fun _ _ h => h later hgrows

/-! ## Frames -/

/-- The frame of a table that stands for a computed one: the same types at the same offset. -/
structure Shows (positions : Positions) (offsets : Array Nat) (entry : Nat × Frame VerificationType)
    (found : Nat × FullFrame) : Prop where
  offset : found.1 = offsets.getD entry.1 0
  locals : found.2.locals = (listedLocals entry.2.locals.toList).map (·.shown positions offsets)
  stack : found.2.stack = entry.2.stack.reverse.map (·.shown positions offsets)

/-- The distance of a frame, as it is written. -/
def distanceFrom (last : Option Nat) (offset : Nat) : Nat :=
  match last with
  | none => offset
  | some last => offset - last - 1

theorem reads_writeFrame (hsmall : pool.size ≤ 65535)
    (hoffsets : ∀ id p, positions.find? id = some p → offsets.getD p 0 ≤ 65535) {written written' : Written}
    {entry : Nat × Frame VerificationType}
    (h : pool.edit (writeFrame positions offsets written entry) = (.ok written', pool')) :
    written'.last = some (offsets.getD entry.1 0) ∧ ∃ chunk, written'.chunks = chunk :: written.chunks ∧
      ReadsThrough FullFrame.read pool' chunk
        ⟨(distanceFrom written.last (offsets.getD entry.1 0)).toUInt16,
          (listedLocals entry.2.locals.toList).map (·.shown positions offsets),
          entry.2.stack.reverse.map (·.shown positions offsets)⟩ := by
  obtain ⟨locals, pool₁, hlocals, hrest⟩ := edit_bind_eq_ok.mp h
  obtain ⟨stack, pool₂, hstack, hlast⟩ := edit_bind_eq_ok.mp hrest
  cases hlast
  have hgrows₁ := (adds_writeTypes positions offsets _).grows hlocals
  have hgrows₂ := (adds_writeTypes positions offsets _).grows hstack
  refine ⟨rfl, 255 :: (ofUInt16 (distanceFrom written.last (offsets.getD entry.1 0)).toUInt16 ++
    (locals ++ stack)), rfl, fun later hgrows => ?_⟩
  have hreadLocals := reads_writeTypes hsmall hoffsets hlocals later (hgrows₂.trans hgrows)
  have hreadStack := reads_writeTypes (hgrows₁.small hsmall) hoffsets hstack later hgrows
  exact (reads_u8 255).bind ((reads_u16 _).bind (hreadLocals.bind
    (hreadStack.bind_pure fun stack => FullFrame.mk _ _ stack)))

/-- A frame stands at the offset from which its distance was taken, if it lies behind the one before. -/
theorem place_cons {last : Option Nat} {offset : Nat} (hfits : offset ≤ 65535)
    (hahead : ∀ before ∈ last, before < offset) {frame : FullFrame}
    (hdistance : frame.distance = (distanceFrom last offset).toUInt16) (rest : List FullFrame) :
    FullFrame.place last (frame :: rest) = (offset, frame) :: FullFrame.place (some offset) rest := by
  have hnat : ∀ n ≤ 65535, n.toUInt16.toNat = n := by
    intro n hn
    rw [Nat.toUInt16_eq, UInt16.toNat_ofNat']
    omega
  cases last with
  | none =>
    have heq : frame.distance.toNat = offset := by rw [hdistance, distanceFrom, hnat offset hfits]
    rw [FullFrame.place, heq]
  | some before =>
    have hlt : before < offset := hahead before rfl
    have heq : before + frame.distance.toNat + 1 = offset := by
      rw [hdistance, distanceFrom, hnat _ (by omega)]
      omega
    rw [FullFrame.place, heq]

theorem length_place (last : Option Nat) (frames : List FullFrame) :
    (FullFrame.place last frames).length = frames.length := by
  induction frames generalizing last with
  | nil => simp [FullFrame.place]
  | cons frame rest ih =>
    cases last with
    | none => rw [FullFrame.place, List.length_cons, ih, List.length_cons]
    | some before => rw [FullFrame.place, List.length_cons, ih, List.length_cons]

/-- Frames at increasing offsets are read back where they were written for. -/
theorem reads_writeFrames (hsmall : pool.size ≤ 65535)
    (hoffsets : ∀ id p, positions.find? id = some p → offsets.getD p 0 ≤ 65535)
    {entries : List (Nat × Frame VerificationType)} {written final : Written}
    (hfits : ∀ entry ∈ entries, offsets.getD entry.1 0 ≤ 65535)
    (hincreasing : entries.Pairwise fun a b => offsets.getD a.1 0 < offsets.getD b.1 0)
    (hahead : ∀ before ∈ written.last, ∀ entry ∈ entries, before < offsets.getD entry.1 0)
    (h : pool.edit (entries.foldlM (writeFrame positions offsets) written) = (.ok final, pool')) :
    ∃ frames chunks, final.chunks = chunks.reverse ++ written.chunks ∧
      List.Forall₂ (fun frame chunk => ReadsThrough FullFrame.read pool' chunk frame) frames chunks ∧
      List.Forall₂ (Shows positions offsets) entries (FullFrame.place written.last frames) := by
  induction entries generalizing pool written with
  | nil =>
    cases h
    exact ⟨[], [], rfl, .nil, .nil⟩
  | cons entry rest ih =>
    rw [List.foldlM_cons] at h
    obtain ⟨next, pool₁, hnext, hrest⟩ := edit_bind_eq_ok.mp h
    obtain ⟨hlast, chunk, hchunks, hread⟩ := reads_writeFrame hsmall hoffsets hnext
    have hgrows := (adds_writeFrame positions offsets written entry).grows hnext
    obtain ⟨hbehind, hincreasing⟩ := List.pairwise_cons.mp hincreasing
    obtain ⟨hfit, hfits⟩ := List.forall_mem_cons.mp hfits
    obtain ⟨frames, chunks, hfinal, hreads, hshows⟩ := ih (hgrows.small hsmall) hfits hincreasing (by
      rw [hlast]
      rintro _ ⟨⟩
      exact hbehind) hrest
    have hgrows' := (Edit.Adds.foldlM (adds_writeFrame positions offsets) next rest).grows hrest
    refine ⟨_ :: frames, chunk :: chunks, ?_, .cons (hread.grow hgrows') hreads, ?_⟩
    · rw [hfinal, hchunks, List.reverse_cons, List.append_assoc]
      rfl
    · rw [place_cons hfit (fun before hbefore => hahead before hbefore entry List.mem_cons_self) rfl]
      rw [hlast] at hshows
      exact .cons ⟨rfl, rfl, rfl⟩ hshows

/-- What is written for a stack map at increasing offsets is read back as its frames, whatever is added
to the pool. -/
theorem readFrames_of_attribute? {map : StackMap} {body : Body} {table : Option Attribute}
    (hsmall : pool.size ≤ 65535)
    (hoffsets : ∀ id p, body.insns.positions.find? id = some p → offsets.getD p 0 ≤ 65535)
    (hfits : ∀ entry ∈ map.frames, offsets.getD entry.1 0 ≤ 65535)
    (hincreasing : map.frames.Pairwise fun a b => offsets.getD a.1 0 < offsets.getD b.1 0)
    (h : pool.edit (map.attribute? body offsets) = (.ok table, pool')) {later : ConstantPool}
    (hgrows : pool'.Grows later) :
    (∀ a ∈ table, later.utf8 a.nameIndex = .ok "StackMapTable") ∧
      ∃ found, readFrames later table = .ok found ∧
        List.Forall₂ (Shows body.insns.positions offsets) map.frames found := by
  unfold attribute? at h
  split_ifs at h with hempty
  · cases h
    rw [List.isEmpty_iff.mp hempty]
    exact ⟨nofun, [], rfl, .nil⟩
  · obtain ⟨length, pool₁, hlength, hrest⟩ := edit_bind_eq_ok.mp h
    obtain ⟨htable, rfl⟩ := edit_liftM_eq_ok.mp hlength
    obtain ⟨hcount, rfl⟩ := tableLength_eq_ok.mp htable
    obtain ⟨written, pool₂, hwritten, hname⟩ := edit_bind_eq_ok.mp hrest
    obtain ⟨index, pool₃, hindex, hlast⟩ := edit_bind_eq_ok.mp hname
    cases hlast
    have hgrows₁ := (Edit.Adds.foldlM (adds_writeFrame body.insns.positions offsets) _ _).grows hwritten
    have hgrows₂ := (adds_utf8Index "StackMapTable").grows hindex
    obtain ⟨frames, chunks, hchunks, hreads, hshows⟩ :=
      reads_writeFrames hsmall hoffsets hfits hincreasing (by rintro _ ⟨⟩) hwritten
    constructor
    · rintro _ ⟨⟩
      exact hgrows.utf8 (utf8_of_utf8Index (hgrows₁.small hsmall) hindex)
    · have hlength : map.frames.length = frames.length := by
        rw [hshows.length_eq, length_place]
      rw [hlength] at hcount
      have hread := reads_table_parts hcount (hreads.imp fun _ _ h => h later (hgrows₂.trans hgrows))
      refine ⟨FullFrame.place none frames, ?_, hshows⟩
      rw [readFrames, hchunks, hlength, List.append_nil, List.reverse_reverse,
        hread.apply_start]
      rfl

end StackMap

end DirectCall
