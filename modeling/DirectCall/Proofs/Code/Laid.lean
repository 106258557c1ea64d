import DirectCall.Proofs.Bytes.Taken
import DirectCall.Proofs.Code.Encode
import DirectCall.Proofs.Code.Placed
import DirectCall.Proofs.Code.Written
import DirectCall.Proofs.Code.Settle
import Mathlib.Data.Nat.Init

/-!
# Code as it is laid out

Written at the offsets of a settled layout, the instructions of a list are read back one by one
(`Layout.Writable.located`), and an offset stands for the number of instructions ahead of it
(`Layout.numberAt_locatedInsns`).
-/

namespace DirectCall

open Bytes Bytes.Reader ConstantPool

/-! ## Numbers and offsets -/

namespace Layout

variable {l : Layout}

/-- The offset of a node; `0` for one without a place. -/
def targetOf (l : Layout) (offsets : Array Nat) (id : NodeId) : Nat :=
  match l.positions.find? id with
  | some position => offsets.getD position 0
  | none => 0

/-- The instruction at a position as it is read from the code. -/
def locatedAt (l : Layout) (offsets : Array Nat) (position : Nat) : Code.Located :=
  ⟨offsets.getD position 0, ((l.list.insnAt position).withIndex (l.indices.getD position 0)).bare,
    (l.list.insnAt position).targets.map (l.targetOf offsets)⟩

/-- Positions of instructions; labels and lines are left out. -/
def realsFrom (l : Layout) (start count : Nat) : List Nat :=
  (List.range' start count).filter fun p => (l.list.insnAt p).isReal

theorem realsFrom_succ (start count : Nat) : l.realsFrom start (count + 1) =
    (if (l.list.insnAt start).isReal then [start] else []) ++ l.realsFrom (start + 1) count := by
  rw [realsFrom, List.range'_succ, List.filter_cons]
  split_ifs <;> rfl

/-- The instructions as they are read from the code. -/
def locatedInsns (l : Layout) (offsets : Array Nat) : List Code.Located :=
  (l.realsFrom 0 l.size).map (l.locatedAt offsets)

theorem sizeAt_of_not_isReal {long : LongJumps} {offset p : Nat} (h : (l.list.insnAt p).isReal = false) :
    l.sizeAt long offset p = 0 := by
  unfold sizeAt
  cases hinsn : l.list.insnAt p with
  | label => rfl
  | line number => rfl
  | _ =>
    rw [hinsn] at h
    cases h

theorem sizeAt_pos (long : LongJumps) (offset : Nat) {p : Nat} (h : (l.list.insnAt p).isReal = true) :
    0 < l.sizeAt long offset p := by
  unfold sizeAt
  cases hinsn : l.list.insnAt p with
  | label =>
    rw [hinsn] at h
    cases h
  | line number =>
    rw [hinsn] at h
    cases h
  | var code v =>
    rw [Insn.codeSize]
    split_ifs <;> omega
  | push code value =>
    rw [Insn.codeSize]
    split_ifs <;> omega
  | iinc v delta =>
    rw [Insn.codeSize]
    split_ifs <;> omega
  | ldc index constant =>
    rw [Insn.codeSize]
    split_ifs <;> omega
  | invoke code index member interface =>
    rw [Insn.codeSize]
    split_ifs <;> omega
  | jump code target =>
    rw [Insn.codeSize]
    split_ifs <;> omega
  | tableSwitch low default targets =>
    rw [Insn.codeSize]
    omega
  | lookupSwitch default keys targets =>
    rw [Insn.codeSize]
    omega
  | _ =>
    rw [Insn.codeSize]
    omega

/-- Two positions have different offsets if an instruction stands between them. -/
theorem offsets_eq_iff (long : LongJumps) {p q : Nat} (hle : p ≤ q) (hq : q ≤ l.size) :
    (l.offsets long).getD p 0 = (l.offsets long).getD q 0 ↔ l.list.ahead p = l.list.ahead q := by
  induction hle with
  | refl => simp
  | @step q hle ih =>
    have hlt : q < l.size := hq
    have hoffsets := offsets_le long hle (Nat.le_of_lt hlt)
    have hahead := InsnList.ahead_le hle (Nat.le_of_lt hlt)
    have hrest := ih (Nat.le_of_lt hlt)
    rw [offsets_succ long hlt, InsnList.ahead_succ hlt]
    cases hreal : (l.list.insnAt q).isReal with
    | false =>
      rw [sizeAt_of_not_isReal hreal]
      exact hrest
    | true =>
      have hpos := sizeAt_pos long ((l.offsets long).getD q 0) hreal
      rw [if_pos rfl]
      omega

/-- Offsets are ordered as the instructions ahead are counted. -/
theorem offsets_lt_iff (long : LongJumps) {p q : Nat} (hp : p ≤ l.size) (hq : q ≤ l.size) :
    (l.offsets long).getD p 0 < (l.offsets long).getD q 0 ↔ l.list.ahead p < l.list.ahead q := by
  rcases Nat.le_total p q with hle | hle
  · have hsame := offsets_eq_iff long hle hq
    have hoffsets := offsets_le long hle hq
    have hahead := InsnList.ahead_le hle hq
    omega
  · have hoffsets := offsets_le long hle hp
    have hahead := InsnList.ahead_le hle hp
    omega

/-- What stands behind an instruction has a greater offset. -/
theorem offsets_lt (long : LongJumps) {p q : Nat} (hreal : (l.list.insnAt p).isReal = true) (hlt : p < q)
    (hq : q ≤ l.size) : (l.offsets long).getD p 0 < (l.offsets long).getD q 0 := by
  have hnext := offsets_succ long (Nat.lt_of_lt_of_le hlt hq)
  have hpos := sizeAt_pos long ((l.offsets long).getD p 0) hreal
  have hle := offsets_le long (show p + 1 ≤ q from hlt) hq
  omega

/-- The number of an offset is the number of instructions ahead of the position. -/
theorem numberAt_locatedInsns (long : LongJumps) {p : Nat} (hp : p ≤ l.size) :
    Code.numberAt (l.locatedInsns (l.offsets long)) ((l.offsets long).getD p 0) = l.list.ahead p := by
  have hsplit : l.realsFrom 0 l.size = l.realsFrom 0 p ++ l.realsFrom p (l.size - p) := by
    have happend : List.range' 0 p ++ List.range' (0 + p) (l.size - p) =
        List.range' 0 (p + (l.size - p)) := List.range'_append_1
    rw [Nat.zero_add, Nat.add_sub_cancel' hp] at happend
    rw [realsFrom, ← happend, List.filter_append]
    rfl
  have hfront : ∀ q ∈ l.realsFrom 0 p, (l.offsets long).getD q 0 < (l.offsets long).getD p 0 := by
    intro q hq
    obtain ⟨hmem, hreal⟩ := List.mem_filter.mp hq
    have hlt : q < p := by simpa using hmem
    have hahead := @InsnList.ahead_le l.list (q + 1) p hlt hp
    rw [InsnList.ahead_succ (Nat.lt_of_lt_of_le hlt hp), if_pos hreal] at hahead
    exact (offsets_lt_iff long (Nat.le_of_lt (Nat.lt_of_lt_of_le hlt hp)) hp).mpr hahead
  have hback : ∀ q ∈ l.realsFrom p (l.size - p),
      ¬ (l.offsets long).getD q 0 < (l.offsets long).getD p 0 := by
    intro q hq
    have hmem := List.mem_range'_1.mp (List.mem_filter.mp hq).1
    exact Nat.not_lt.mpr (offsets_le long hmem.1 (by omega))
  have hcount : (l.realsFrom 0 p).length = l.list.ahead p := by
    have hmin : min p l.list.size = p := Nat.min_eq_left hp
    rw [InsnList.ahead, InsnList.insns_eq_map, ← List.map_take, List.take_range, hmin,
      List.countP_map, List.countP_eq_length_filter, realsFrom, ← List.range_eq_range']
    rfl
  have hall : (l.realsFrom 0 p).countP (fun q => (l.offsets long).getD q 0 < (l.offsets long).getD p 0) =
      (l.realsFrom 0 p).length :=
    List.countP_eq_length.mpr fun q hq => decide_eq_true (hfront q hq)
  have hnone : (l.realsFrom p (l.size - p)).countP
      (fun q => (l.offsets long).getD q 0 < (l.offsets long).getD p 0) = 0 :=
    List.countP_eq_zero.mpr fun q hq => by simpa using hback q hq
  rw [Code.numberAt, locatedInsns, List.countP_map, hsplit, List.countP_append]
  exact (congrArg₂ (· + ·) hall hnone).trans hcount

/-- An instruction stands at every offset ahead of the end. -/
theorem isBoundary_locatedInsns (long : LongJumps) {p : Nat} (hp : p ≤ l.size) :
    Code.IsBoundary ((l.offsets long).getD l.size 0) (l.locatedInsns (l.offsets long))
      ((l.offsets long).getD p 0) := by
  induction hp using Nat.decreasingInduction with
  | self => exact .inl rfl
  | of_succ p hp ih =>
    cases hreal : (l.list.insnAt p).isReal with
    | false =>
      rw [offsets_succ long hp, sizeAt_of_not_isReal hreal, Nat.add_zero] at ih
      exact ih
    | true =>
      refine .inr ⟨l.locatedAt (l.offsets long) p, List.mem_map_of_mem ?_, rfl⟩
      exact List.mem_filter.mpr ⟨by simpa using hp, hreal⟩

/-! ## Writing -/

/-- Every instruction fits, and the index it is given leads to what it carries. -/
structure Writable (pool : ConstantPool) (l : Layout) : Prop where
  positions_eq : l.positions = l.list.positions
  fits : ∀ p < l.size, (l.list.insnAt p).Fits
  indexed : ∀ p < l.size, (l.list.insnAt p).Indexed pool (l.indices.getD p 0)

theorem Writable.grow {pool pool' : ConstantPool} (h : l.Writable pool) (hgrows : pool.Grows pool') :
    l.Writable pool' :=
  ⟨h.positions_eq, h.fits, fun p hp => (h.indexed p hp).grow hgrows⟩

variable {offsets : Array Nat}

/-- The node has a place. -/
def IsPlaced (l : Layout) (id : NodeId) : Prop := ∃ p, l.positions.find? id = some p

theorem offsetOf_eq_ok {id : NodeId} {offset : Nat} (h : l.offsetOf offsets id = .ok offset) :
    l.IsPlaced id ∧ offset = l.targetOf offsets id := by
  unfold offsetOf at h
  unfold targetOf
  cases hfind : l.positions.find? id with
  | none =>
    rw [hfind] at h
    cases h
  | some p =>
    rw [hfind] at h
    cases h
    exact ⟨⟨p, hfind⟩, rfl⟩

theorem displacement_eq_ok {offset : Nat} {id : NodeId} {d : Int}
    (h : l.displacement offsets offset id = .ok d) : d = (l.targetOf offsets id : Int) - offset := by
  obtain ⟨o, ho, h⟩ := bind_eq_ok.mp h
  cases h
  rw [(offsetOf_eq_ok ho).2]

theorem targetOf_le (hpositions : l.positions = l.list.positions) (hsettled : l.Settled long offsets)
    (id : NodeId) : l.targetOf offsets id ≤ 65535 := by
  unfold targetOf
  split
  · rename_i p hp
    rw [hpositions] at hp
    exact hsettled.le (Nat.le_of_lt (Positions.find?_lt hp))
  · exact Nat.zero_le _

end Layout

/-- The distances to all targets were found. -/
theorem Insn.distance_of_write {insn : Insn} (hsized : insn.Sized) {offset : Nat} {index : UInt16}
    {isLong : Bool} {distance : NodeId → Except Fault Int} {spelling : List UInt8}
    (h : insn.write offset index isLong distance = .ok spelling) :
    ∀ id ∈ insn.targets, ∃ d, distance id = .ok d := by
  have htarget : ∀ {id : NodeId} {part : List UInt8}, longDisplacement <$> distance id = .ok part →
      ∃ d, distance id = .ok d := by
    intro id part hpart
    cases hdistance : distance id with
    | error fault =>
      rw [hdistance] at hpart
      cases hpart
    | ok d => exact ⟨d, rfl⟩
  cases insn with
  | jump code id =>
    obtain ⟨d, hd, _⟩ := bind_eq_ok.mp h
    intro id' hid'
    cases List.mem_singleton.mp hid'
    exact ⟨d, hd⟩
  | tableSwitch low default ids =>
    obtain ⟨first, hfirst, h⟩ := bind_eq_ok.mp h
    obtain ⟨content, hcontent, _⟩ := bind_eq_ok.mp h
    intro id hid
    rcases List.mem_cons.mp hid with rfl | hid
    · exact htarget hfirst
    · obtain ⟨part, hpart⟩ := ok_of_concat_map hcontent hid
      exact htarget hpart
  | lookupSwitch default keys ids =>
    obtain ⟨first, hfirst, h⟩ := bind_eq_ok.mp h
    obtain ⟨content, hcontent, _⟩ := bind_eq_ok.mp h
    intro id hid
    rcases List.mem_cons.mp hid with rfl | hid
    · exact htarget hfirst
    · have hzip : (keys.zip ids).map Prod.snd = ids :=
        List.map_snd_zip (Nat.le_of_eq (show keys.length = ids.length from hsized).symm)
      rw [← hzip] at hid
      obtain ⟨⟨key, id⟩, hpair, rfl⟩ := List.mem_map.mp hid
      obtain ⟨part, hpart⟩ := ok_of_concat_map hcontent hpair
      change (ofInt32 key ++ ·) <$> (longDisplacement <$> distance id) = .ok part at hpart
      cases hdisplacement : longDisplacement <$> distance id with
      | error fault =>
        rw [hdisplacement] at hpart
        cases hpart
      | ok displacement => exact htarget hdisplacement
  | _ => exact fun id hid => absurd hid List.not_mem_nil

namespace Layout

variable {l : Layout} {long : LongJumps} {offsets : Array Nat} {pool : ConstantPool}

/-- The distances that an instruction is written with lead to its targets. -/
theorem Settled.reaches (hsettled : l.Settled long offsets) (hpositions : l.positions = l.list.positions)
    {p : Nat} (hp : p < l.size) (hsized : (l.list.insnAt p).Sized) {spelling : List UInt8}
    (h : l.writeAt long offsets p = .ok spelling) :
    Code.Reaches (l.displacement offsets (offsets.getD p 0)) (offsets.getD p 0) (l.targetOf offsets)
      (l.list.insnAt p).targets := by
  refine ⟨hsettled.le (Nat.le_of_lt hp), fun id _ => targetOf_le hpositions hsettled id, fun id hid => ?_⟩
  obtain ⟨d, hd⟩ := Insn.distance_of_write hsized h id hid
  rw [hd, displacement_eq_ok hd]

/-- A long jump can be long, and a short one reaches its target. -/
theorem Settled.width (hsettled : l.Settled long offsets) {p : Nat} (hp : p < l.size) {code : UInt8}
    {id : NodeId} (hinsn : l.list.insnAt p = .jump code id) {d : Int}
    (hd : l.displacement offsets (offsets.getD p 0) id = .ok d) :
    if long.getD p false then code = Opcode.goto ∨ code = Opcode.jsr else isShort d = true := by
  cases hlong : long.getD p false with
  | true =>
    have hgrow := hsettled.mayGrow p hlong
    rw [hinsn, Layout.mayGrow, Bool.or_eq_true, beq_iff_eq, beq_iff_eq] at hgrow
    exact hgrow
  | false =>
    have hstays := hsettled.stays p hp
    rw [mustGrow, hinsn] at hstays
    dsimp only at hstays
    rw [hlong, if_neg Bool.false_ne_true, hd] at hstays
    rw [if_neg Bool.false_ne_true]
    by_contra hshort
    change (if isShort d = true then _ else _) = _ at hstays
    rw [if_neg hshort] at hstays
    split_ifs at hstays
    cases hstays

/-- What is written at a position is read back. -/
theorem Writable.spells (hwritable : l.Writable pool) (hsettled : l.Settled long offsets) {p : Nat}
    (hp : p < l.size) (hreal : (l.list.insnAt p).isReal = true) {spelling : List UInt8}
    (h : l.writeAt long offsets p = .ok spelling) :
    Code.Spells pool (offsets.getD p 0) spelling (l.locatedAt offsets p) := by
  have hreach := hsettled.reaches hwritable.positions_eq hp (hwritable.fits p hp).sized h
  have hlength := Insn.length_write (hwritable.fits p hp).sized h
  refine Insn.spells_write hreal (hwritable.fits p hp) (hwritable.indexed p hp).names hreach
    (fun code id hinsn => hsettled.width hp hinsn (hreach.distance_eq id ?_)) ?_ h
  · rw [hinsn]
    exact List.mem_singleton_self id
  · have hnext := offsets_succ long hp
    have hle := offsets_le long (Nat.succ_le_of_lt hp) (Nat.le_refl l.size)
    have hsmall := hsettled.small
    rw [hsettled.offsets_eq] at hsmall hlength
    change spelling.length = l.sizeAt long _ p at hlength
    have : p.succ = p + 1 := rfl
    rw [this] at hle
    omega

/-- What is written position by position takes the bytes between the offsets. -/
theorem length_parts (hsized : ∀ q < l.size, (l.list.insnAt q).Sized) (hoffsets : offsets = l.offsets long)
    {count p : Nat} (hp : p + count ≤ l.size) {parts : List (List UInt8)}
    (h : List.Forall₂ (fun q part => l.writeAt long offsets q = .ok part) (List.range' p count) parts) :
    offsets.getD p 0 + parts.flatten.length = offsets.getD (p + count) 0 := by
  induction count generalizing p parts with
  | zero =>
    cases h
    rfl
  | succ count ih =>
    rw [List.range'_succ] at h
    cases h with
    | @cons _ part _ parts hpart hparts =>
    have hinside : p < l.size := by omega
    have hlength := Insn.length_write (hsized p hinside) hpart
    change part.length = l.sizeAt long _ p at hlength
    have hnext := offsets_succ long hinside
    rw [← hoffsets, ← hlength] at hnext
    have hrest := ih (by omega) hparts
    rw [hnext] at hrest
    rw [List.flatten_cons, List.length_append, ← Nat.add_assoc, hrest]
    congr 1
    omega

/-- What is written position by position spells the instructions. -/
theorem Writable.spelt (hwritable : l.Writable pool) (hsettled : l.Settled long offsets)
    {count p : Nat} (hp : p + count ≤ l.size) {parts : List (List UInt8)}
    (h : List.Forall₂ (fun q part => l.writeAt long offsets q = .ok part) (List.range' p count) parts) :
    Code.Row (Code.Spells pool) (offsets.getD p 0) ((l.realsFrom p count).map (l.locatedAt offsets))
      parts.flatten := by
  induction count generalizing p parts with
  | zero =>
    cases h
    exact .nil _
  | succ count ih =>
    rw [List.range'_succ] at h
    cases h with
    | @cons _ part _ parts hpart hparts =>
    have hinside : p < l.size := by omega
    have hlength := Insn.length_write (hwritable.fits p hinside).sized hpart
    change part.length = l.sizeAt long _ p at hlength
    have hnext := offsets_succ long hinside
    rw [← hsettled.offsets_eq, ← hlength] at hnext
    have hspelt := ih (by omega) hparts
    rw [hnext] at hspelt
    rw [List.flatten_cons, realsFrom_succ]
    cases hreal : (l.list.insnAt p).isReal with
    | false =>
      have hempty : part = [] := by
        rw [← List.length_eq_zero_iff, hlength, sizeAt_of_not_isReal hreal]
      subst hempty
      exact hspelt
    | true => exact .cons (hwritable.spells hsettled hinside hreal hpart) hspelt

/-- The code of a layout is read as its instructions. -/
theorem Writable.located (hwritable : l.Writable pool) (hsettled : l.Settled long offsets)
    {code : List UInt8} (h : concat ((List.range l.size).map (l.writeAt long offsets)) = .ok code) :
    Code.located pool code = .ok (l.locatedInsns offsets) ∧ code.length = offsets.getD l.size 0 := by
  obtain ⟨parts, hparts, rfl⟩ := concat_map_eq_ok h
  rw [List.range_eq_range'] at hparts
  have hspelt := hwritable.spelt hsettled (by omega) hparts
  have hlength := length_parts (fun q hq => (hwritable.fits q hq).sized) hsettled.offsets_eq (by omega) hparts
  have hstart : offsets.getD 0 0 = 0 := by rw [hsettled.offsets_eq, offsets_zero]
  rw [hstart] at hspelt hlength
  rw [Nat.zero_add, Nat.zero_add] at hlength
  exact ⟨Code.located_iff.mpr hspelt, hlength⟩

/-- The code falls apart into what is written ahead of a position, at it and behind it. -/
theorem split_code (hsized : ∀ q < l.size, (l.list.insnAt q).Sized) (hoffsets : offsets = l.offsets long)
    {code : List UInt8} (h : concat ((List.range l.size).map (l.writeAt long offsets)) = .ok code) {p : Nat}
    (hp : p < l.size) :
    ∃ front part back, concat ((List.range p).map (l.writeAt long offsets)) = .ok front ∧
      l.writeAt long offsets p = .ok part ∧ code = front ++ (part ++ back) ∧
        front.length = offsets.getD p 0 ∧ (front ++ part).length = offsets.getD (p + 1) 0 := by
  obtain ⟨parts, hparts, rfl⟩ := concat_map_eq_ok h
  have hlength : p < parts.length := by
    rw [← hparts.length_eq, List.length_range]
    exact hp
  have hahead : ∀ n ≤ l.size, List.Forall₂ (fun q part => l.writeAt long offsets q = .ok part)
      (List.range n) (parts.take n) := by
    intro n hn
    have htake := List.forall₂_take n hparts
    rwa [List.take_range, Nat.min_eq_left hn] at htake
  have htotal : ∀ n ≤ l.size, (parts.take n).flatten.length = offsets.getD n 0 := by
    intro n hn
    have htake := hahead n hn
    rw [List.range_eq_range'] at htake
    have hadd := length_parts hsized hoffsets (by omega) htake
    rwa [hoffsets, offsets_zero, Nat.zero_add, Nat.zero_add, ← hoffsets] at hadd
  have hpart := hparts.get (by rw [List.length_range]; exact hp) hlength
  simp only [List.get_eq_getElem, List.getElem_range] at hpart
  refine ⟨(parts.take p).flatten, parts[p], (parts.drop (p + 1)).flatten,
    concat_map_of_forall₂ (hahead p (Nat.le_of_lt hp)), hpart, ?_, htotal p (Nat.le_of_lt hp), ?_⟩
  · conv_lhs => rw [← List.take_append_drop p parts, ← List.getElem_cons_drop hlength]
    rw [List.flatten_append, List.flatten_cons]
  · rw [← htotal (p + 1) hp, List.take_succ_eq_append_getElem hlength, List.flatten_append,
      List.flatten_singleton]

/-- What is written at a position stands in the code at its offset. -/
theorem Writable.drop_eq (hwritable : l.Writable pool) (hsettled : l.Settled long offsets)
    {code : List UInt8} (h : concat ((List.range l.size).map (l.writeAt long offsets)) = .ok code) {p : Nat}
    (hp : p < l.size) :
    ∃ part rest, l.writeAt long offsets p = .ok part ∧ code.drop (offsets.getD p 0) = part ++ rest := by
  obtain ⟨front, part, rest, _, hpart, rfl, hlength, _⟩ :=
    split_code (fun q hq => (hwritable.fits q hq).sized) hsettled.offsets_eq h hp
  exact ⟨part, rest, hpart, by rw [← hlength, List.drop_left]⟩

end Layout

/-- Code that was encoded is what the layout of the body writes at the offsets where it settles. -/
theorem Body.laid_of_encode {pool pool' : ConstantPool} {body : Body} {encoded : EncodedCode}
    (h : pool.edit body.encode = (.ok encoded, pool')) :
    ∃ (l : Layout) (pool₁ : ConstantPool) (long : Layout.LongJumps),
      pool.edit (Layout.ofList body.insns) = (.ok l, pool₁) ∧ l.list = body.insns ∧
        l.positions = body.insns.positions ∧ l.settle = .ok (long, encoded.offsets) ∧
          concat ((List.range l.size).map (l.writeAt long encoded.offsets)) = .ok encoded.code := by
  obtain ⟨l, pool₁, hlayout, h₁⟩ := edit_bind_eq_ok.mp h
  obtain ⟨⟨long, offsets⟩, pool₂, hsettling, h₂⟩ := edit_bind_eq_ok.mp h₁
  obtain ⟨hsettle, rfl⟩ := edit_liftM_eq_ok.mp hsettling
  obtain ⟨code, pool₃, hwriting, h₃⟩ := edit_bind_eq_ok.mp h₂
  obtain ⟨hcode, rfl⟩ := edit_liftM_eq_ok.mp hwriting
  obtain ⟨founds, pool₄, _, h₄⟩ := edit_bind_eq_ok.mp h₃
  obtain ⟨ranges, pool₅, _, hlast⟩ := edit_bind_eq_ok.mp h₄
  cases hlast
  have hlist : l.list = body.insns ∧ l.positions = body.insns.positions := by
    unfold Layout.ofList at hlayout
    obtain ⟨indices, pool₆, _, hlist⟩ := edit_bind_eq_ok.mp hlayout
    cases hlist
    exact ⟨rfl, rfl⟩
  exact ⟨l, _, long, hlayout, hlist.1, hlist.2, hsettle, hcode⟩

/-- Code that was encoded is laid out at settled offsets. -/
theorem Body.settled_of_encode {pool pool' : ConstantPool} {body : Body} {encoded : EncodedCode}
    (h : pool.edit body.encode = (.ok encoded, pool')) :
    ∃ (l : Layout) (long : Layout.LongJumps), l.list = body.insns ∧ l.Settled long encoded.offsets := by
  obtain ⟨l, _, long, _, hlist, _, hsettle, _⟩ := Body.laid_of_encode h
  exact ⟨l, long, hlist, Layout.settle_settled hsettle⟩

end DirectCall
