import DirectCall.Proofs.Code.Laid

/-!
# What the layout promises and the writer keeps

The rounds of widening come to an end by themselves, at most one later than there are jumps to widen
(`Layout.settles_within`). The bytes of every position then stand between its offset and the next one, and
every displacement among them leads to its target (`Body.encode_consistent`).
-/

namespace DirectCall

open Bytes ConstantPool

/-! ## Rounds of widening -/

namespace Layout

variable {l : Layout} {long : LongJumps}

/-- What a round comes to: a result, or more long jumps for the next one. -/
inductive Round where
  | stop (result : Except Fault (LongJumps × Array Nat))
  | again (long : LongJumps)

/-- A round of widening. -/
def round (l : Layout) (long : LongJumps) : Round :=
  if (l.offsets long).getD l.size 0 > 65535 then .stop (.error .codeTooLong)
  else
    match l.growing long (l.offsets long) with
    | .error fault => .stop (.error fault)
    | .ok grown =>
      if grown.isEmpty then .stop (.ok (long, l.offsets long))
      else .again (grown.foldl (fun long p => long.setIfInBounds p true) long)

/-- Round after round, with no bound on them, the widening stops with a result after so many. -/
inductive Settles (l : Layout) : Nat → LongJumps → Except Fault (LongJumps × Array Nat) → Prop
  | stop {long result} : l.round long = .stop result → Settles l 1 long result
  | again {rounds long long' result} : l.round long = .again long' → Settles l rounds long' result →
      Settles l (rounds + 1) long result

theorem settleFrom_succ (rounds : Nat) (long : LongJumps) : l.settleFrom (rounds + 1) long =
    match l.round long with
    | .stop result => result
    | .again long' => l.settleFrom rounds long' := by
  rw [settleFrom, round]
  dsimp only
  split_ifs with hlong
  · rfl
  · show (l.growing long (l.offsets long)).bind _ = _
    cases l.growing long (l.offsets long) with
    | error fault => rfl
    | ok grown =>
      dsimp only [Except.bind]
      split_ifs <;> rfl

/-- A round that does not stop makes jumps long that were not. -/
theorem round_again {long' : LongJumps} (h : l.round long = .again long') (hsize : long.size = l.size) :
    long'.size = l.size ∧ l.remaining long' < l.remaining long := by
  unfold round at h
  split_ifs at h
  split at h
  · cases h
  · rename_i grown hgrown
    split_ifs at h with hempty
    obtain rfl := Round.again.inj h
    rw [List.isEmpty_iff] at hempty
    have hcan : ∀ p ∈ grown, p < l.size ∧ l.canGrow long p = true := by
      intro p hp
      obtain ⟨hinside, hmust⟩ := (mem_filterM_ok hgrown).mp hp
      exact ⟨List.mem_range.mp hinside, canGrow_of_mustGrow hmust⟩
    exact ⟨(getD_widen (fun p hp => hsize ▸ (hcan p hp).1) 0).1.trans hsize,
      remaining_lt hempty hsize hcan⟩

theorem settleFrom_settles {rounds : Nat} (hsize : long.size = l.size) (hrounds : l.remaining long < rounds) :
    ∃ n ≤ l.remaining long + 1, l.Settles n long (l.settleFrom rounds long) := by
  induction rounds generalizing long with
  | zero => exact absurd hrounds (Nat.not_lt_zero _)
  | succ rounds ih =>
    rw [settleFrom_succ]
    cases hround : l.round long with
    | stop result => exact ⟨1, by omega, .stop hround⟩
    | again long' =>
      obtain ⟨hsize', hless⟩ := round_again hround hsize
      obtain ⟨n, hn, hsettles⟩ := ih hsize' (by omega)
      exact ⟨n + 1, by omega, .again hround hsettles⟩

/-- The rounds end by themselves, at most one later than there are jumps that may become long. -/
theorem settles_within (l : Layout) : ∃ n ≤ l.growableCount + 1, l.Settles n l.noneLong l.settle := by
  have hremaining := @remaining_noneLong l
  obtain ⟨n, hn, hsettles⟩ := @settleFrom_settles l l.noneLong (l.growableCount + 1) (by simp [noneLong])
    (Nat.lt_succ_of_le hremaining)
  exact ⟨n, by omega, hsettles⟩

end Layout

/-! ## Displacements -/

/-- What an instruction is written as at an offset. Its displacements lead from there to its targets, and the
operands of a switch start at a multiple of four. -/
inductive Insn.Branches (lands : Int → NodeId → Prop) (offset : Nat) : Bool → Insn → List UInt8 → Prop
  | short {code : UInt8} {id : NodeId} {d : Int16} : lands d.toInt id →
      Branches lands offset false (.jump code id) (code :: ofInt16 d)
  | gotoLong {id : NodeId} {d : Int32} : lands d.toInt id →
      Branches lands offset true (.jump Opcode.goto id) (Opcode.gotoW :: ofInt32 d)
  | jsrLong {id : NodeId} {d : Int32} : lands d.toInt id →
      Branches lands offset true (.jump Opcode.jsr id) (Opcode.jsrW :: ofInt32 d)
  | tableSwitch {isLong : Bool} {low d : Int32} {default : NodeId} {ids : List NodeId} {filler : List UInt8}
      {ds : List Int32} : filler.length < 4 → (offset + 1 + filler.length) % 4 = 0 → lands d.toInt default →
      List.Forall₂ (fun d id => lands d.toInt id) ds ids →
      Branches lands offset isLong (.tableSwitch low default ids)
        (Opcode.tableswitch :: (filler ++ (ofInt32 d ++ (ofInt32 low ++
          (ofInt32 (low + Int32.ofNat ids.length - 1) ++ (ds.map ofInt32).flatten)))))
  | lookupSwitch {isLong : Bool} {d : Int32} {default : NodeId} {keys : List Int32} {ids : List NodeId}
      {filler : List UInt8} {ds : List Int32} {count : UInt32} : filler.length < 4 →
      (offset + 1 + filler.length) % 4 = 0 → lands d.toInt default → count.toNat = ids.length →
      List.Forall₂ (fun d id => lands d.toInt id) ds ids →
      Branches lands offset isLong (.lookupSwitch default keys ids)
        (Opcode.lookupswitch :: (filler ++ (ofInt32 d ++ (ofUInt32 count ++
          ((keys.zip ds).map fun (key, d) => ofInt32 key ++ ofInt32 d).flatten))))
  | other {isLong : Bool} {insn : Insn} {bytes : List UInt8} : insn.targets = [] →
      Branches lands offset isLong insn bytes

theorem Code.padding_aligns (offset : Nat) : (offset + 1 + padding offset) % 4 = 0 := by
  unfold padding
  omega

theorem Code.padding_lt (offset : Nat) : padding offset < 4 := by
  unfold padding
  omega

section Writing

variable {offset : Nat} {distance : NodeId → Except Fault Int} {target : NodeId → Nat} {ids : List NodeId}
  {lands : Int → NodeId → Prop}

/-- The displacement from an offset to a target. -/
def Code.displacement (offset target : Nat) : Int32 := Int32.ofInt ((target : Int) - offset)

theorem Code.Reaches.forall_lands (hreach : Code.Reaches distance offset target ids)
    (hlands : ∀ id ∈ ids, lands ((target id : Int) - offset) id) :
    ∀ id ∈ ids, lands (Code.displacement offset (target id)).toInt id := by
  intro id hid
  obtain ⟨hlow, hhigh⟩ := hreach.inReach hid
  rw [Code.displacement, Int32.toInt_ofInt_of_le hlow hhigh]
  exact hlands id hid

/-- The displacements of the targets of a switch. -/
theorem Code.Reaches.forall₂_lands (hreach : Code.Reaches distance offset target ids)
    (hlands : ∀ id ∈ ids, lands ((target id : Int) - offset) id) :
    List.Forall₂ (fun d id => lands (Int32.toInt d) id)
      (ids.map fun id => Code.displacement offset (target id)) ids :=
  List.forall₂_map_left_iff.mpr (List.forall₂_same.mpr (hreach.forall_lands hlands))

theorem Insn.branches_tableSwitch {isLong : Bool} {low : Int32} {default : NodeId}
    (hreach : Code.Reaches distance offset target (default :: ids))
    (hlands : ∀ id ∈ default :: ids, lands ((target id : Int) - offset) id) {first content : List UInt8}
    (hfirst : longDisplacement <$> distance default = .ok first)
    (hcontent : concat (ids.map fun id => longDisplacement <$> distance id) = .ok content) :
    Branches lands offset isLong (.tableSwitch low default ids)
      (Opcode.tableswitch :: (List.replicate (Code.padding offset) 0 ++ (first ++ (ofInt32 low ++
        (ofInt32 (low + Int32.ofNat ids.length - 1) ++ content))))) := by
  rw [hreach.map_eq List.mem_cons_self] at hfirst
  rw [concat_map_of_forall fun id hid => hreach.map_eq (List.mem_cons_of_mem _ hid)] at hcontent
  cases hfirst
  cases hcontent
  have hdisplacements := hreach.forall₂_lands hlands
  rw [List.map_cons, List.forall₂_cons] at hdisplacements
  have hbranches := @Insn.Branches.tableSwitch lands offset isLong low _ default ids
    (List.replicate (Code.padding offset) 0) _ (by simpa using Code.padding_lt offset)
    (by simpa using Code.padding_aligns offset) hdisplacements.1 hdisplacements.2
  rwa [List.map_map] at hbranches

theorem Insn.branches_lookupSwitch {isLong : Bool} {default : NodeId} {keys : List Int32}
    (hkeys : keys.length = ids.length) (hcount : ids.length ≤ 65535)
    (hreach : Code.Reaches distance offset target (default :: ids))
    (hlands : ∀ id ∈ default :: ids, lands ((target id : Int) - offset) id) {first content : List UInt8}
    (hfirst : longDisplacement <$> distance default = .ok first)
    (hcontent : concat ((keys.zip ids).map fun pair =>
      (ofInt32 pair.1 ++ ·) <$> (longDisplacement <$> distance pair.2)) = .ok content) :
    Branches lands offset isLong (.lookupSwitch default keys ids)
      (Opcode.lookupswitch :: (List.replicate (Code.padding offset) 0 ++ (first ++
        (ofUInt32 keys.length.toUInt32 ++ content)))) := by
  have hpair : ∀ pair ∈ keys.zip ids, (ofInt32 pair.1 ++ ·) <$> (longDisplacement <$> distance pair.2) =
      .ok (ofInt32 pair.1 ++ ofInt32 (Code.displacement offset (target pair.2))) := by
    intro pair hpair
    rw [hreach.map_eq (List.mem_cons_of_mem _ (List.of_mem_zip hpair).2)]
    rfl
  rw [hreach.map_eq List.mem_cons_self] at hfirst
  rw [concat_map_of_forall hpair] at hcontent
  cases hfirst
  cases hcontent
  have hnumber : keys.length.toUInt32.toNat = ids.length := by
    rw [hkeys, Nat.toUInt32, UInt32.toNat_ofNat']
    exact Nat.mod_eq_of_lt (by omega)
  have hdisplacements := hreach.forall₂_lands hlands
  rw [List.map_cons, List.forall₂_cons] at hdisplacements
  have hbranches := @Insn.Branches.lookupSwitch lands offset isLong _ default keys ids
    (List.replicate (Code.padding offset) 0) _ _ (by simpa using Code.padding_lt offset)
    (by simpa using Code.padding_aligns offset) hdisplacements.1 hnumber hdisplacements.2
  rwa [List.zip_map_right, List.map_map] at hbranches

/-- The displacements that an instruction is written with lead to its targets. -/
theorem Insn.branches_write {insn : Insn} {index : UInt16} {isLong : Bool} {spelling : List UInt8}
    (hsized : insn.Sized) (hreach : Code.Reaches distance offset target insn.targets)
    (hlands : ∀ id ∈ insn.targets, lands ((target id : Int) - offset) id)
    (hjump : ∀ code id, insn = .jump code id → if isLong then code = Opcode.goto ∨ code = Opcode.jsr
      else Layout.isShort ((target id : Int) - offset) = true)
    (hsmall : spelling.length ≤ 65535) (h : insn.write offset index isLong distance = .ok spelling) :
    Insn.Branches lands offset isLong insn spelling := by
  have hlength := length_write hsized h
  cases insn with
  | jump code id =>
    obtain ⟨d, hd, h⟩ := bind_eq_ok.mp h
    rw [hreach.distance_eq id List.mem_cons_self] at hd
    cases hd
    cases h
    have hwidth := hjump code id rfl
    unfold writeJump
    cases isLong with
    | true =>
      have hlong := hreach.forall_lands hlands id List.mem_cons_self
      rcases hwidth with rfl | rfl
      · exact .gotoLong hlong
      · exact .jsrLong hlong
    | false =>
      have hshort : Layout.isShort ((target id : Int) - offset) = true := hwidth
      rw [Layout.isShort, Bool.and_eq_true, decide_eq_true_iff, decide_eq_true_iff] at hshort
      refine .short ?_
      rw [Int16.toInt_ofInt_of_le hshort.1 (by omega)]
      exact hlands id List.mem_cons_self
  | tableSwitch low default ids =>
    obtain ⟨first, hfirst, h⟩ := bind_eq_ok.mp h
    obtain ⟨content, hcontent, h⟩ := bind_eq_ok.mp h
    cases h
    simp only [List.cons_append, List.append_assoc]
    exact branches_tableSwitch hreach hlands hfirst hcontent
  | lookupSwitch default keys ids =>
    obtain ⟨first, hfirst, h⟩ := bind_eq_ok.mp h
    obtain ⟨content, hcontent, h⟩ := bind_eq_ok.mp h
    cases h
    rw [codeSize] at hlength
    simp only [List.cons_append, List.append_assoc]
    exact branches_lookupSwitch hsized (by omega) hreach hlands hfirst hcontent
  | _ => exact .other rfl

end Writing

/-! ## The code of a body -/

theorem Layout.size_offsetsFrom {l : Layout} {long : LongJumps} (count position offset : Nat) (done : Array Nat) :
    (l.offsetsFrom long count position offset done).size = done.size + count + 1 := by
  induction count generalizing position offset done with
  | zero => exact Array.size_push _
  | succ count ih =>
    rw [offsetsFrom_succ, ih, Array.size_push]
    omega

/-- A displacement from an offset leads to where a node of the list stands. -/
def InsnList.Lands (list : InsnList) (offsets : Array Nat) (offset : Nat) (displacement : Int) (id : NodeId) :
    Prop :=
  ∃ p < list.size, list.positions.find? id = some p ∧ (offset : Int) + displacement = offsets.getD p 0

/-- What is written at a position stands between its offset and the next one, behind all that is written ahead
of it, and its displacements lead to its targets. -/
def Layout.Emits (l : Layout) (long : LongJumps) (offsets : Array Nat) (code : List UInt8) (p : Nat) : Prop :=
  ∃ front part back, concat ((List.range p).map (l.writeAt long offsets)) = .ok front ∧
    l.writeAt long offsets p = .ok part ∧ code = front ++ (part ++ back) ∧
      front.length = offsets.getD p 0 ∧ (front ++ part).length = offsets.getD (p + 1) 0 ∧
        Insn.Branches (l.list.Lands offsets (offsets.getD p 0)) (offsets.getD p 0) (long.getD p false)
          (l.list.insnAt p) part

theorem Layout.emits {l : Layout} {long : LongJumps} {offsets : Array Nat} {code : List UInt8}
    (hpositions : l.positions = l.list.positions) (hsized : ∀ p < l.size, (l.list.insnAt p).Sized)
    (hsettled : l.Settled long offsets)
    (h : concat ((List.range l.size).map (l.writeAt long offsets)) = .ok code) {p : Nat} (hp : p < l.size) :
    l.Emits long offsets code p := by
  obtain ⟨front, part, back, hfront, hpart, hcode, hstart, hstop⟩ :=
    split_code hsized hsettled.offsets_eq h hp
  refine ⟨front, part, back, hfront, hpart, hcode, hstart, hstop, ?_⟩
  have hreach := hsettled.reaches hpositions hp (hsized p hp) hpart
  refine Insn.branches_write (hsized p hp) hreach (fun id hid => ?_)
    (fun code id hinsn => hsettled.width hp hinsn (hreach.distance_eq id ?_)) ?_ hpart
  · obtain ⟨_, hoffset, _⟩ := bind_eq_ok.mp (hreach.distance_eq id hid)
    obtain ⟨⟨q, hq⟩, _⟩ := offsetOf_eq_ok hoffset
    have htarget : l.targetOf offsets id = offsets.getD q 0 := by rw [targetOf, hq]
    rw [hpositions] at hq
    exact ⟨q, Positions.find?_lt hq, hq, by omega⟩
  · rw [hinsn]
    exact List.mem_singleton_self id
  · have hsmall := hsettled.le (Nat.succ_le_of_lt hp)
    rw [List.length_append] at hstop
    have : p.succ = p + 1 := rfl
    rw [this] at hsmall
    omega

/-- If loads, stores and lookup switches are made as their sizes take for granted, the rounds of widening end
by themselves. Code that is encoded is at most 65535 bytes long, and every position stands in it at its
offset, with displacements that lead to its targets. -/
theorem Body.encode_consistent {body : Body}
    (hsized : ∀ p < body.insns.size, (body.insns.insnAt p).Sized) :
    (∀ l : Layout, l.list = body.insns →
      ∃ n ≤ (body.insns.insns.filter Layout.mayGrow).size + 1, l.Settles n l.noneLong l.settle) ∧
    ∀ (pool pool' : ConstantPool) (encoded : EncodedCode),
      pool.edit body.encode = (.ok encoded, pool') →
        encoded.code.length ≤ 65535 ∧ encoded.offsets.size = body.insns.size + 1 ∧
          encoded.offsets.getD body.insns.size 0 = encoded.code.length ∧
          ∃ (l : Layout) (pool₁ : ConstantPool) (long : Layout.LongJumps),
            pool.edit (Layout.ofList body.insns) = (.ok l, pool₁) ∧ l.list = body.insns ∧
              l.settle = .ok (long, encoded.offsets) ∧
                ∀ p < body.insns.size, l.Emits long encoded.offsets encoded.code p := by
  refine ⟨fun l hlist => ?_, fun pool pool' encoded h => ?_⟩
  · rw [← hlist]
    exact l.settles_within
  · obtain ⟨l, pool₁, long, hlayout, hlist, hpositions, hsettle, hcode⟩ := laid_of_encode h
    have hsettled := Layout.settle_settled hsettle
    rw [← hlist] at hsized hpositions hlayout ⊢
    have hlength : encoded.offsets.getD l.list.size 0 = encoded.code.length := by
      obtain ⟨parts, hparts, hflatten⟩ := concat_map_eq_ok hcode
      rw [List.range_eq_range'] at hparts
      have htotal := Layout.length_parts hsized hsettled.offsets_eq (by omega) hparts
      rw [hsettled.offsets_eq, Layout.offsets_zero, Nat.zero_add, Nat.zero_add] at htotal
      rw [hsettled.offsets_eq, hflatten]
      exact htotal.symm
    have hsize : encoded.offsets.size = l.list.size + 1 := by
      rw [hsettled.offsets_eq, Layout.offsets, Layout.size_offsetsFrom, Array.size_empty, Nat.zero_add]
      rfl
    exact ⟨hlength ▸ hsettled.small, hsize, hlength, l, pool₁, long, hlayout, rfl, hsettle,
      fun p hp => Layout.emits hpositions hsized hsettled hcode hp⟩

/-! ### Two switches and a jump -/

def switchBody : Body where
  insns := ⟨#[.label, .var Opcode.aload 300, .lookupSwitch ⟨0⟩ [7] [⟨5⟩], .jump Opcode.goto ⟨0⟩,
    .tableSwitch 1 ⟨5⟩ [⟨0⟩], .label], #[⟨0⟩, ⟨1⟩, ⟨2⟩, ⟨3⟩, ⟨4⟩, ⟨5⟩]⟩
  regions := []
  locals := []
  maxStack := 1
  maxLocals := 301

theorem switchBody_sized : ∀ p < switchBody.insns.size, (switchBody.insns.insnAt p).Sized := by
  intro p hp
  have hp : p < 6 := hp
  obtain rfl | rfl | rfl | rfl | rfl | rfl : p = 0 ∨ p = 1 ∨ p = 2 ∨ p = 3 ∨ p = 4 ∨ p = 5 := by omega
  · trivial
  · exact (by decide : Code.isLocalAccess Opcode.aload = true)
  · exact (rfl : [(7 : Int32)].length = [(⟨5⟩ : NodeId)].length)
  · trivial
  · trivial
  · trivial

theorem Body.encode_consistent_switches :
    ∃ encoded pool', ConstantPool.empty.edit switchBody.encode = (.ok encoded, pool') ∧
      encoded.offsets = #[0, 0, 4, 24, 27, 44, 44] ∧ ∃ (l : Layout) (long : Layout.LongJumps),
        l.list = switchBody.insns ∧ (∃ n ≤ 2, l.Settles n l.noneLong l.settle) ∧
          ∀ p < 6, l.Emits long encoded.offsets encoded.code p := by
  have hencode : ConstantPool.empty.edit switchBody.encode =
      (.ok ⟨[196, 25, 1, 44, 171, 0, 0, 0, 255, 255, 255, 252, 0, 0, 0, 1, 0, 0, 0, 7, 0, 0, 0, 40, 167, 255, 232,
        170, 0, 0, 0, 17, 0, 0, 0, 1, 0, 0, 0, 1, 255, 255, 255, 229],
        #[0, 0, 4, 24, 27, 44, 44], [], [], []⟩, .empty) := by
    with_unfolding_all rfl
  obtain ⟨hrounds, hcode⟩ := Body.encode_consistent switchBody_sized
  obtain ⟨_, _, _, l, _, long, _, hlist, _, hemits⟩ := hcode _ _ _ hencode
  have hjumps : (switchBody.insns.insns.filter Layout.mayGrow).size = 1 := by decide +kernel
  rw [hjumps] at hrounds
  exact ⟨_, _, hencode, rfl, l, long, hlist, hrounds l hlist, hemits⟩

end DirectCall
