import DirectCall.Proofs.Code.Laid
import DirectCall.Proofs.Verification.Listing

/-!
# Stack map tables

In a body that was just pruned no jump target is out of reach. The table written for its stack map has a
frame exactly at the first instruction at or after each jump target and handler, so at least behind every
instruction that ends the flow, and reading the table gives the computed types slot for slot
(`StackMap.covers_of_pruned`).
-/

namespace DirectCall

open ConstantPool

namespace StackMap

/-- A frame of the table says of every slot what the computed frame says: each long and double takes a
second slot, and slots that are not listed hold nothing that could be used. -/
structure Reproduces (positions : Positions) (offsets : Array Nat) (slots : Nat)
    (computed : Nat × Frame VerificationType) (found : Nat × FullFrame) : Prop where
  offset : found.1 = offsets.getD computed.1 0
  locals : (found.2.locals.flatMap SlotType.slots).rightpad slots .top =
    computed.2.locals.toList.map (·.shown positions offsets)
  stack : found.2.stack = computed.2.stack.reverse.map (·.shown positions offsets)

/-- The frames of a table, with their offsets, are those of the stack map, and they stand where a verifier
wants them. -/
structure Covers (body : Body) (map : StackMap) (offsets : Array Nat) (found : List (Nat × FullFrame)) :
    Prop where
  increasing : found.Pairwise (·.1 < ·.1)
  mem_offsets : ∀ offset, offset ∈ found.map (·.1) ↔
    ∃ target ∈ frameTargets body, ∃ p, body.insns.Marks target p ∧ offsets.getD p 0 = offset
  /-- No frame is missing where control does not fall through from the instruction ahead. -/
  behind : ∀ p q, (body.insns.insnAt p).endsFlow = true → body.insns.IsNext (p + 1) q →
    offsets.getD q 0 ∈ found.map (·.1)
  reproduces : List.Forall₂ (Reproduces body.insns.positions offsets map.maxLocals.toNat) map.frames found

variable {h : Hierarchy} {m : MethodSig} {body : Body} {map : StackMap}
  {all : Frame.Frames VerificationType} {l : Layout} {long : Layout.LongJumps} {offsets : Array Nat}

theorem Computes.isReal (hmap : Computes h m body map all) {entry : Nat × Frame VerificationType}
    (hentry : entry ∈ map.frames) :
    entry.1 < body.insns.size ∧ (body.insns.insnAt entry.1).isReal = true := by
  obtain ⟨⟨target, _, _, _, hnext⟩, _⟩ := (hmap.mem_frames entry.1 entry.2).mp hentry
  exact ⟨hnext.lt, hnext.isReal⟩

/-- Laid out, frames at increasing positions stand at increasing offsets. -/
theorem Computes.pairwise_offsets (hmap : Computes h m body map all) (hlist : l.list = body.insns)
    (hsettled : l.Settled long offsets) :
    map.frames.Pairwise fun a b => offsets.getD a.1 0 < offsets.getD b.1 0 := by
  refine hmap.increasing.imp_of_mem fun ha hb hlt => ?_
  obtain ⟨_, hreal⟩ := hmap.isReal ha
  obtain ⟨hinside, _⟩ := hmap.isReal hb
  rw [hsettled.offsets_eq]
  refine Layout.offsets_lt long ?_ hlt (Nat.le_of_lt ?_)
  · rw [hlist]
    exact hreal
  · rw [Layout.size, hlist]
    exact hinside

theorem Computes.reproduces (hmap : Computes h m body map all) {found : List (Nat × FullFrame)}
    (hshows : List.Forall₂ (Shows body.insns.positions offsets) map.frames found) :
    List.Forall₂ (Reproduces body.insns.positions offsets map.maxLocals.toNat) map.frames found := by
  refine (List.forall₂_iff_get.mpr ⟨hshows.length_eq, fun i hi hi' => ?_⟩)
  have hentry := hshows.get hi hi'
  obtain ⟨_, hframe⟩ := (hmap.mem_frames _ _).mp (List.get_mem map.frames ⟨i, hi⟩)
  obtain ⟨hpaired, hsize⟩ := hmap.paired hframe
  refine ⟨hentry.offset, ?_, hentry.stack⟩
  rw [hentry.locals, ← hsize, ← Array.length_toList]
  refine rightpad_slots_listedLocals fun j v hv hwide => ?_
  rw [Array.getElem?_toList] at hv ⊢
  exact hpaired j v hv hwide

/-- The table of a body that was just pruned covers it, and reading it gives the computed frames. -/
theorem covers_of_pruned {before : Body} {removed : Nat}
    (hpruned : before.pruneUnreachable = .ok (body, removed)) (h : Hierarchy) (m : MethodSig) :
    (∀ p, compute h m body ≠ .error (.unreachableTarget p)) ∧
    ∀ (map : StackMap) (pool pool₁ pool₂ later : ConstantPool) (encoded : EncodedCode)
      (table : Option Attribute), compute h m body = .ok map → pool.size ≤ 65535 →
        pool.edit body.encode = (.ok encoded, pool₁) →
        pool₁.edit (map.attribute? body encoded.offsets) = (.ok table, pool₂) → pool₂.Grows later →
      (∀ a ∈ table, later.utf8 a.nameIndex = .ok "StackMapTable") ∧
      ∃ all found, Computes h m body map all ∧ readFrames later table = .ok found ∧
        Covers body map encoded.offsets found := by
  have hclean := (Body.pruneUnreachable_spec hpruned).clean
  refine ⟨fun p => compute_ne_unreachableTarget hclean, ?_⟩
  intro map pool pool₁ pool₂ later encoded table hcompute hsmall hencode htable hgrows
  obtain ⟨all, hmap⟩ := compute_spec hcompute
  obtain ⟨l, long, hlist, hsettled⟩ := Body.settled_of_encode hencode
  have hfits : ∀ p < body.insns.size, encoded.offsets.getD p 0 ≤ 65535 := by
    intro p hp
    rw [← hlist] at hp
    exact hsettled.le (Nat.le_of_lt hp)
  have hincreasing := hmap.pairwise_offsets hlist hsettled
  obtain ⟨hname, found, hfound, hshows⟩ :=
    readFrames_of_attribute? (body.adds_encode.grows hencode |>.small hsmall)
      (fun id p hp => hfits p (Positions.find?_lt hp)) (fun entry hentry => hfits _ (hmap.isReal hentry).1)
      hincreasing htable hgrows
  have hoffsets : map.frames.map (fun entry => encoded.offsets.getD entry.1 0) = found.map (·.1) := by
    rw [← List.forall₂_eq_eq_eq, List.forall₂_map_left_iff, List.forall₂_map_right_iff]
    exact hshows.imp fun _ _ hshow => hshow.offset.symm
  have hmem : ∀ offset, offset ∈ found.map (·.1) ↔
      ∃ target ∈ frameTargets body, ∃ p, body.insns.Marks target p ∧ encoded.offsets.getD p 0 = offset := by
    intro offset
    rw [← hoffsets]
    constructor
    · intro hoffset
      obtain ⟨entry, hentry, rfl⟩ := List.mem_map.mp hoffset
      obtain ⟨target, htarget, hmarks⟩ := hmap.mem_positions.mp (List.mem_map_of_mem hentry)
      exact ⟨target, htarget, entry.1, hmarks, rfl⟩
    · rintro ⟨target, htarget, p, hmarks, rfl⟩
      obtain ⟨entry, hentry, rfl⟩ := List.mem_map.mp (hmap.mem_positions.mpr ⟨target, htarget, hmarks⟩)
      exact List.mem_map.mpr ⟨entry, hentry, rfl⟩
  refine ⟨hname, all, found, hmap, hfound, ?_, hmem, fun p q hends hnext => ?_, hmap.reproduces hshows⟩
  · rw [← List.pairwise_map, ← hoffsets, List.pairwise_map]
    exact hincreasing
  · obtain ⟨target, htarget, hmarks⟩ := hmap.exists_marks hclean hends hnext
    exact (hmem _).mpr ⟨target, htarget, q, hmarks, rfl⟩

/-! ## A guard -/

/-- A method with a number that takes two slots. -/
def guardSig : MethodSig := ⟨"a/A", "m", "(J)V", 0⟩

/-- Returns at once, or jumps behind the return and from there to the end. -/
def guardBody : Body where
  insns := .ofInsns #[.var Opcode.lload 1, .op 0x09, .op 0x94, .jump 0x9A ⟨5⟩, .op Opcode.returnVoid,
    .label, .jump Opcode.goto ⟨7⟩, .label, .op Opcode.returnVoid]
  regions := []
  locals := []
  maxStack := 4
  maxLocals := 3

def guardMap : StackMap :=
  let frame := ⟨#[.object "a/A", .long, .top], []⟩
  ⟨4, 3, [(6, frame), (8, frame)]⟩

def guardEncoded : EncodedCode :=
  ⟨[31, 9, 148, 154, 0, 4, 177, 167, 0, 3, 177], #[0, 1, 2, 3, 6, 7, 7, 10, 10, 11], [], [], []⟩

def guardTable : Attribute :=
  ⟨3, [0, 2, 255, 0, 7, 0, 2, 7, 0, 2, 4, 0, 0, 255, 0, 2, 0, 2, 7, 0, 2, 4, 0, 0]⟩

def guardPool : ConstantPool := ⟨#[.unusable, .utf8 "a/A", .classRef 1, .utf8 "StackMapTable"]⟩

theorem pruneUnreachable_guard : guardBody.pruneUnreachable = .ok (guardBody, 0) := by
  have hgraph : (BlockGraph.ofBody guardBody).toOption = some ⟨[⟨0, 4⟩, ⟨4, 5⟩, ⟨5, 7⟩, ⟨7, 9⟩],
      [⟨0, 5, .branch⟩, ⟨0, 4, .fallThrough⟩, ⟨5, 7, .branch⟩]⟩ := by decide +kernel
  have hlive : guardBody.unreachable = .ok [] :=
    Body.unreachable_of_reachWithin 10 (ok_of_toOption hgraph) rfl rfl (by decide +kernel)
  exact Body.pruneRounds_of_live rfl hlive

theorem covers_of_pruned_guard : guardBody.pruneUnreachable = .ok (guardBody, 0) ∧
    compute (.freeze ∅) guardSig guardBody = .ok guardMap ∧
    ConstantPool.empty.edit guardBody.encode = (.ok guardEncoded, .empty) ∧
    ConstantPool.empty.edit (guardMap.attribute? guardBody guardEncoded.offsets) =
      (.ok (some guardTable), guardPool) ∧
    ∃ found, readFrames guardPool (some guardTable) = .ok found ∧
      Covers guardBody guardMap guardEncoded.offsets found ∧ found.map (·.1) = [7, 10] := by
  have hcompute : (compute (.freeze ∅) guardSig guardBody).toOption.map
      (fun map => (map.maxStack, map.maxLocals, map.frames)) =
        some (guardMap.maxStack, guardMap.maxLocals, guardMap.frames) := by decide +kernel
  have hencode : ConstantPool.empty.edit guardBody.encode = (.ok guardEncoded, .empty) := by
    with_unfolding_all rfl
  have htable : ConstantPool.empty.edit (guardMap.attribute? guardBody guardEncoded.offsets) =
      (.ok (some guardTable), guardPool) := by
    with_unfolding_all rfl
  have hmap : compute (.freeze ∅) guardSig guardBody = .ok guardMap := by
    obtain ⟨⟨_, _, _⟩, hmap, heq⟩ := Option.map_eq_some_iff.mp hcompute
    cases heq
    exact ok_of_toOption hmap
  obtain ⟨_, hcovers⟩ := covers_of_pruned pruneUnreachable_guard (.freeze ∅) guardSig
  obtain ⟨_, _, found, _, hfound, hcovered⟩ := hcovers guardMap .empty .empty guardPool guardPool guardEncoded
    (some guardTable) hmap (by decide) hencode htable (.refl _)
  have hoffsets : (readFrames guardPool (some guardTable)).toOption.map (·.map (·.1)) = some [7, 10] := by
    decide +kernel
  rw [hfound] at hoffsets
  exact ⟨pruneUnreachable_guard, hmap, hencode, htable, found, hfound, hcovered, Option.some.inj hoffsets⟩

end StackMap

end DirectCall
