import DirectCall.Proofs.Descriptor.Grammar
import DirectCall.Proofs.Frame.Halves
import DirectCall.Proofs.Verification.FrameFormat
import DirectCall.Proofs.Verification.Targets

/-!
# Listed locals

A frame lists its locals without the second halves of wide values and without unusable ones at the end.
Behind every wide local of a computed frame stands an unusable one (`Computes.paired`), so the list
says it all (`rightpad_slots_listedLocals`).
-/

namespace DirectCall

namespace VerificationType

/-! ## Wide types -/

theorem size_join {h : Hierarchy} {v w : VerificationType} (hwide : (join h v w).size = 2) :
    v.size = 2 ∧ w.size = 2 := by
  unfold join at hwide
  split_ifs at hwide with heq
  · exact ⟨hwide, heq ▸ hwide⟩
  · split at hwide
    · cases hwide
    · cases hwide
    · cases hwide
    · cases hwide

/-- What a constructor call replaces is an object that was not initialised, by one that is. -/
theorem mem_refine {owner : String} {insn : Insn} {operands : List VerificationType}
    {change : VerificationType × VerificationType} (h : change ∈ refine owner insn operands) :
    change.1 ≠ top ∧ change.2.size ≠ 2 := by
  unfold refine at h
  split at h
  · split_ifs at h
    · split at h
      · obtain rfl := List.mem_singleton.mp h
        exact ⟨nofun, nofun⟩
      · obtain rfl := List.mem_singleton.mp h
        exact ⟨nofun, nofun⟩
      · cases h
    · cases h
  · cases h

theorem keepsHalves (h : Hierarchy) (m : MethodSig) : Frame.KeepsHalves (domain h m) where
  unset := nofun
  receiver m' := by
    change (receiver m').size ≠ 2
    unfold receiver
    split_ifs
    · nofun
    · nofun
  joinUnset := rfl
  joinWide _ _ := size_join
  refine _ _ _ _ := mem_refine

theorem descriptorSize_of_chars {t : TypeText} {c : Char} {rest : List Char} (hchars : t.chars = c :: rest)
    (hlong : c ≠ 'J') (hdouble : c ≠ 'D') : Descriptor.size (some t.text) = 1 := by
  have hne : ∀ letter, c ≠ letter → t.text ≠ String.singleton letter := by
    intro letter hc heq
    have hlist := congrArg String.toList heq
    rw [TypeText.toList_text, hchars, String.toList_singleton] at hlist
    exact hc (List.cons.inj hlist).1
  have hwide : Descriptor.isWide t.text = false := by
    rw [Descriptor.isWide, Bool.or_eq_false_iff, beq_eq_false_iff_ne, beq_eq_false_iff_ne]
    exact ⟨hne 'J' hlong, hne 'D' hdouble⟩
  rw [Descriptor.size, hwide]
  rfl

/-- A parameter takes as many slots as its type. -/
theorem size_ofDescriptor {t : TypeText} (ht : t.WellFormed) :
    (ofDescriptor t.text).size = Descriptor.size (some t.text) := by
  cases t with
  | void => rfl
  | primitive p =>
    cases p with
    | _ => rfl
  | object name =>
    rw [descriptorSize_of_chars (c := 'L') rfl (by decide) (by decide), ofDescriptor, TypeText.text,
      String.toList_ofList]
    rfl
  | array dimensions element =>
    obtain ⟨count, rfl⟩ := Nat.exists_eq_add_one.mpr ht.1
    rw [descriptorSize_of_chars (c := '[') rfl (by decide) (by decide), ofDescriptor, TypeText.text,
      String.toList_ofList]
    rfl

end VerificationType

namespace StackMap

open VerificationType (domain)

/-! ## Computed frames -/

theorem le_requiredLocals {m : MethodSig} {body : Body} {parsed : MethodDescriptor} {maxLocals : UInt16}
    (hparsed : MethodDescriptor.parse m.descriptor = .ok parsed)
    (h : requiredLocals m body = .ok maxLocals) : Frame.entrySlots m parsed ≤ maxLocals.toNat := by
  have hfold : ∀ (insns : Array Insn) (n : Nat),
      n ≤ insns.foldl (fun n insn => max n (localsEnd insn)) n := by
    intro insns n
    rw [← Array.foldl_toList]
    induction insns.toList generalizing n with
    | nil => exact Nat.le_refl n
    | cons insn rest ih => exact Nat.le_trans (Nat.le_max_left _ _) (ih _)
  have hused := hfold body.insns.insns (Frame.entrySlots m parsed)
  unfold requiredLocals at h
  rw [hparsed] at h
  dsimp only at h
  split_ifs at h with hneeded
  obtain rfl := Except.ok.inj h
  rw [Nat.toUInt16_eq, UInt16.toNat_ofNat']
  omega

/-- A computed frame has all the locals of the method, and behind every wide one an unusable one. -/
theorem Computes.paired {h : Hierarchy} {m : MethodSig} {body : Body} {map : StackMap}
    {all : Frame.Frames VerificationType} (hmap : Computes h m body map all) {p : Nat}
    {f : Frame VerificationType} (hf : all.getD p none = some f) :
    Frame.Paired (domain h m) f.locals ∧ f.locals.size = map.maxLocals.toNat := by
  obtain ⟨_, entry, _, hentry, _⟩ := Frame.analyze_closed (Frame.Progress.joinBounds_true _) hmap.analysed
  have hparams : ∀ parsed, MethodDescriptor.parse m.descriptor = .ok parsed → ∀ p ∈ parsed.params,
      ((domain h m).ofDescriptor (some p)).size = Descriptor.size (some p) := by
    intro parsed hparsed param hparam
    obtain ⟨ts, _, hts, _, _, rfl⟩ := MethodDescriptor.parse_sound hparsed
    obtain ⟨t, ht, rfl⟩ := List.mem_map.mp hparam
    exact VerificationType.size_ofDescriptor (hts t ht)
  have hentryPaired := Frame.Paired.entry (VerificationType.keepsHalves h m) hparams hentry
  obtain ⟨hpaired, hsize⟩ :=
    Frame.locals_of_analyze (VerificationType.keepsHalves h m) hmap.analysed hentry hentryPaired hf
  obtain ⟨parsed, hparsed, hslots⟩ := Frame.entry_locals_size hentry
  refine ⟨hpaired, ?_⟩
  rw [hsize, hslots, Nat.max_eq_left (le_requiredLocals hparsed hmap.required)]

/-! ## Lists -/

section Lists

variable {positions : Positions} {offsets : Array Nat} {locals : List VerificationType}

/-- Behind every wide type of the list stands an unusable one. -/
def PairedList (locals : List VerificationType) : Prop :=
  ∀ i v, locals[i]? = some v → v.size = 2 → locals[i + 1]? = some .top

theorem PairedList.tail {v : VerificationType} (h : PairedList (v :: locals)) : PairedList locals :=
  fun i w hw hwide => h (i + 1) w hw hwide

theorem slots_shown (v : VerificationType) : (v.shown positions offsets).slots =
    if v.size = 2 then [v.shown positions offsets, .top] else [v.shown positions offsets] := by
  cases v with
  | _ => rfl

/-- With their second slots, the values listed are all the locals. -/
theorem slots_withoutSecondHalves (h : PairedList locals) :
    ((withoutSecondHalves locals).map (·.shown positions offsets)).flatMap SlotType.slots =
      locals.map (·.shown positions offsets) := by
  fun_induction withoutSecondHalves locals with
  | case1 => rfl
  | case2 v =>
    have hnarrow : v.size ≠ 2 := fun hwide => nomatch h 0 v rfl hwide
    simp [slots_shown, hnarrow]
  | case3 v w rest hwide ih =>
    obtain rfl : w = .top := Option.some.inj (h 0 v rfl hwide)
    rw [List.map_cons, List.flatMap_cons, ih h.tail.tail, slots_shown, if_pos hwide]
    rfl
  | case4 v w rest hnarrow ih =>
    rw [List.map_cons, List.flatMap_cons, ih h.tail, slots_shown, if_neg hnarrow]
    rfl

/-- What is not listed at the end is unusable. -/
theorem exists_replicate_top (locals : List VerificationType) :
    ∃ count, withoutSecondHalves locals = listedLocals locals ++ List.replicate count .top := by
  unfold listedLocals
  generalize (withoutSecondHalves locals) = types
  have htop : ∀ v ∈ types.reverse.takeWhile (· = .top), v = .top := fun v hv =>
    of_decide_eq_true (List.mem_takeWhile_imp (p := fun v => decide (v = VerificationType.top)) hv)
  refine ⟨(types.reverse.takeWhile (· = .top)).length, ?_⟩
  calc types = (types.reverse.takeWhile (· = .top) ++ types.reverse.dropWhile (· = .top)).reverse := by
        rw [List.takeWhile_append_dropWhile, List.reverse_reverse]
    _ = _ := by
        rw [List.reverse_append, List.eq_replicate_of_mem htop, List.reverse_replicate,
          List.length_replicate]

/-- Filled up to the number of locals, the list shows every one of them. -/
theorem rightpad_slots_listedLocals (h : PairedList locals) :
    (((listedLocals locals).map (·.shown positions offsets)).flatMap SlotType.slots).rightpad locals.length
      .top = locals.map (·.shown positions offsets) := by
  obtain ⟨count, hcount⟩ := exists_replicate_top locals
  have hall := @slots_withoutSecondHalves positions offsets locals h
  have htop : ∀ count, (List.replicate count VerificationType.top).flatMap
      (fun v => (v.shown positions offsets).slots) = List.replicate count .top := by
    intro count
    induction count with
    | zero => rfl
    | succ count ih =>
      rw [List.replicate_succ, List.flatMap_cons, ih]
      rfl
  rw [hcount, List.map_append, List.flatMap_append, List.flatMap_map _ _ (List.replicate _ _), htop] at hall
  have hlength := congrArg List.length hall
  rw [List.length_append, List.length_replicate, List.length_map] at hlength
  rw [List.rightpad, ← hall, ← hlength, Nat.add_sub_cancel_left]

end Lists

end StackMap

end DirectCall
