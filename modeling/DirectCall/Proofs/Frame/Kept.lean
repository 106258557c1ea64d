import DirectCall.Proofs.Frame.Halves
import DirectCall.Proofs.Frame.Measured
import DirectCall.Proofs.Frame.Staged

/-!
# Frames that keep some values

A frame keeps some of the values that the source analysis knows if it has values of the same widths in their place
(`Keeps`). An instruction that can do with the top of the stack, and that reads only a local that is kept, does the
same to such a frame, whatever lies below (`KeepsLocals.execute`). A method starts in such a frame also when it has
more locals than the analysis knew (`keepsLocals_entry`).
-/

namespace DirectCall

/-- The local that an instruction reads. -/
def Insn.readSlot? : Insn → Option Nat
  | .var code slot => if Opcode.between Opcode.iload Opcode.aload code then some slot.toNat else none
  | .iinc slot _ => some slot.toNat
  | _ => none

theorem Opcode.between_of_effect_load : ∀ code : UInt8, effect code = .load → between iload aload code = true := by
  apply Code.forall_byte
  decide +kernel

namespace Frame

variable {V : Type}

/-! ## Stores -/

section Store

variable {d : Domain V} {f g : Frame V} {var : Nat} {v : V}

theorem getElem?_cutWide (d : Domain V) (locals : Array V) (j i : Nat) :
    (cutWide d locals j)[i]? = if i = j ∧ ∃ w, locals[i]? = some w ∧ d.size w = 2 then some (d.ofDescriptor none)
      else locals[i]? := by
  unfold cutWide
  split
  · rename_i w hw
    split_ifs with hwide hcut hcut
    · rw [getElem?_set (Array.getElem?_eq_some_iff.mp hw).1, if_pos hcut.1]
    · rw [getElem?_set (Array.getElem?_eq_some_iff.mp hw).1, if_neg]
      rintro rfl
      exact hcut ⟨rfl, w, hw, hwide⟩
    · obtain ⟨rfl, w', hw', hwide'⟩ := hcut
      obtain rfl := Option.some.inj (hw.symm.trans hw')
      exact absurd hwide' hwide
    · rfl
  · rename_i hnone
    rw [if_neg]
    rintro ⟨rfl, w, hw, _⟩
    rw [hnone] at hw
    cases hw

/-- A store has room if both slots are there. -/
theorem setLocal_ok_iff : (∃ g, f.setLocal d var v = .ok g) ↔
    (if d.size v = 2 then var + 1 else var) < f.locals.size := by
  simp only [setLocal]
  by_cases hlast : (if d.size v = 2 then var + 1 else var) < f.locals.size
  · simp [hlast]
  · simp [hlast]

/-- What is in each slot behind a store. -/
theorem getElem?_setLocal (h : f.setLocal d var v = .ok g) (i : Nat) :
    g.locals[i]? = if i = var then some v
      else if d.size v = 2 ∧ i = var + 1 then some (d.ofDescriptor none)
      else if i + 1 = var ∧ ∃ w, f.locals[i]? = some w ∧ d.size w = 2 then some (d.ofDescriptor none)
      else f.locals[i]? := by
  have hlast := setLocal_ok_iff.mp ⟨g, h⟩
  have hcut : ∀ locals, (if 0 < var then cutWide d f.locals (var - 1) else f.locals) = locals →
      locals.size = f.locals.size ∧ locals[i]? = if i + 1 = var ∧ ∃ w, f.locals[i]? = some w ∧ d.size w = 2
        then some (d.ofDescriptor none) else f.locals[i]? := by
    rintro _ rfl
    split_ifs with hpos hcut hcut
    · refine ⟨cutWide_size _ _ _, ?_⟩
      rw [getElem?_cutWide, if_pos ⟨by omega, hcut.2⟩]
    · refine ⟨cutWide_size _ _ _, ?_⟩
      rw [getElem?_cutWide, if_neg fun hcut' => hcut ⟨by omega, hcut'.2⟩]
    · omega
    · exact ⟨rfl, rfl⟩
  simp only [setLocal, if_pos hlast, Except.ok.injEq] at h
  subst h
  generalize hlocals : (if 0 < var then cutWide d f.locals (var - 1) else f.locals) = locals
  obtain ⟨hsize, hget⟩ := hcut locals hlocals
  by_cases hwide : d.size v = 2
  · rw [if_pos hwide] at hlast
    simp only [hwide, if_true, true_and]
    rw [getElem?_set (by rw [Array.size_setIfInBounds]; omega), getElem?_set (by omega), hget]
    by_cases hi : i = var
    · rw [if_neg (by omega), if_pos hi, if_pos hi]
    · rw [if_neg hi, if_neg hi]
  · rw [if_neg hwide] at hlast
    simp only [hwide, if_false, false_and]
    rw [getElem?_set (by omega), hget]

/-- A store does not look at the stack. -/
theorem setLocal_withStack {locals : Array V} {stack : List V} (h : setLocal d ⟨locals, stack⟩ var v = .ok g)
    (stack' : List V) : setLocal d ⟨locals, stack'⟩ var v = .ok ⟨g.locals, stack'⟩ := by
  simp only [setLocal] at h ⊢
  split_ifs at h ⊢ <;> obtain rfl := Except.ok.inj h <;> rfl

end Store

/-! ## Instructions above other values -/

section Above

variable {d : Domain V} {id : NodeId} {insn : Insn} {code : UInt8}

/-- What an instruction does, it does above any other values. -/
theorem step_above {locals : Array V} {top : List V} {s : Step V} (h : step d id insn code ⟨locals, top⟩ = .ok s)
    (rest : List V) :
    step d id insn code ⟨locals, top ++ rest⟩ = .ok (s.1, ⟨s.2.locals, s.2.stack ++ rest⟩) := by
  by_cases hstore : Opcode.effect code = .store
  · unfold step at h ⊢
    rw [hstore] at h ⊢
    obtain ⟨var, a, below, g, hvar, hstack, hset, rfl⟩ := stepStore_eq_ok.mp h
    obtain rfl : top = a :: below := hstack
    have hstays : g.stack = below := setLocal_stack hset
    refine stepStore_eq_ok.mpr ⟨var, a, below ++ rest, _, hvar, rfl, setLocal_withStack hset _, ?_⟩
    rw [hstays]
  by_cases hincrement : Opcode.effect code = .increment
  · unfold step at h ⊢
    rw [hincrement] at h ⊢
    obtain ⟨var, delta, v, g, rfl, hv, hset, rfl⟩ := stepIncrement_eq_ok.mp h
    have hstays : g.stack = top := setLocal_stack hset
    refine stepIncrement_eq_ok.mpr ⟨var, delta, v, _, rfl, hv, setLocal_withStack hset _, ?_⟩
    rw [hstays]
  · rw [step_locals_of_effect hstore hincrement h]
    exact step_onto hstore hincrement h (fun _ _ _ => rfl) rest

end Above

end Frame

open SourceValue

namespace Frame

variable {V : Type} {d : Domain V} {size : Nat} {id : NodeId} {insn : Insn}

theorem execute_above {locals : Array SourceValue} {top : List SourceValue} {left : Frame SourceValue}
    (h : Frame.execute (domain size) id insn ⟨locals, top⟩ = .ok left) (rest : List SourceValue) :
    Frame.execute (domain size) id insn ⟨locals, top ++ rest⟩ = .ok ⟨left.locals, left.stack ++ rest⟩ := by
  rcases execute_eq_ok.mp h with ⟨hcode, rfl⟩ | ⟨code, operands, hcode, hstep⟩
  · exact execute_eq_ok.mpr (.inl ⟨hcode, rfl⟩)
  · exact execute_eq_ok.mpr (.inr ⟨code, operands, hcode, step_above hstep rest⟩)

/-! ## Frames that keep some values -/

/-- Locals in which some of the known values are kept: they are as wide as is known. Behind the known locals all
are narrow. -/
structure KeepsLocals (d : Domain V) (kept : SourceValue → Bool) (known : Array SourceValue) (locals : Array V) :
    Prop where
  size : known.size ≤ locals.size
  width : ∀ (i : Nat) v w, known[i]? = some v → kept v = true → locals[i]? = some w → d.size w = v.size
  fresh : ∀ (i : Nat) w, known.size ≤ i → locals[i]? = some w → d.size w = 1

/-- A frame with so many locals, some of which are known, and with a stack of these widths. -/
structure Keeps (d : Domain V) (kept : SourceValue → Bool) (count : Nat) (known : Array SourceValue)
    (stack : List Nat) (f : Frame V) : Prop where
  stack : f.stack.map d.size = stack
  count : f.locals.size = count
  locals : KeepsLocals d kept known f.locals

variable {kept : SourceValue → Bool} {count : Nat} {known known' : Array SourceValue} {stack : List Nat}
  {locals locals' : Array V} {f : Frame V}

theorem KeepsLocals.of_widths (h : KeepsLocals d kept known locals)
    (hwidths : locals.toList.map d.size = locals'.toList.map d.size) : KeepsLocals d kept known locals' := by
  have hsize : locals.size = locals'.size := by
    simpa using congrArg List.length hwidths
  have hget : ∀ (i : Nat) w', locals'[i]? = some w' → ∃ w, locals[i]? = some w ∧ d.size w = d.size w' := by
    intro i w' hw'
    have hi := congrArg (·[i]?) hwidths
    simp only [List.getElem?_map, Array.getElem?_toList, hw', Option.map_some, Option.map_eq_some_iff] at hi
    exact hi
  refine ⟨hsize ▸ h.size, fun i v w' hv hkept hw' => ?_, fun i w' hi hw' => ?_⟩
  · obtain ⟨w, hw, heq⟩ := hget i w' hw'
    rw [← heq, h.width i v w hv hkept hw]
  · obtain ⟨w, hw, heq⟩ := hget i w' hw'
    rw [← heq, h.fresh i w hi hw]

/-- Less may be known. -/
theorem KeepsLocals.mono (h : KeepsLocals d kept known locals) (hsize : known'.size = known.size)
    (hknown : ∀ (i : Nat) v', known'[i]? = some v' → kept v' = true →
      ∃ v, known[i]? = some v ∧ kept v = true ∧ v.size = v'.size) :
    KeepsLocals d kept known' locals := by
  refine ⟨hsize ▸ h.size, fun i v' w hv' hkept hw => ?_, fun i w hi => h.fresh i w (hsize ▸ hi)⟩
  obtain ⟨v, hv, hkept', heq⟩ := hknown i v' hv' hkept
  rw [← heq, h.width i v w hv hkept' hw]

theorem Keeps.steady (hd : d.Measured) : Steady d (Keeps d kept count known stack) := by
  intro f g hf hg
  have hheights : f.stack.length = g.stack.length := by
    simpa using congrArg List.length (hf.stack.trans hg.stack.symm)
  refine ⟨hheights, fun joined hjoined => ?_⟩
  unfold Frame.join at hjoined
  rw [if_pos hheights] at hjoined
  obtain rfl := Except.ok.inj hjoined
  have hget : ∀ (i : Nat) u, (Array.zipWith d.join f.locals g.locals)[i]? = some u →
      ∃ v w, f.locals[i]? = some v ∧ g.locals[i]? = some w ∧ u = d.join v w := by
    intro i u hu
    rw [Array.getElem?_zipWith_eq_some] at hu
    obtain ⟨v, w, hv, hw, rfl⟩ := hu
    exact ⟨v, w, hv, hw, rfl⟩
  refine ⟨?_, by simp [hf.count, hg.count], by simp [hf.count, ← hg.count, hg.locals.size], ?_, ?_⟩
  · have hwidths := List.forall₂_iff_get.mp (forall₂_width.mpr (hf.stack.trans hg.stack.symm))
    rw [← hf.stack]
    refine List.ext_getElem (by simp [hheights]) fun i hi hi' => ?_
    simp only [List.getElem_map, List.getElem_zipWith]
    exact hd.join _ _ (hwidths.2 i (by simpa using hi') (by simp only [List.length_map] at hi'; omega))
  · intro i v u hv hkept hu
    obtain ⟨x, y, hx, hy, rfl⟩ := hget i u hu
    have hxwidth := hf.locals.width i v x hv hkept hx
    rw [hd.join x y (hxwidth.trans (hg.locals.width i v y hv hkept hy).symm), hxwidth]
  · intro i u hi hu
    obtain ⟨x, y, hx, hy, rfl⟩ := hget i u hu
    have hxwidth := hf.locals.fresh i x hi hx
    rw [hd.join x y (hxwidth.trans (hg.locals.fresh i y hi hy).symm), hxwidth]

/-! ## Instructions on what is kept -/

/-- Locals with the widths of others. Where these are as wide as known values, the known ones stand. -/
def shadow (d : Domain V) (known : Array SourceValue) (locals : Array V) : Array SourceValue :=
  locals.mapIdx fun i w =>
    match known[i]? with
    | some v => if v.size = d.size w then v else ⟨d.size w, []⟩
    | none => ⟨d.size w, []⟩

theorem map_size_shadow (d : Domain V) (known : Array SourceValue) (locals : Array V) :
    (shadow d known locals).toList.map (domain size).size = locals.toList.map d.size := by
  refine List.ext_getElem (by simp [shadow]) fun i hi hi' => ?_
  simp only [shadow, List.getElem_map, Array.getElem_toList, Array.getElem_mapIdx]
  split
  · split_ifs with heq
    · exact heq
    · rfl
  · rfl

theorem getElem?_shadow {var : Nat} {v : SourceValue} {w : V} (hv : known[var]? = some v)
    (hw : locals[var]? = some w) (hsize : d.size w = v.size) : (shadow d known locals)[var]? = known[var]? := by
  rw [shadow, Array.getElem?_mapIdx, hw, Option.map_some, hv]
  simp [hsize]

section Execute

variable [DecidableEq V]

/-- Marks change nothing; all else does what its opcode does. -/
theorem execute_eq_of_none (hcode : insn.opcode? = none) (f : Frame V) : f.execute d id insn = .ok f := by
  rw [execute, hcode]

/-- An instruction does to the widths of a frame what it does to those of another one with the same widths. -/
theorem execute_widths (hd : d.Measured) {g left : Frame SourceValue}
    (hwidths : g.stack.map (domain size).size = f.stack.map d.size)
    (hlocals : g.locals.toList.map (domain size).size = f.locals.toList.map d.size)
    (h : g.execute (domain size) id insn = .ok left) :
    ∃ after, f.execute d id insn = .ok after ∧ left.stack.map (domain size).size = after.stack.map d.size ∧
      left.locals.toList.map (domain size).size = after.locals.toList.map d.size := by
  rcases execute_eq_ok.mp h with ⟨hcode, rfl⟩ | ⟨code, operands, hcode, hstep⟩
  · exact ⟨f, execute_eq_of_none hcode f, hwidths, hlocals⟩
  · have hsame : SameWidths (domain size) d g f := ⟨forall₂_width.mpr hlocals, forall₂_width.mpr hwidths⟩
    obtain ⟨s, hs, _, hleft⟩ := step_sim ((measured size).sim hd) hsame (fun _ => hsame) hstep
    obtain ⟨after, hafter, hrefined⟩ := execute_of_step_widths hd hcode hs
    exact ⟨after, hafter, (forall₂_width.mp hleft.stack).trans (forall₂_width.mp hrefined.stack),
      (forall₂_width.mp hleft.locals).trans (forall₂_width.mp hrefined.locals)⟩

/-- What an instruction does that writes no local, it does on top of other values with the same widths, if the
local that it reads is as wide. -/
theorem execute_onto (hd : d.Measured) {top : List SourceValue} {left : Frame SourceValue}
    (hstore : ∀ code, insn.opcode? = some code → Opcode.effect code ≠ .store ∧ Opcode.effect code ≠ .increment)
    (h : Frame.execute (domain size) id insn ⟨known, top⟩ = .ok left) {base : List Nat}
    (hstack : f.stack.map d.size = top.map (·.size) ++ base)
    (hread : ∀ var, insn.readSlot? = some var → ∀ v, known[var]? = some v →
      ∃ w, f.locals[var]? = some w ∧ d.size w = v.size) :
    left.locals = known ∧ ∃ after, f.execute d id insn = .ok after ∧
      after.stack.map d.size = left.stack.map (·.size) ++ base ∧
      f.locals.toList.map d.size = after.locals.toList.map d.size := by
  rcases execute_eq_ok.mp h with ⟨hcode, rfl⟩ | ⟨code, operands, hcode, hstep⟩
  · exact ⟨rfl, f, execute_eq_of_none hcode f, hstack, rfl⟩
  · obtain ⟨hstore, hincrement⟩ := hstore code hcode
    have hlocals := step_locals_of_effect hstore hincrement hstep
    refine ⟨hlocals, ?_⟩
    have hload : Opcode.effect code = .load → ∀ var, localOperand insn = .ok var →
        (shadow d known f.locals)[var]? = known[var]? := by
      intro hload var hvar
      cases insn with
      | var code' slot =>
        obtain rfl := Option.some.inj hcode
        obtain rfl := Except.ok.inj hvar
        unfold step at hstep
        rw [hload] at hstep
        obtain ⟨_, hvar', hstep⟩ := bind_eq_ok.mp hstep
        obtain rfl := Except.ok.inj hvar'
        obtain ⟨v, hv, _⟩ := bind_eq_ok.mp hstep
        rw [getLocal_eq_ok] at hv
        obtain ⟨w, hw, hsize⟩ := hread slot.toNat (if_pos (Opcode.between_of_effect_load _ hload)) v hv
        exact getElem?_shadow hv hw hsize
      | _ => cases hvar
    have hshadow := step_onto hstore hincrement hstep hload (base.map fun width => ⟨width, []⟩)
    have hexecute := execute_eq_ok.mpr (.inr ⟨code, _, hcode, hshadow⟩)
    obtain ⟨after, hafter, hstack', hlocals'⟩ := execute_widths hd (f := f) (by
      rw [hstack, List.map_append, List.map_map]
      exact congrArg (_ ++ ·) (List.map_id base)) (map_size_shadow d known f.locals) hexecute
    refine ⟨after, hafter, ?_, ?_⟩
    · rw [← hstack', List.map_append, List.map_map]
      exact congrArg (_ ++ ·) (List.map_id base)
    · rw [← hlocals', map_size_shadow]

omit [DecidableEq V] in
/-- A store of an equally wide value keeps what is known of the locals. -/
theorem KeepsLocals.setLocal (hd : d.Measured) (hsizes : ∀ v : V, d.size v = 1 ∨ d.size v = 2)
    (h : KeepsLocals d kept known f.locals) {var : Nat} {v : SourceValue} {w : V} (hsize : d.size w = v.size)
    {stack : List SourceValue} {left : Frame SourceValue}
    (hleft : Frame.setLocal (domain size) ⟨known, stack⟩ var v = .ok left) :
    ∃ after, f.setLocal d var w = .ok after ∧ KeepsLocals d kept left.locals after.locals := by
  have hlast := setLocal_ok_iff.mp ⟨left, hleft⟩
  change (if v.size = 2 then var + 1 else var) < known.size at hlast
  have hcount := setLocal_locals_size hleft
  have hknown := h.size
  have hunset : d.size (d.ofDescriptor none) = 1 := hd.ofDescriptor none
  obtain ⟨after, hafter⟩ : ∃ after, f.setLocal d var w = .ok after := setLocal_ok_iff.mpr (by
    rw [hsize]
    omega)
  refine ⟨after, hafter, ?_, fun i v' w' hv' hkept hw' => ?_, fun i w' hi hw' => ?_⟩
  · rw [hcount, setLocal_locals_size hafter]
    exact hknown
  · rw [getElem?_setLocal hleft] at hv'
    rw [getElem?_setLocal hafter, hsize] at hw'
    change (if i = var then some v else if v.size = 2 ∧ i = var + 1 then some (unset none)
      else if i + 1 = var ∧ ∃ u, known[i]? = some u ∧ u.size = 2 then some (unset none) else known[i]?) = some v' at hv'
    by_cases hvar : i = var
    · rw [if_pos hvar] at hv' hw'
      obtain rfl := Option.some.inj hv'
      obtain rfl := Option.some.inj hw'
      exact hsize
    rw [if_neg hvar] at hv' hw'
    by_cases hsecond : v.size = 2 ∧ i = var + 1
    · rw [if_pos hsecond] at hv' hw'
      obtain rfl := Option.some.inj hv'
      obtain rfl := Option.some.inj hw'
      exact hunset
    rw [if_neg hsecond] at hv' hw'
    by_cases hcut : i + 1 = var ∧ ∃ u, known[i]? = some u ∧ u.size = 2
    · -- A wide value that is cut in half is lost, and a narrow one stays.
      rw [if_pos hcut] at hv'
      obtain rfl := Option.some.inj hv'
      split_ifs at hw' with hcut'
      · obtain rfl := Option.some.inj hw'
        exact hunset
      · exact (hsizes w').resolve_right fun hwide => hcut' ⟨hcut.1, w', hw', hwide⟩
    · rw [if_neg hcut] at hv'
      split_ifs at hw' with hcut'
      · obtain ⟨hi, u, hu, hwide⟩ := hcut'
        rw [h.width i v' u hv' hkept hu] at hwide
        exact absurd ⟨hi, v', hv', hwide⟩ hcut
      · exact h.width i v' w' hv' hkept hw'
  · rw [hcount] at hi
    change known.size ≤ i at hi
    rw [getElem?_setLocal hafter, hsize] at hw'
    rw [if_neg (by split_ifs at hlast <;> omega), if_neg (by rintro ⟨hwide, rfl⟩; rw [if_pos hwide] at hlast; omega),
      if_neg (by rintro ⟨rfl, _⟩; split_ifs at hlast <;> omega)] at hw'
    exact h.fresh i w' hi hw'

/-- What a step leaves of widths is left by its instruction. -/
theorem KeepsLocals.execute_of_step (hd : d.Measured) {code : UInt8} (hcode : insn.opcode? = some code) {s : Step V}
    (hs : f.step d id insn code = .ok s) (hcount : s.2.locals.size = f.locals.size) {left : Array SourceValue}
    (hkeeps : KeepsLocals d kept left s.2.locals) : ∃ after, f.execute d id insn = .ok after ∧
      after.stack.map d.size = s.2.stack.map d.size ∧ after.locals.size = f.locals.size ∧
        KeepsLocals d kept left after.locals := by
  obtain ⟨after, hafter, hsame⟩ := execute_of_step_widths hd hcode hs
  exact ⟨after, hafter, (forall₂_width.mp hsame.stack).symm, hsame.locals_size.symm.trans hcount,
    hkeeps.of_widths (forall₂_width.mp hsame.locals)⟩

theorem KeepsLocals.execute_store (hd : d.Measured) (hsizes : ∀ v : V, d.size v = 1 ∨ d.size v = 2)
    (h : KeepsLocals d kept known f.locals) {code : UInt8} (hcode : insn.opcode? = some code)
    (hstore : Opcode.effect code = .store) {top : List SourceValue} {s : Step SourceValue}
    (hstep : step (domain size) id insn code ⟨known, top⟩ = .ok s) {base : List Nat}
    (hstack : f.stack.map d.size = top.map (·.size) ++ base) :
    ∃ after, f.execute d id insn = .ok after ∧ after.stack.map d.size = s.2.stack.map (·.size) ++ base ∧
      after.locals.size = f.locals.size ∧ KeepsLocals d kept s.2.locals after.locals := by
  unfold step at hstep
  rw [hstore] at hstep
  obtain ⟨var, a, below, g, hvar, htop, hset, rfl⟩ := stepStore_eq_ok.mp hstep
  obtain rfl : top = a :: below := htop
  obtain ⟨b, rest, hb, hsize, hrest⟩ := List.map_eq_cons_iff.mp hstack
  have h' : KeepsLocals d kept known (⟨f.locals, rest⟩ : Frame V).locals := h
  obtain ⟨stored, hstored, hkeeps⟩ := h'.setLocal hd hsizes (v := (domain size).copy id insn a)
    (w := d.copy id insn b) ((hd.copy id insn b).trans hsize) hset
  have hs : f.step d id insn code = .ok ([b], stored) := by
    unfold step
    rw [hstore]
    exact stepStore_eq_ok.mpr ⟨var, b, rest, stored, hvar, hb, hstored, rfl⟩
  obtain ⟨after, hafter, hstack', hrest'⟩ :=
    KeepsLocals.execute_of_step hd hcode hs (setLocal_locals_size (f := ⟨f.locals, rest⟩) hstored) hkeeps
  refine ⟨after, hafter, ?_, hrest'⟩
  rw [hstack', setLocal_stack hstored, setLocal_stack hset]
  exact hrest

theorem KeepsLocals.execute_increment (hd : d.Measured) (hsizes : ∀ v : V, d.size v = 1 ∨ d.size v = 2)
    (h : KeepsLocals d kept known f.locals) {code : UInt8} (hcode : insn.opcode? = some code)
    (hincrement : Opcode.effect code = .increment) {top : List SourceValue} {s : Step SourceValue}
    (hstep : step (domain size) id insn code ⟨known, top⟩ = .ok s) :
    ∃ after, f.execute d id insn = .ok after ∧ s.2.stack = top ∧ after.stack.map d.size = f.stack.map d.size ∧
      after.locals.size = f.locals.size ∧ KeepsLocals d kept s.2.locals after.locals := by
  unfold step at hstep
  rw [hincrement] at hstep
  obtain ⟨var, delta, v, g, rfl, hv, hset, rfl⟩ := stepIncrement_eq_ok.mp hstep
  have hlt := (Array.getElem?_eq_some_iff.mp hv).1
  have hw := Array.getElem?_eq_getElem (Nat.lt_of_lt_of_le hlt h.size)
  obtain ⟨stored, hstored, hkeeps⟩ := h.setLocal hd hsizes (w := d.unary id (.iinc var delta) _)
    (hd.unary id _ _) hset
  have hs : f.step d id (.iinc var delta) code = .ok ([], stored) := by
    unfold step
    rw [hincrement]
    exact stepIncrement_eq_ok.mpr ⟨var, delta, _, stored, rfl, hw, hstored, rfl⟩
  obtain ⟨after, hafter, hstack', hrest'⟩ :=
    KeepsLocals.execute_of_step hd hcode hs (setLocal_locals_size hstored) hkeeps
  exact ⟨after, hafter, setLocal_stack hset, by rw [hstack', setLocal_stack hstored], hrest'⟩

/-- An instruction that can do with the top of the stack, where its operands are kept and the local that it reads,
does the same to a frame that keeps these. -/
theorem KeepsLocals.execute (hd : d.Measured) (hsizes : ∀ v : V, d.size v = 1 ∨ d.size v = 2)
    (h : KeepsLocals d kept known f.locals) {top : List SourceValue} {left : Frame SourceValue}
    (hleft : Frame.execute (domain size) id insn ⟨known, top⟩ = .ok left) {base : List Nat}
    (hstack : f.stack.map d.size = top.map (·.size) ++ base)
    (hread : ∀ var, insn.readSlot? = some var → ∀ v, known[var]? = some v → kept v = true) :
    ∃ after, f.execute d id insn = .ok after ∧ after.stack.map d.size = left.stack.map (·.size) ++ base ∧
      after.locals.size = f.locals.size ∧ KeepsLocals d kept left.locals after.locals := by
  by_cases hwrites : ∀ code, insn.opcode? = some code → Opcode.effect code ≠ .store ∧ Opcode.effect code ≠ .increment
  · have hreads : ∀ var, insn.readSlot? = some var → ∀ v, known[var]? = some v →
        ∃ w, f.locals[var]? = some w ∧ d.size w = v.size := by
      intro var hvar v hv
      have hlt := (Array.getElem?_eq_some_iff.mp hv).1
      have hw := Array.getElem?_eq_getElem (Nat.lt_of_lt_of_le hlt h.size)
      exact ⟨_, hw, h.width var v _ hv (hread var hvar v hv) hw⟩
    obtain ⟨hlocals, after, hafter, hstack', hlocals'⟩ := execute_onto hd hwrites hleft hstack hreads
    refine ⟨after, hafter, hstack', by simpa using (congrArg List.length hlocals').symm, ?_⟩
    rw [hlocals]
    exact h.of_widths hlocals'
  · push Not at hwrites
    obtain ⟨code, hcode, hwrites⟩ := hwrites
    rcases execute_eq_ok.mp hleft with ⟨hnone, _⟩ | ⟨code', operands, hcode', hstep⟩
    · rw [hcode] at hnone
      cases hnone
    obtain rfl := Option.some.inj (hcode.symm.trans hcode')
    by_cases hstore : Opcode.effect code = .store
    · exact h.execute_store hd hsizes hcode hstore hstep hstack
    · obtain ⟨after, hafter, hsame, hstack', hrest⟩ := h.execute_increment hd hsizes hcode (hwrites hstore) hstep
      have hsame : left.stack = top := hsame
      exact ⟨after, hafter, by rw [hstack', hsame, hstack], hrest⟩

end Execute

/-! ## The last local -/

/-- The last local is not wide. -/
def LastNarrow (d : Domain V) (locals : Array V) : Prop :=
  ∀ v, locals[locals.size - 1]? = some v → d.size v ≠ 2

theorem LastNarrow.set (h : LastNarrow d locals) {slot : Nat} {v : V} (hroom : slot + d.size v ≤ locals.size) :
    LastNarrow d (locals.setIfInBounds slot v) := by
  intro w hw hwide
  rw [Array.size_setIfInBounds, Array.getElem?_setIfInBounds] at hw
  split_ifs at hw with hlast hinside
  · obtain rfl := Option.some.inj hw
    omega
  · exact h w hw hwide

theorem LastNarrow.setParams (hd : d.Measured) {params : List String} {slot : Nat} (h : LastNarrow d locals)
    (hroom : slot + params.foldr (fun p slots => Descriptor.size (some p) + slots) 0 ≤ locals.size) :
    LastNarrow d (Frame.setParams d locals slot params) := by
  induction params generalizing locals slot with
  | nil => exact h
  | cons param rest ih =>
    rw [List.foldr_cons] at hroom
    rw [Frame.setParams]
    refine ih (h.set ?_) ?_
    · rw [hd.ofDescriptor]
      omega
    · rw [Array.size_setIfInBounds]
      omega

theorem lastNarrow_replicate (hd : d.Measured) (count : Nat) :
    LastNarrow d (Array.replicate count (d.ofDescriptor none)) := by
  intro v hv
  rw [Array.getElem?_replicate] at hv
  split_ifs at hv
  obtain rfl := Option.some.inj hv
  rw [hd.ofDescriptor]
  decide

theorem lastNarrow_entry (hd : d.Measured) {m : MethodSig} {maxLocals : UInt16} {entry : Frame V}
    (h : Frame.entry d m maxLocals = .ok entry) : LastNarrow d entry.locals := by
  unfold Frame.entry at h
  split at h
  · cases h
  · rename_i parsed hparsed
    dsimp only [entrySlots, MethodDescriptor.paramSlots] at h
    split_ifs at h
    · obtain rfl := Except.ok.inj h
      refine (lastNarrow_replicate hd _).setParams hd ?_
      rw [Array.size_replicate]
      omega
    · obtain rfl := Except.ok.inj h
      refine ((lastNarrow_replicate hd _).set ?_).setParams hd ?_
      · rw [hd.receiver, Array.size_replicate]
        omega
      · rw [Array.size_setIfInBounds, Array.size_replicate]
        omega

theorem LastNarrow.setLocal (hd : d.Measured) {f g : Frame V} (h : LastNarrow d f.locals) {var : Nat} {v : V}
    (hg : f.setLocal d var v = .ok g) : LastNarrow d g.locals := by
  intro w hw hwide
  have hlast := setLocal_ok_iff.mp ⟨g, hg⟩
  have hunset : d.size (d.ofDescriptor none) = 1 := hd.ofDescriptor none
  rw [getElem?_setLocal hg, setLocal_locals_size hg] at hw
  split_ifs at hw hlast
  all_goals first
    | exact h w hw hwide
    | (obtain rfl := Option.some.inj hw; omega)

/-! ## The entry -/

theorem KeepsLocals.put (h : KeepsLocals d kept known locals) {slot : Nat} (hslot : slot < known.size)
    {v : SourceValue} {w : V} (hsize : d.size w = v.size) :
    KeepsLocals d kept (known.setIfInBounds slot v) (locals.setIfInBounds slot w) := by
  have hsizes := h.size
  refine ⟨by simpa using hsizes, fun i v' w' hv' hkept hw' => ?_, fun i w' hi hw' => ?_⟩
  · rw [getElem?_set hslot] at hv'
    rw [getElem?_set (by omega)] at hw'
    split_ifs at hv' hw' with hi
    · obtain rfl := Option.some.inj hv'
      obtain rfl := Option.some.inj hw'
      exact hsize
    · exact h.width i v' w' hv' hkept hw'
  · rw [Array.size_setIfInBounds] at hi
    rw [getElem?_set (by omega), if_neg (by omega)] at hw'
    exact h.fresh i w' hi hw'

theorem KeepsLocals.setParams (hd : d.Measured) (h : KeepsLocals d kept known locals) {params : List String}
    {slot : Nat} (hroom : slot + params.foldr (fun p slots => Descriptor.size (some p) + slots) 0 ≤ known.size) :
    KeepsLocals d kept (Frame.setParams (SourceValue.domain size) known slot params)
      (Frame.setParams d locals slot params) := by
  induction params generalizing known locals slot with
  | nil => exact h
  | cons param rest ih =>
    have hpos : 1 ≤ Descriptor.size (some param) := by
      rw [Descriptor.size]
      split_ifs <;> decide
    rw [List.foldr_cons] at hroom
    refine ih (h.put (by omega) (hd.ofDescriptor (some param))) ?_
    rw [Array.size_setIfInBounds]
    omega

theorem keepsLocals_replicate (hd : d.Measured) {count count' : Nat} (hle : count ≤ count') :
    KeepsLocals d kept (Array.replicate count ((SourceValue.domain size).ofDescriptor none))
      (Array.replicate count' (d.ofDescriptor none)) := by
  have hget : ∀ {α : Type} {count : Nat} {x y : α} (i : Nat), (Array.replicate count x)[i]? = some y → y = x := by
    intro α count x y i hy
    rw [Array.getElem?_replicate] at hy
    split_ifs at hy
    exact (Option.some.inj hy).symm
  refine ⟨by simpa using hle, fun i v w hv _ hw => ?_, fun i w _ hw => ?_⟩
  · rw [hget i hv, hget i hw, hd.ofDescriptor]
    rfl
  · rw [hget i hw, hd.ofDescriptor]
    rfl

/-- With more locals, a method starts with the same ones and more that are unset. -/
theorem keepsLocals_entry (hd : d.Measured) {m : MethodSig} {maxLocals maxLocals' : UInt16}
    (hle : maxLocals.toNat ≤ maxLocals'.toNat) {entry : Frame SourceValue} {entry' : Frame V}
    (h : Frame.entry (SourceValue.domain size) m maxLocals = .ok entry) (h' : Frame.entry d m maxLocals' = .ok entry') :
    KeepsLocals d kept entry.locals entry'.locals := by
  unfold Frame.entry at h h'
  split at h
  · cases h
  · rename_i parsed hparsed
    rw [hparsed] at h'
    dsimp only [entrySlots, MethodDescriptor.paramSlots] at h h'
    split_ifs at h h'
    · obtain rfl := Except.ok.inj h
      obtain rfl := Except.ok.inj h'
      refine (keepsLocals_replicate hd (max_le_max hle le_rfl)).setParams hd ?_
      rw [Array.size_replicate]
      omega
    · obtain rfl := Except.ok.inj h
      obtain rfl := Except.ok.inj h'
      refine ((keepsLocals_replicate hd (max_le_max hle le_rfl)).put ?_ ?_).setParams hd ?_
      · rw [Array.size_replicate]
        omega
      · exact (hd.receiver m).trans ((SourceValue.measured size).receiver m).symm
      · rw [Array.size_setIfInBounds, Array.size_replicate]
        omega

end Frame

end DirectCall
