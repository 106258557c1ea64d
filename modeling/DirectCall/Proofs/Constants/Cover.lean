import DirectCall.Constants.Domain
import DirectCall.Proofs.Frame.Fixpoint
import DirectCall.Proofs.Frame.Simulate

/-!
# Constants and paths

The frames of constant propagation are compared with what each path computes on its own. They cover
the paths as long as they keep track of the arrays: an array may be forgotten at a join while an
alias of it is still known, and a later store through the forgotten one then leaves the alias stale.
`coverPaths_iff_keepTrack` says exactly when that does not happen; it can be told by the frames alone that
it does not if every store and call is of known values, or made while no array is known
(`coverPaths_of_knowsArrays`).
-/

namespace DirectCall

/-- The instruction may change an array that it is given, or hand it to other code. -/
def Insn.touchesArrays (insn : Insn) : Bool :=
  match insn.opcode? with
  | none => false
  | some code => code == Opcode.aastore || Opcode.between Opcode.invokevirtual Opcode.invokedynamic code
      || code == Opcode.putfield || code == Opcode.putstatic

namespace ConstantValue

/-- What is known of a value: all of it, or nothing. -/
def Covers (x y : ConstantValue) : Prop := x = y ∨ ∃ width, x = .unknown width

theorem Covers.refl (x : ConstantValue) : x.Covers x := .inl rfl

theorem Covers.trans {x y z : ConstantValue} (h : x.Covers y) (h' : y.Covers z) : x.Covers z := by
  rcases h with rfl | hunknown
  · exact h'
  · exact .inr hunknown

theorem joinBounds : domain.JoinBounds Covers := by
  have hjoin : ∀ x y, join x y = x ∧ x = y ∨ ∃ width, join x y = .unknown width := by
    intro x y
    unfold join
    split_ifs with heq
    · exact .inl ⟨rfl, heq⟩
    · exact .inr ⟨_, rfl⟩
    · exact .inr ⟨_, rfl⟩
  refine ⟨Covers.refl, fun _ _ _ => Covers.trans, fun x y => ?_, fun x y => ?_⟩
  · rcases hjoin x y with ⟨hx, _⟩ | hunknown
    · exact .inl hx
    · exact .inr hunknown
  · rcases hjoin x y with ⟨hx, rfl⟩ | hunknown
    · exact .inl hx
    · exact .inr hunknown

/-! ## Operations -/

theorem unary_unknown (id : NodeId) (insn : Insn) (width : Width) :
    ∃ width', unary id insn (.unknown width) = .unknown width' := by
  unfold unary
  split
  · split_ifs with hnew hcast
    · exact ⟨_, rfl⟩
    · simp [isConstant] at hcast
    · exact ⟨_, rfl⟩
  · exact ⟨_, rfl⟩

/-- A lookup is made from known values only. -/
theorem lookup?_covers {id : NodeId} {insn : Insn} {xs ys : List ConstantValue} {v : ConstantValue}
    (h : List.Forall₂ Covers xs ys) (hv : lookup? id insn xs = some v) : xs = ys := by
  unfold lookup? at hv
  split at hv
  case h_2 => simp at hv
  case h_1 className methodName types _ _ =>
    obtain ⟨elements, helements, _⟩ := Option.bind_eq_some_iff.mp hv
    cases h with
    | cons h₁ h =>
      cases h with
      | cons h₂ h =>
        cases h with
        | cons h₃ h =>
          cases h
          have hclass := h₁.resolve_right (by simp)
          have hname := h₂.resolve_right (by simp)
          have htypes := h₃.resolve_right (by rintro ⟨width, rfl⟩; simp [elements?] at helements)
          rw [hclass, hname, htypes]

theorem nary_covers (id : NodeId) (insn : Insn) {xs ys : List ConstantValue}
    (h : List.Forall₂ Covers xs ys) : (nary id insn xs).Covers (nary id insn ys) := by
  cases hv : lookup? id insn xs with
  | none => exact .inr ⟨_, by rw [nary, hv]; rfl⟩
  | some v =>
    rw [lookup?_covers h hv]
    exact .refl _

theorem sim : domain.Sim domain Covers where
  unset := .refl _
  exception _ := .refl _
  produce _ _ := .refl _
  copy _ _ _ _ h := h
  copySize _ _ _ _ h := h
  unary id insn x y h := by
    rcases h with rfl | ⟨width, rfl⟩
    · exact .refl _
    · exact .inr (unary_unknown id insn width)
  increment _ _ _ _ _ _ := rfl
  binary _ _ _ _ _ _ _ _ := .refl _
  nary id insn _ _ h := nary_covers id insn h

/-! ## Refinements -/

/-- What becomes of a value. -/
def refined (changes : List (ConstantValue × ConstantValue)) (x : ConstantValue) : ConstantValue :=
  changes.foldl (fun x change => if x = change.1 then change.2 else x) x

theorem refined_of_forall_ne {changes : List (ConstantValue × ConstantValue)} {x : ConstantValue}
    (h : ∀ change ∈ changes, x ≠ change.1) : refined changes x = x := by
  unfold refined
  induction changes with
  | nil => rfl
  | cons change rest ih =>
    rw [List.foldl_cons, if_neg (h change (by simp))]
    exact ih fun change' hmem => h change' (List.mem_cons_of_mem _ hmem)

theorem replaceAll_eq (f : Frame ConstantValue)
    (changes : List (ConstantValue × ConstantValue)) :
    f.replaceAll changes = ⟨f.locals.map (refined changes), f.stack.map (refined changes)⟩ := by
  unfold Frame.replaceAll
  induction changes generalizing f with
  | nil =>
    have hid : refined [] = id := rfl
    simp [hid]
  | cons change rest ih =>
    rw [List.foldl_cons, ih]
    simp only [Frame.replace, Array.map_map, List.map_map]
    rfl

theorem replaceAll_slots (f : Frame ConstantValue)
    (changes : List (ConstantValue × ConstantValue)) :
    (f.replaceAll changes).slots = f.slots.map (refined changes) := by
  simp [replaceAll_eq, Frame.slots]

def isArray : ConstantValue → Bool
  | array .. => true
  | _ => false

theorem ne_unknown_of_isArray {v : ConstantValue} (h : v.isArray = true) (width : Width) : v ≠ .unknown width := by
  rintro rfl
  cases h

/-- Only arrays among the operands change. -/
theorem refine_old {id : NodeId} {insn : Insn} {operands : List ConstantValue}
    {change : ConstantValue × ConstantValue} (h : change ∈ refine id insn operands) :
    change.1 ∈ operands ∧ change.1.isArray = true := by
  have hescape : ∀ value, change ∈ escape value → change.1 = value ∧ change.1.isArray = true := by
    intro value hmem
    unfold escape at hmem
    split at hmem
    · rw [List.mem_singleton] at hmem
      rw [hmem]
      exact ⟨rfl, rfl⟩
    · simp at hmem
  unfold refine at h
  split at h
  · simp at h
  · split_ifs at h with hstore hescapes
    · split at h
      · rename_i target index value
        rcases List.mem_append.mp h with hmem | hmem
        · obtain ⟨heq, harray⟩ := hescape value hmem
          exact ⟨by simp [heq], harray⟩
        · split at hmem
          · dsimp only at hmem
            split_ifs at hmem
            · simp at hmem
            · rw [List.mem_singleton] at hmem
              rw [hmem]
              exact ⟨List.mem_cons_self, rfl⟩
          · simp at hmem
      · simp at h
    · obtain ⟨value, hvalue, hmem⟩ := List.mem_flatMap.mp h
      obtain ⟨heq, harray⟩ := hescape value hmem
      exact ⟨heq ▸ hvalue, harray⟩
    · simp at h

theorem refined_of_not_isArray (id : NodeId) (insn : Insn) (operands : List ConstantValue) {x : ConstantValue}
    (h : x.isArray = false) : refined (refine id insn operands) x = x := by
  refine refined_of_forall_ne fun change hmem heq => ?_
  rw [heq, (refine_old hmem).2] at h
  cases h

theorem refined_unknown (id : NodeId) (insn : Insn) (operands : List ConstantValue)
    (width : Width) : refined (refine id insn operands) (.unknown width) = .unknown width :=
  refined_of_not_isArray id insn operands rfl

theorem mem_of_covers {xs ys : List ConstantValue} (h : List.Forall₂ Covers xs ys)
    {x : ConstantValue} (hx : x ∈ xs) (hne : ∀ width, x ≠ .unknown width) : x ∈ ys := by
  induction h with
  | nil => simp at hx
  | cons hhead _ ih =>
    rcases List.mem_cons.mp hx with rfl | hx
    · rcases hhead with rfl | ⟨width, hwidth⟩
      · exact List.mem_cons_self
      · exact absurd hwidth (hne width)
    · exact List.mem_cons_of_mem _ (ih hx)

/-- A slot stays covered if its value was not an operand, or if the operands were known. -/
theorem refined_covers {id : NodeId} {insn : Insn} {seen operands : List ConstantValue}
    (hoperands : List.Forall₂ Covers seen operands) {x y : ConstantValue} (h : x.Covers y)
    (hy : y ∉ operands ∨ seen = operands) :
    (refined (refine id insn seen) x).Covers (refined (refine id insn operands) y) := by
  rcases h with rfl | ⟨width, rfl⟩
  · rcases hy with hx | rfl
    · have hkept : ∀ consumed, (∀ z ∈ consumed, (∀ width, z ≠ .unknown width) → z ∈ operands) →
          refined (refine id insn consumed) x = x := by
        intro consumed hconsumed
        refine refined_of_forall_ne fun change hmem heq => ?_
        obtain ⟨hold, harray⟩ := refine_old hmem
        exact hx (heq ▸ hconsumed change.1 hold (ne_unknown_of_isArray harray))
      rw [hkept seen fun z hz hne => mem_of_covers hoperands hz hne,
        hkept operands fun z hz _ => hz]
      exact .refl x
    · exact .refl _
  · rw [refined_unknown]
    exact .inr ⟨width, rfl⟩

/-! ## Paths -/

theorem refine_of_not_touchesArrays {id : NodeId} {insn : Insn} {operands : List ConstantValue}
    (h : insn.touchesArrays = false) : refine id insn operands = [] := by
  unfold Insn.touchesArrays at h
  unfold refine
  rcases Option.eq_none_or_eq_some insn.opcode? with hcode | ⟨code, hcode⟩
  · rw [hcode]
  · rw [hcode] at h ⊢
    simp only [Bool.or_eq_false_iff, beq_eq_false_iff_ne] at h
    simp [h]

/-- What a move to a successor needs in order to stay covered. `known` and `held` are the frames of
the analysis and of the path ahead of the instruction, `next` is the frame of the analysis behind
it. -/
structure KeepsTrack (id : NodeId) (insn : Insn) (known held next : Frame ConstantValue) : Prop where
  /-- An instruction that depends on widths either sees the same ones in both frames, or does no harm
  on the path. -/
  widths : ∀ code, insn.opcode? = some code → Opcode.readsWidths code = true →
    ¬ Frame.SameWidths domain domain known held →
      ∃ left, held.execute domain id insn = .ok left ∧ next.Rel Covers left
  /-- If the analysis has forgotten an operand of a store or a call, the other slots in which the path
  holds an operand are still covered. -/
  arrays : insn.touchesArrays = true → ∀ code seen below operands left,
    insn.opcode? = some code →
    known.step domain id insn code = .ok (seen, below) →
    held.step domain id insn code = .ok (operands, left) → seen ≠ operands →
      ∀ (k : Nat) (x y : ConstantValue), next.slots[k]? = some x → left.slots[k]? = some y →
        y ∈ operands → x.Covers (refined (refine id insn operands) y)

end ConstantValue

open ConstantValue

/-- The frames cover what every path computes. -/
def CoverPaths (m : MethodSig) (body : Body) (frames : Frame.Frames ConstantValue) : Prop :=
  ∀ flow entry path, Flow.ofBody body = .ok flow →
    Frame.entry domain m body.maxLocals = .ok entry → flow.IsPath 0 path →
      ∃ known held, frames.getD (Flow.endOf 0 path) none = some known ∧
        entry.follow domain flow 0 path = .ok held ∧ known.Rel Covers held

/-- Along every path that is covered so far, the next move keeps track of widths and arrays. -/
def KeepTrack (m : MethodSig) (body : Body) (frames : Frame.Frames ConstantValue) : Prop :=
  ∀ flow entry path target known held next, Flow.ofBody body = .ok flow →
    Frame.entry domain m body.maxLocals = .ok entry → flow.IsPath 0 (path ++ [.next target]) →
    frames.getD (Flow.endOf 0 path) none = some known →
    entry.follow domain flow 0 path = .ok held → known.Rel Covers held →
    frames.getD target none = some next →
      KeepsTrack (flow.idAt (Flow.endOf 0 path)) (flow.insnAt (Flow.endOf 0 path)) known held next

theorem forall₂_of_getElem? {V W : Type} {R : V → W → Prop} {vs : List V} {ws : List W}
    (hlength : vs.length = ws.length)
    (h : ∀ (k : Nat) v w, vs[k]? = some v → ws[k]? = some w → R v w) : List.Forall₂ R vs ws := by
  rw [List.forall₂_iff_get]
  refine ⟨hlength, fun k hv hw => h k _ _ ?_ ?_⟩
  · simp
  · simp

theorem rel_covers_trans {f g h : Frame ConstantValue} (hfg : f.Rel Covers g)
    (hgh : g.Rel Covers h) : f.Rel Covers h :=
  hfg.trans (fun _ _ _ hxy hyz => hxy.trans hyz) hgh

/-- Behind the refinements of an instruction, slot by slot. -/
theorem ConstantValue.KeepsTrack.refined {id : NodeId} {insn : Insn} {code : UInt8}
    {known held next below left : Frame ConstantValue} {seen operands : List ConstantValue}
    (h : KeepsTrack id insn known held next) (hcode : insn.opcode? = some code)
    (hstep : known.step domain id insn code = .ok (seen, below))
    (hstep' : held.step domain id insn code = .ok (operands, left))
    (hoperands : List.Forall₂ Covers seen operands) (hrel : below.Rel Covers left)
    (hnext : next.Rel Covers (below.replaceAll (refine id insn seen))) :
    next.Rel Covers (left.replaceAll (refine id insn operands)) := by
  have hlocals := hnext.locals_size
  have hslots := hnext.slots
  rw [Frame.replaceAll_locals_size, hrel.locals_size] at hlocals
  rw [replaceAll_slots] at hslots
  have hlength := hslots.length_eq
  refine Frame.Rel.of_slots (by rw [Frame.replaceAll_locals_size, hlocals])
    (forall₂_of_getElem? ?_ fun k x y' hx hy' => ?_)
  · rw [replaceAll_slots, hlength, List.length_map, List.length_map, hrel.slots.length_eq]
  · rw [replaceAll_slots, List.getElem?_map, Option.map_eq_some_iff] at hy'
    obtain ⟨y, hy, rfl⟩ := hy'
    obtain ⟨z, hz, hxz⟩ := Frame.forall₂_getElem? hslots hx
    rw [List.getElem?_map, Option.map_eq_some_iff] at hz
    obtain ⟨w, hw, rfl⟩ := hz
    obtain ⟨y', hy', hwy⟩ := Frame.forall₂_getElem? hrel.slots hw
    rw [hy, Option.some.injEq] at hy'
    subst hy'
    by_cases hforgotten : y ∈ operands ∧ seen ≠ operands
    · by_cases htouches : insn.touchesArrays = true
      · exact h.arrays htouches code seen below operands left hcode hstep hstep' hforgotten.2 k x y
          hx hy hforgotten.1
      · rw [Bool.not_eq_true] at htouches
        simp only [refine_of_not_touchesArrays htouches] at hxz ⊢
        exact hxz.trans hwy
    · rw [not_and_or, not_not] at hforgotten
      exact hxz.trans (refined_covers hoperands hwy hforgotten)

/-- A move that keeps track stays covered. -/
theorem ConstantValue.KeepsTrack.covers {id : NodeId} {insn : Insn}
    {known held next stepped : Frame ConstantValue} (h : KeepsTrack id insn known held next)
    (hrel : known.Rel Covers held) (hexecute : known.execute domain id insn = .ok stepped)
    (hnext : next.Rel Covers stepped) :
    ∃ left, held.execute domain id insn = .ok left ∧ next.Rel Covers left := by
  cases hcode : insn.opcode? with
  | none =>
    simp only [Frame.execute, hcode, Except.ok.injEq] at hexecute ⊢
    subst hexecute
    exact ⟨held, rfl, rel_covers_trans hnext hrel⟩
  | some code =>
    by_cases hwidths : Opcode.readsWidths code = true → Frame.SameWidths domain domain known held
    · simp only [Frame.execute, hcode] at hexecute ⊢
      obtain ⟨⟨seen, below⟩, hstep, hexecute⟩ := bind_eq_ok.mp hexecute
      obtain rfl := Except.ok.inj hexecute
      obtain ⟨⟨operands, left⟩, hstep', hoperands, hleft⟩ := Frame.step_sim sim hrel hwidths hstep
      simp only [hstep', bind, Except.bind]
      exact ⟨_, rfl, h.refined hcode hstep hstep' hoperands hleft hnext⟩
    · rw [Classical.not_imp] at hwidths
      exact h.widths code hcode hwidths.1 hwidths.2

/-- A move that stays covered keeps track. -/
theorem ConstantValue.KeepsTrack.of_covers {id : NodeId} {insn : Insn}
    {known held next left : Frame ConstantValue} (hexecute : held.execute domain id insn = .ok left)
    (hnext : next.Rel Covers left) : KeepsTrack id insn known held next := by
  refine ⟨fun _ _ _ _ => ⟨left, hexecute, hnext⟩, ?_⟩
  intro _ code seen below operands stepped hcode _ hstep _ k x y hx hy _
  simp only [Frame.execute, hcode, hstep, bind, Except.bind] at hexecute
  obtain rfl := Except.ok.inj hexecute
  have hslots := hnext.slots
  rw [replaceAll_slots] at hslots
  obtain ⟨z, hz, hxz⟩ := Frame.forall₂_getElem? hslots hx
  rw [List.getElem?_map, hy, Option.map_some, Option.some.injEq] at hz
  exact hz ▸ hxz

theorem caught_covers {known held : Frame ConstantValue} (h : known.Rel Covers held)
    (catchType : Option String) :
    (known.caught domain catchType).Rel Covers (held.caught domain catchType) :=
  ⟨h.locals, .cons (sim.exception catchType) .nil⟩

/-- The frames of constant propagation cover every path exactly if they keep track of widths and of
arrays along every path. -/
theorem coverPaths_iff_keepTrack {m : MethodSig} {body : Body}
    {frames : Frame.Frames ConstantValue} (h : constantFrames m body = .ok frames) :
    CoverPaths m body frames ↔ KeepTrack m body frames := by
  obtain ⟨flow, entry, hflow, hentry, hclosed⟩ := Frame.analyze_closed joinBounds h
  constructor
  · intro hcover flow' entry' path target known held next hflow' hentry' hpath hknown hheld hrel hnext
    obtain ⟨next', left, hnext', hleft, hcovers⟩ := hcover flow' entry' _ hflow' hentry' hpath
    rw [Flow.endOf_append, Move.target, hnext, Option.some.injEq] at hnext'
    rw [Frame.follow_append_ok domain flow' hheld] at hleft
    exact .of_covers hleft (hnext' ▸ hcovers)
  · intro hkeep flow' entry' path hflow' hentry' hpath
    obtain rfl : flow = flow' := Except.ok.inj (hflow.symm.trans hflow')
    obtain rfl : entry = entry' := Except.ok.inj (hentry.symm.trans hentry')
    -- The path grows at its end: what is covered ahead of its last move is covered behind it.
    induction path using List.reverseRecOn with
    | nil =>
      obtain ⟨known, hknown, hrel⟩ := hclosed.start
      exact ⟨known, entry, hknown, rfl, hrel⟩
    | append_singleton path move ih =>
      obtain ⟨hahead, hmove⟩ := (flow.isPath_append 0 path move).mp hpath
      obtain ⟨known, held, hknown, hheld, hrel⟩ := ih hahead
      obtain ⟨g, hpass, next, hnext, habsorbs⟩ :=
        (hclosed.closedAt _ known hknown).absorbed move hmove
      rw [Flow.endOf_append, Frame.follow_append_ok domain flow hheld]
      cases move with
      | next target =>
        have hkept := hkeep flow entry path target known held next hflow hentry hpath hknown hheld
          hrel hnext
        obtain ⟨left, hexecute, hcovers⟩ := hkept.covers hrel hpass habsorbs
        exact ⟨next, left, hnext, hexecute, hcovers⟩
      | raise edge =>
        obtain rfl := Except.ok.inj hpass
        exact ⟨next, _, hnext, rfl, rel_covers_trans habsorbs (caught_covers hrel edge.catchType)⟩

/-! ## Frames that tell -/

namespace Descriptor

theorem size_of_narrow {d : String} (hlong : d ≠ "J") (hdouble : d ≠ "D") : size (some d) = 1 := by
  have hnarrow : isWide d = false := by
    rw [isWide, Bool.or_eq_false_iff, beq_eq_false_iff_ne, beq_eq_false_iff_ne]
    exact ⟨hlong, hdouble⟩
  rw [size, hnarrow]
  rfl

theorem size_bracket (d : String) : size (some ("[" ++ d)) = 1 := by
  refine size_of_narrow (fun heq => ?_) fun heq => ?_
  all_goals
    have hlist := congrArg String.toList heq
    rw [String.toList_append] at hlist
    exact absurd (List.cons.inj hlist).1 (by decide)

theorem size_ofClassName (name : String) : size (some (ofClassName name)) = 1 := by
  unfold ofClassName
  split_ifs with harray
  · refine size_of_narrow (fun heq => ?_) fun heq => ?_
    all_goals
      rw [heq] at harray
      exact absurd harray (by decide +kernel)
  · refine size_of_narrow (fun heq => ?_) fun heq => ?_
    all_goals
      have hlist := congrArg String.toList heq
      rw [String.toList_append, String.toList_append] at hlist
      exact absurd (List.cons.inj hlist).1 (by decide)

end Descriptor

namespace ConstantValue

/-! ### Widths -/

theorem size_of_isConstant {v : ConstantValue} (h : v.isConstant = true) : v.size = 1 := by
  cases v with
  | unknown width => exact absurd h (by simp [isConstant])
  | _ => rfl

theorem size_ofDescriptor (d : Option String) : (ofDescriptor d).size = Descriptor.size d := by
  cases d with
  | none => rfl
  | some d =>
    show (Width.ofDescriptor (some d)).slots = _
    rw [Width.ofDescriptor, Descriptor.size]
    split_ifs
    · rfl
    · rfl

/-- How wide a result is depends on the instruction alone. -/
theorem size_unary (id : NodeId) (insn : Insn) (v : ConstantValue) :
    (unary id insn v).size = Descriptor.size insn.result? := by
  unfold unary
  split
  · rename_i code index className
    split_ifs with hnew hcast
    · have hresult : (Insn.type code index className).result? = some ("[" ++ Descriptor.ofClassName className) := by
        rw [hnew]
        rfl
      rw [hresult]
      split
      · split_ifs
        · exact (Descriptor.size_bracket _).symm
        · exact size_ofDescriptor _
      · exact size_ofDescriptor _
    · rw [Bool.and_eq_true, decide_eq_true_eq] at hcast
      have hresult : (Insn.type code index className).result? = some (Descriptor.ofClassName className) := by
        rw [hcast.1]
        rfl
      rw [hresult, Descriptor.size_ofClassName, size_of_isConstant hcast.2]
    · exact size_ofDescriptor _
  · exact size_ofDescriptor _

/-- A lookup that is known is one object, and that is what its descriptor says. -/
theorem size_nary (id : NodeId) (insn : Insn) (operands : List ConstantValue) :
    (nary id insn operands).size = Descriptor.size insn.result? := by
  cases hlookup : lookup? id insn operands with
  | none =>
    rw [nary, hlookup]
    exact size_ofDescriptor insn.result?
  | some v =>
    rw [nary, hlookup]
    unfold lookup? at hlookup
    split at hlookup
    · rename_i member className methodName types his hmember
      obtain ⟨elements, _, hlookup⟩ := Option.bind_eq_some_iff.mp hlookup
      obtain ⟨params, _, hlookup⟩ := Option.bind_eq_some_iff.mp hlookup
      obtain rfl := Option.some.inj hlookup
      unfold Insn.isMethodLookup at his
      split at his
      · simp only [Bool.and_eq_true, beq_iff_eq] at his
        rw [Insn.result?, his.2]
        rfl
      · cases his
    · cases hlookup

/-- Only arrays are replaced, and by single values. -/
theorem size_refine (id : NodeId) (insn : Insn) (operands : List ConstantValue) :
    ∀ change ∈ refine id insn operands, change.1.size = change.2.size := by
  have hescape : ∀ v : ConstantValue, ∀ change ∈ v.escape, change.1.size = change.2.size := by
    intro v change hchange
    unfold escape at hchange
    split at hchange
    · rw [List.mem_singleton.mp hchange]
      rfl
    · cases hchange
  have hstored : ∀ site component length slots index value,
      (stored (.array site component length slots) index value).size = 1 := by
    intro site component length slots index value
    unfold stored
    split
    · unfold withSlot
      dsimp only
      split_ifs <;> rfl
    · rfl
  unfold refine
  split
  · nofun
  · split_ifs
    · split
      · rename_i target index value
        intro change hchange
        rcases List.mem_append.mp hchange with hchange | hchange
        · exact hescape value change hchange
        · split at hchange
          · dsimp only at hchange
            split_ifs at hchange
            · cases hchange
            · rw [List.mem_singleton.mp hchange]
              exact (hstored _ _ _ _ _ _).symm
          · cases hchange
      · nofun
    · intro change hchange
      obtain ⟨v, _, hchange⟩ := List.mem_flatMap.mp hchange
      exact hescape v change hchange
    · nofun

theorem sizeSim : domain.Sim domain fun x y => x.size = y.size where
  unset := rfl
  exception _ := rfl
  produce _ _ := rfl
  copy _ _ _ _ h := h
  copySize _ _ _ _ h := h
  unary id insn x y _ := (size_unary id insn x).trans (size_unary id insn y).symm
  increment _ _ _ _ _ _ := rfl
  binary _ _ _ _ _ _ _ _ := rfl
  nary id insn xs ys _ := (size_nary id insn xs).trans (size_nary id insn ys).symm

theorem size_refined (id : NodeId) (insn : Insn) (operands : List ConstantValue) (x : ConstantValue) :
    (refined (refine id insn operands) x).size = x.size := by
  have hfold : ∀ (changes : List (ConstantValue × ConstantValue)) (x : ConstantValue),
      (∀ change ∈ changes, change.1.size = change.2.size) → (refined changes x).size = x.size := by
    intro changes
    induction changes with
    | nil => exact fun _ _ => rfl
    | cons change rest ih =>
      intro x h
      rw [refined, List.foldl_cons]
      refine (ih _ fun change' hmem => h change' (List.mem_cons_of_mem _ hmem)).trans ?_
      split_ifs with heq
      · rw [heq, h change List.mem_cons_self]
      · rfl
  exact hfold _ x (size_refine id insn operands)

/-- Refinements leave widths as they are. -/
theorem replaceAll_widths (id : NodeId) (insn : Insn) (seen operands : List ConstantValue)
    {f g : Frame ConstantValue} (h : Frame.SameWidths domain domain f g) :
    Frame.SameWidths domain domain (f.replaceAll (refine id insn seen)) (g.replaceAll (refine id insn operands)) := by
  have hrefined : ∀ x y : ConstantValue, x.size = y.size →
      (refined (refine id insn seen) x).size = (refined (refine id insn operands) y).size := by
    intro x y hxy
    rw [size_refined, size_refined, hxy]
  rw [replaceAll_eq, replaceAll_eq]
  constructor
  · rw [Array.toList_map, Array.toList_map, List.forall₂_map_left_iff, List.forall₂_map_right_iff]
    exact h.locals.imp hrefined
  · rw [List.forall₂_map_left_iff, List.forall₂_map_right_iff]
    exact h.stack.imp hrefined

/-- If an instruction sees the same widths in two frames, it leaves the same widths. -/
theorem execute_widths {id : NodeId} {insn : Insn} {known held after left : Frame ConstantValue}
    (h : Frame.SameWidths domain domain known held) (hafter : known.execute domain id insn = .ok after)
    (hleft : held.execute domain id insn = .ok left) : Frame.SameWidths domain domain after left := by
  cases hcode : insn.opcode? with
  | none =>
    simp only [Frame.execute, hcode, Except.ok.injEq] at hafter hleft
    exact hafter ▸ hleft ▸ h
  | some code =>
    simp only [Frame.execute, hcode] at hafter hleft
    obtain ⟨⟨seen, below⟩, hstep, hafter⟩ := bind_eq_ok.mp hafter
    obtain ⟨⟨operands, below'⟩, hstep', hleft⟩ := bind_eq_ok.mp hleft
    obtain ⟨_, hother, _, hbelow⟩ := Frame.step_sim sizeSim h (fun _ => h) hstep
    obtain rfl := Except.ok.inj (hother.symm.trans hstep')
    obtain rfl := Except.ok.inj hafter
    obtain rfl := Except.ok.inj hleft
    exact replaceAll_widths id insn seen operands hbelow

/-! ### Arrays -/

/-- If the instruction may change an array or hand it out, then all that it takes is known, or no array is. -/
def KnowsOperands (id : NodeId) (insn : Insn) (known : Frame ConstantValue) : Prop :=
  insn.touchesArrays = true → ∀ code operands below, insn.opcode? = some code →
    known.step domain id insn code = .ok (operands, below) →
      (∀ v ∈ operands, ∀ width, v ≠ .unknown width) ∨ ∀ v ∈ below.slots, v.isArray = false

theorem eq_of_covers {xs ys : List ConstantValue} (h : List.Forall₂ Covers xs ys)
    (hknown : ∀ x ∈ xs, ∀ width, x ≠ .unknown width) : xs = ys := by
  rw [← List.forall₂_eq_eq_eq]
  refine (List.forall₂_and_left _ _ |>.mpr ⟨hknown, h⟩).imp fun x y hxy => ?_
  exact hxy.2.resolve_right fun ⟨width, hwidth⟩ => hxy.1 width hwidth

/-- What the analysis knows is enough to keep track. -/
theorem KnowsOperands.keepsTrack {id : NodeId} {insn : Insn} {known held next stepped : Frame ConstantValue}
    (h : KnowsOperands id insn known) (hrel : known.Rel Covers held)
    (hwidths : Frame.SameWidths domain domain known held) (hexecute : known.execute domain id insn = .ok stepped)
    (hnext : next.Rel Covers stepped) : KeepsTrack id insn known held next := by
  refine ⟨fun _ _ _ hdiffer => absurd hwidths hdiffer, ?_⟩
  intro htouches code seen below operands left hcode hstep hstep' hforgotten k x y hx hy hoperand
  obtain ⟨_, hother, hoperands, hbelow⟩ := Frame.step_sim sim hrel (fun _ => hwidths) hstep
  obtain rfl := Except.ok.inj (hother.symm.trans hstep')
  rcases h htouches code seen below hcode hstep with hknown | hnone
  · exact absurd (eq_of_covers hoperands hknown) hforgotten
  · simp only [Frame.execute, hcode, hstep, bind, Except.bind] at hexecute
    obtain rfl := Except.ok.inj hexecute
    have hslots := hnext.slots
    rw [replaceAll_slots] at hslots
    obtain ⟨z', hz', hxz⟩ := Frame.forall₂_getElem? hslots hx
    rw [List.getElem?_map, Option.map_eq_some_iff] at hz'
    obtain ⟨z, hz, rfl⟩ := hz'
    have hplain : z.isArray = false := hnone z (List.mem_of_getElem? hz)
    obtain ⟨y', hy', hzy⟩ := Frame.forall₂_getElem? hbelow.slots hz
    obtain rfl := Option.some.inj (hy.symm.trans hy')
    change x.Covers (refined (refine id insn seen) z) at hxz
    rw [refined_of_not_isArray id insn seen hplain] at hxz
    rcases hzy with rfl | hunknown
    · rw [refined_of_not_isArray id insn operands hplain]
      exact hxz
    · exact hxz.trans (.inr hunknown)

end ConstantValue

/-- Values have the same widths on all the paths that meet at a position. -/
structure WidthsMeet (m : MethodSig) (body : Body) (frames : Frame.Frames ConstantValue) : Prop where
  entry : ∀ entry known, Frame.entry domain m body.maxLocals = .ok entry → frames.getD 0 none = some known →
    Frame.SameWidths domain domain known entry
  moves : ∀ flow position move known handed next, Flow.ofBody body = .ok flow →
    frames.getD position none = some known → flow.Allows position move →
      known.pass domain flow position move = .ok handed → frames.getD move.target none = some next →
        Frame.SameWidths domain domain next handed

/-- At every store, call and field store the analysis knows all that is taken, or knows of no array. -/
def KnowsArrays (body : Body) (frames : Frame.Frames ConstantValue) : Prop :=
  ∀ flow position known, Flow.ofBody body = .ok flow → frames.getD position none = some known →
    KnowsOperands (flow.idAt position) (flow.insnAt position) known

/-- If widths agree wherever paths meet, and arrays are not stored to or handed out by way of values that were
forgotten, the frames cover what every path computes. -/
theorem coverPaths_of_knowsArrays {m : MethodSig} {body : Body} {frames : Frame.Frames ConstantValue}
    (h : constantFrames m body = .ok frames) (hmeet : WidthsMeet m body frames)
    (hknows : KnowsArrays body frames) : CoverPaths m body frames := by
  obtain ⟨flow, entry, hflow, hentry, hclosed⟩ := Frame.analyze_closed joinBounds h
  -- Along a path both go together: values are covered, and of the width that the analysis takes them for.
  have hpaths : ∀ path, flow.IsPath 0 path →
      ∃ known held, frames.getD (Flow.endOf 0 path) none = some known ∧
        entry.follow domain flow 0 path = .ok held ∧ known.Rel Covers held ∧
          Frame.SameWidths domain domain known held := by
    intro path hpath
    induction path using List.reverseRecOn with
    | nil =>
      obtain ⟨known, hknown, hrel⟩ := hclosed.start
      exact ⟨known, entry, hknown, rfl, hrel, hmeet.entry entry known hentry hknown⟩
    | append_singleton path move ih =>
      obtain ⟨hahead, hmove⟩ := (flow.isPath_append 0 path move).mp hpath
      obtain ⟨known, held, hknown, hheld, hrel, hwidths⟩ := ih hahead
      obtain ⟨handed, hpass, next, hnext, habsorbs⟩ := (hclosed.closedAt _ known hknown).absorbed move hmove
      have hmet := hmeet.moves flow _ move known handed next hflow hknown hmove hpass hnext
      have hsame : ∀ {left}, Frame.SameWidths domain domain handed left →
          Frame.SameWidths domain domain next left := fun hleft =>
        hmet.trans (fun _ _ _ hxy hyz => hxy.trans hyz) hleft
      rw [Flow.endOf_append, Frame.follow_append_ok domain flow hheld]
      cases move with
      | next target =>
        have hkept := (hknows flow _ known hflow hknown).keepsTrack hrel hwidths hpass habsorbs
        obtain ⟨left, hexecute, hcovers⟩ := hkept.covers hrel hpass habsorbs
        exact ⟨next, left, hnext, hexecute, hcovers, hsame (execute_widths hwidths hpass hexecute)⟩
      | raise edge =>
        obtain rfl := Except.ok.inj hpass
        refine ⟨next, _, hnext, rfl, rel_covers_trans habsorbs (caught_covers hrel edge.catchType), hsame ?_⟩
        exact ⟨hwidths.locals, .cons rfl .nil⟩
  intro flow' entry' path hflow' hentry' hpath
  obtain rfl := Except.ok.inj (hflow.symm.trans hflow')
  obtain rfl := Except.ok.inj (hentry.symm.trans hentry')
  obtain ⟨known, held, hknown, hheld, hrel, _⟩ := hpaths path hpath
  exact ⟨known, held, hknown, hheld, hrel⟩

/-! ## A stale alias

One path forgets an array on the stack that the other still holds there; both keep it in a local.
The store behind the join goes through the stack. -/

/-- A static method without parameters. -/
def staleSig : MethodSig := ⟨"a/A", "m", "()V", 0x0008⟩

def staleBody : Body where
  insns := InsnList.ofInsns #[
    .op 0x04, .type Opcode.anewarray 0 "java/lang/Class", .op Opcode.dup,
    .var Opcode.astore 0, .op Opcode.iconst0, .jump Opcode.ifeq ⟨8⟩, .op Opcode.pop,
    .op Opcode.aconstNull, .label, .op Opcode.iconst0, .ldc 0 (.classRef "java/lang/String"),
    .op Opcode.aastore, .op Opcode.returnVoid]
  regions := []
  locals := []
  maxStack := 4
  maxLocals := 1

/-- The path that jumps. -/
def stalePath : List Move :=
  [.next 1, .next 2, .next 3, .next 4, .next 5, .next 8, .next 9, .next 10, .next 11, .next 12]

/-- The flow of a body without handlers. -/
def staleFlow : Flow := ⟨staleBody.insns, staleBody.insns.positions, []⟩

theorem staleBody_not_coverPaths :
    ∃ frames, constantFrames staleSig staleBody = .ok frames ∧
      ¬ CoverPaths staleSig staleBody frames := by
  have hframes : (constantFrames staleSig staleBody).toOption.map (fun frames => frames.getD 12 none) =
      some (some ⟨#[.array (some ⟨1⟩) "java/lang/Class" 1 []], []⟩) := by decide +kernel
  have hpath : staleFlow.IsPath 0 stalePath := by decide +kernel
  have hheld : (Frame.follow domain staleFlow 0 ⟨#[.unset], []⟩ stalePath).toOption =
      some ⟨#[.array (some ⟨1⟩) "java/lang/Class" 1 [(0, .classRef "java/lang/String")]], []⟩ := by
    decide +kernel
  cases hok : constantFrames staleSig staleBody with
  | error e => simp [hok, Except.toOption] at hframes
  | ok frames =>
    refine ⟨frames, rfl, fun hcover => ?_⟩
    obtain ⟨known, held, hknown, hfollow, hrel⟩ :=
      hcover staleFlow ⟨#[.unset], []⟩ stalePath rfl rfl hpath
    simp only [hok, Except.toOption, Option.map_some, Option.some.injEq] at hframes
    simp only [hfollow, Except.toOption, Option.some.injEq] at hheld
    obtain rfl := Option.some.inj (hknown.symm.trans hframes)
    subst hheld
    rcases hrel.locals with _ | ⟨hcovers, _⟩
    rcases hcovers with heq | ⟨width, heq⟩
    · simp at heq
    · simp at heq

/-- Constant propagation alone does not cover every path. -/
theorem not_forall_coverPaths :
    ¬ ∀ m body frames, constantFrames m body = .ok frames → CoverPaths m body frames := by
  intro hcover
  obtain ⟨frames, hframes, hstale⟩ := staleBody_not_coverPaths
  exact hstale (hcover staleSig staleBody frames hframes)

/-- The stale alias is a track that was lost. -/
theorem staleBody_not_keepTrack :
    ∃ frames, constantFrames staleSig staleBody = .ok frames ∧
      ¬ KeepTrack staleSig staleBody frames := by
  obtain ⟨frames, hframes, hstale⟩ := staleBody_not_coverPaths
  exact ⟨frames, hframes, fun hkeep => hstale ((coverPaths_iff_keepTrack hframes).mpr hkeep)⟩

end DirectCall
