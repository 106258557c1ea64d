import DirectCall.Proofs.Frame.Arrive
import DirectCall.Proofs.Sources.Record

/-!
# Producers that paths find

Where widths agree, a slot of the frame behind an instruction comes from one slot of the frame ahead of it, or
is the same whatever that frame holds (`SourceValue.exists_trace`). So each producer that the analysis knows is
found on some path (`foundOnPaths_of_widthsMeet`): together with `missesNone_of_widthsMeet` the frames say
exactly what paths find. In particular they say which instructions take values of which others off the stack
(`popsWithin_iff`).
-/

namespace DirectCall

open SourceValue

/-! ## Where a slot comes from -/

namespace Frame

variable {V W : Type}

theorem slots_join {d : Domain V} {f g joined : Frame V} (hsize : f.locals.size = g.locals.size)
    (h : f.join d g = .ok joined) : joined.slots = List.zipWith d.join f.slots g.slots := by
  unfold Frame.join at h
  split_ifs at h
  obtain rfl := Except.ok.inj h
  rw [slots, slots, slots, Array.toList_zipWith, List.zipWith_append (by simpa using hsize)]

theorem Rel.of_all {R : V → V → Prop} {P : V → Prop} {f g : Frame V} (h : f.Rel R g) (hf : f.All P)
    (hg : g.All P) : f.Rel (fun v w => P v ∧ P w) g := by
  have hleft : f.Rel (fun v _ => P v) g := hf.rel.trans (fun _ _ _ huv _ => huv.1 ▸ huv.2) h
  have hright : f.Rel (fun _ w => P w) g := h.trans (fun _ _ _ _ hvw => hvw.1 ▸ hvw.2) hg.rel
  exact hleft.and hright

end Frame

namespace SourceValue

variable {size : Nat} {id : NodeId} {insn : Insn} {f g h after : Frame SourceValue}

/-- The value takes one slot. -/
def Narrow (v : SourceValue) : Prop := v.size = 1

/-- Both frames have values of the same widths. -/
abbrev Level (f g : Frame SourceValue) : Prop := f.Rel (fun v w => v.size = w.size) g

theorem Level.refl (f : Frame SourceValue) : Level f f :=
  Frame.rel_refl (R := fun v w : SourceValue => v.size = w.size) (fun _ => rfl) f

theorem Level.trans (hfg : Level f g) (hgh : Level g h) : Level f h :=
  Frame.Rel.trans (fun _ _ _ hxy hyz => hxy.trans hyz) hfg hgh

theorem Level.symm (hfg : Level f g) : Level g f :=
  ⟨(hfg.locals.flip).imp fun _ _ h => h.symm, (hfg.stack.flip).imp fun _ _ h => h.symm⟩

theorem sim_level (size : Nat) : (domain size).Sim (domain size) fun v w => v.size = w.size :=
  sim_of (fun _ => rfl) (fun _ _ => rfl) fun _ _ _ h => h

theorem execute_level (hfg : Level f g) (hafter : f.execute (domain size) id insn = .ok after) :
    ∃ left, g.execute (domain size) id insn = .ok left ∧ Level after left :=
  execute_sim (sim_level size) hfg (fun _ _ _ => hfg) hafter

/-- The slot that a value stands for, if it is a label: labels are numbered behind all nodes. -/
def label? (size : Nat) (v : SourceValue) : Option Nat :=
  match v.producers with
  | [id] => if size ≤ id.index then some (id.index - size) else none
  | _ => none

/-- The frame with each value replaced by a label for its slot. -/
def labelled (size : Nat) (f : Frame SourceValue) : Frame SourceValue where
  locals := f.locals.mapIdx fun k v => ⟨v.size, [⟨size + k⟩]⟩
  stack := f.stack.mapIdx fun k v => ⟨v.size, [⟨size + (k + f.locals.size)⟩]⟩

/-- The second value is in the slot that the first one stands for, or is the first one. -/
def Traced (size : Nat) (slots : List SourceValue) (v w : SourceValue) : Prop :=
  v.size = w.size ∧
    match label? size v with
    | some k => slots[k]? = some w
    | none => v = w

theorem label?_label (size k width : Nat) : label? size ⟨width, [⟨size + k⟩]⟩ = some k := by
  simp [label?]

theorem label?_node {id : NodeId} (hid : id.index < size) (width : Nat) : label? size ⟨width, [id]⟩ = none := by
  simp [label?, Nat.not_le.mpr hid]

theorem traced_of_node {slots : List SourceValue} {id : NodeId} (hid : id.index < size) {width width' : Nat}
    (hwidth : width = width') : Traced size slots ⟨width, [id]⟩ ⟨width', [id]⟩ :=
  ⟨hwidth, by rw [label?_node hid, hwidth]⟩

/-- What an instruction makes of labels it makes of the values that they stand for. -/
theorem simAt_traced {slots : List SourceValue} (hid : id.index < size) (insn : Insn) :
    (domain size).SimAt (domain size) (Traced size slots) id insn where
  unset := ⟨rfl, rfl⟩
  produce := traced_of_node hid rfl
  copy _ _ h := traced_of_node hid h.1
  copySize _ _ h _ := h.1
  unary _ _ _ := traced_of_node hid rfl
  increment _ _ _ _ _ _ := rfl
  binary _ _ _ _ _ _ := traced_of_node hid rfl
  nary _ _ _ := traced_of_node hid rfl

theorem slots_labelled (size : Nat) (f : Frame SourceValue) :
    (labelled size f).slots = f.slots.mapIdx fun k v => ⟨v.size, [⟨size + k⟩]⟩ := by
  rw [Frame.slots, Frame.slots, List.mapIdx_append, labelled, Array.toList_mapIdx, Array.length_toList]

theorem labelled_level (size : Nat) (f : Frame SourceValue) : Level f (labelled size f) := by
  refine Frame.Rel.of_slots (by simp [labelled]) ?_
  rw [slots_labelled, List.forall₂_iff_get]
  exact ⟨by simp, fun k _ _ => by simp⟩

/-- The labels of a frame stand for the slots of any frame with the same widths. -/
theorem labelled_traced (size : Nat) (hfg : Level f g) :
    (labelled size f).Rel (Traced size g.slots) g := by
  have hslots := List.forall₂_iff_get.mp hfg.slots
  have hlocals := hfg.locals_size
  refine Frame.Rel.of_slots (by simpa [labelled] using hlocals) ?_
  rw [slots_labelled, List.forall₂_iff_get]
  refine ⟨by simpa using hslots.1, fun k hk hk' => ?_⟩
  have hwidth := hslots.2 k (by simpa using hk) hk'
  simp only [List.get_eq_getElem, List.getElem_mapIdx] at hwidth ⊢
  refine ⟨hwidth, ?_⟩
  rw [label?_label]
  show g.slots[k]? = some g.slots[k]
  exact List.getElem?_eq_getElem hk'

/-- A slot behind an instruction is the same for all frames with the same widths, or it is taken over from one
slot, the same for all of them. -/
theorem exists_trace (hid : insn.opcode?.isSome = true → id.index < size)
    (hafter : f.execute (domain size) id insn = .ok after) {j : Nat} {v : SourceValue}
    (hv : after.slots[j]? = some v) :
    (∀ g, Level f g → ∃ left, g.execute (domain size) id insn = .ok left ∧ left.slots[j]? = some v) ∨
      ∃ k : Nat, f.slots[k]? = some v ∧ ∀ g, Level f g →
        ∃ left, g.execute (domain size) id insn = .ok left ∧ left.slots[j]? = g.slots[k]? := by
  obtain ⟨names, hnames, hlevel⟩ := execute_level (labelled_level size f) hafter
  obtain ⟨name, hname, -⟩ := Frame.forall₂_getElem? hlevel.slots hv
  -- The labels are carried along with the values of each frame.
  have htraced : ∀ g, Level f g → ∃ left w, g.execute (domain size) id insn = .ok left ∧
      left.slots[j]? = some w ∧ Traced size g.slots name w := by
    intro g hfg
    obtain ⟨left, hleft, hrel⟩ := execute_simAt (fun hreal => simAt_traced (hid hreal) insn)
      (labelled_traced size hfg) (fun _ _ _ => (labelled_level size f).symm.trans hfg) hnames
    obtain ⟨w, hw, hnamew⟩ := Frame.forall₂_getElem? hrel.slots hname
    exact ⟨left, w, hleft, hw, hnamew⟩
  obtain ⟨after', w, hafter', hw, hself⟩ := htraced f (.refl f)
  obtain rfl := Except.ok.inj (hafter.symm.trans hafter')
  obtain rfl := Option.some.inj (hv.symm.trans hw)
  unfold Traced at htraced hself
  cases hlabel : label? size name with
  | none =>
    simp only [hlabel] at htraced hself
    left
    intro g hfg
    obtain ⟨left, w, hleft, hw, -, rfl⟩ := htraced g hfg
    exact ⟨left, hleft, hself.2 ▸ hw⟩
  | some k =>
    simp only [hlabel] at htraced hself
    refine .inr ⟨k, hself.2, fun g hfg => ?_⟩
    obtain ⟨left, w, hleft, hw, -, hk⟩ := htraced g hfg
    exact ⟨left, hleft, hw.trans hk.symm⟩

end SourceValue

/-! ## Frames and paths -/

namespace SourceAnalysis

variable {m : MethodSig} {body : Body} {a : SourceAnalysis} {p : Nat} {f g : Frame SourceValue}
  {entry : Frame SourceValue}

/-- A path leads to the position, and finds the producer in the slot there. -/
def FoundAt (a : SourceAnalysis) (body : Body) (entry : Frame SourceValue) (p j : Nat) (id : NodeId) : Prop :=
  ∃ path held w, a.flow.IsPath 0 path ∧ Flow.endOf 0 path = p ∧
    entry.follow (domainOf body) a.flow 0 path = .ok held ∧ held.slots[j]? = some w ∧ id ∈ w.producers

/-- Each producer that the analysis knows is found on some path. -/
def FoundOnPaths (a : SourceAnalysis) (m : MethodSig) (body : Body) : Prop :=
  ∀ entry p known, Frame.entry (domainOf body) m body.maxLocals = .ok entry → a.frameAt p = some known →
    ∀ j v, known.slots[j]? = some v → ∀ id ∈ v.producers, a.FoundAt body entry p j id

/-- In the course of the analysis a frame has the widths that are known in the end, and no producer that is
not found on a path. -/
structure Realised (a : SourceAnalysis) (body : Body) (entry : Frame SourceValue) (p : Nat)
    (f : Frame SourceValue) : Prop where
  reaches : a.flow.Reaches p
  level : ∃ known, a.frameAt p = some known ∧ Level known f
  found : ∀ j v, f.slots[j]? = some v → ∀ id ∈ v.producers, a.FoundAt body entry p j id

theorem joinKeeps_realised : Frame.Progress.JoinKeeps (domainOf body) (a.Realised body entry) := by
  intro p f g joined hf hg hjoined
  obtain ⟨known, hknown, hlevelf⟩ := hf.level
  obtain ⟨known', hknown', hlevelg⟩ := hg.level
  obtain rfl := Option.some.inj (hknown.symm.trans hknown')
  have hslots := Frame.slots_join (hlevelf.symm.trans hlevelg).locals_size hjoined
  have hjoinedLevel : Level f joined := by
    have hfg := List.forall₂_iff_get.mp (hlevelf.symm.trans hlevelg).slots
    have hsize : f.locals.size = joined.locals.size := by
      unfold Frame.join at hjoined
      split_ifs at hjoined
      obtain rfl := Except.ok.inj hjoined
      simp [← (hlevelf.symm.trans hlevelg).locals_size]
    refine Frame.Rel.of_slots hsize (List.forall₂_iff_get.mpr ⟨?_, fun k hk hk' => ?_⟩)
    · rw [hslots, List.length_zipWith, ← hfg.1, Nat.min_self]
    · simp only [List.get_eq_getElem, hslots, List.getElem_zipWith]
      rfl
  refine ⟨hf.reaches, ⟨known, hknown, hlevelf.trans hjoinedLevel⟩, fun j v hv id hid => ?_⟩
  rw [hslots, List.getElem?_zipWith_eq_some] at hv
  obtain ⟨x, y, hx, hy, rfl⟩ := hv
  rcases mem_union.mp hid with hid | hid
  · exact hf.found j x hx id hid
  · exact hg.found j y hy id hid

theorem Realised.start (h : run m body = .ok a) (hmeet : a.WidthsMeet m body)
    (hentry : Frame.entry (domainOf body) m body.maxLocals = .ok entry) : a.Realised body entry 0 entry := by
  have hpath : a.flow.IsPath 0 [] := trivial
  obtain ⟨known, _, hknown, hfollow, hrel⟩ := agrees_of_widthsMeet h hmeet hentry hpath
  obtain rfl := Except.ok.inj hfollow
  exact ⟨⟨[], trivial, rfl⟩, ⟨known, hknown, hrel.imp fun _ _ h => h.1⟩,
    fun j v hv id hid => ⟨[], _, v, trivial, rfl, rfl, hv, hid⟩⟩

/-- A path to a position finds the widths of a realised frame. -/
theorem Realised.level_path (h : run m body = .ok a) (hmeet : a.WidthsMeet m body)
    (hentry : Frame.entry (domainOf body) m body.maxLocals = .ok entry) (hf : a.Realised body entry p f)
    {path : List Move} (hpath : a.flow.IsPath 0 path) (hend : Flow.endOf 0 path = p) {held : Frame SourceValue}
    (hheld : entry.follow (domainOf body) a.flow 0 path = .ok held) : Level f held := by
  obtain ⟨known, hknown, hlevel⟩ := hf.level
  obtain ⟨known', held', hknown', hheld', hrel⟩ := agrees_of_widthsMeet h hmeet hentry hpath
  obtain rfl := Except.ok.inj (hheld.symm.trans hheld')
  rw [hend, hknown] at hknown'
  obtain rfl := Option.some.inj hknown'
  exact hlevel.symm.trans (hrel.imp fun _ _ h => h.1)

/-- What a move hands on has the widths that are known behind it. -/
theorem Realised.level_pass (h : run m body = .ok a) (hmeet : a.WidthsMeet m body)
    (hf : a.Realised body entry p f) {move : Move} (hmove : a.flow.Allows p move)
    (hpass : f.pass (domainOf body) a.flow p move = .ok g) :
    ∃ next, a.frameAt move.target = some next ∧ Level next g := by
  obtain ⟨hframes, hflow, _⟩ := run_eq_ok h
  obtain ⟨flow, _, hflow', _, hclosed⟩ := Frame.analyze_closed (joinBounds _) hframes
  obtain rfl := Except.ok.inj (hflow.symm.trans hflow')
  obtain ⟨known, hknown, hlevel⟩ := hf.level
  obtain ⟨handed, hhanded, next, hnext, _⟩ := (hclosed.closedAt p known hknown).absorbed move hmove
  refine ⟨next, hnext, Level.trans (hmeet.moves p move known handed next hknown hmove hhanded hnext) ?_⟩
  cases move with
  | next target =>
    obtain ⟨left, hleft, hrel⟩ := execute_level hlevel hhanded
    obtain rfl := Except.ok.inj (hpass.symm.trans hleft)
    exact hrel
  | raise edge =>
    obtain rfl := Except.ok.inj hpass
    obtain rfl := Except.ok.inj hhanded
    exact ⟨hlevel.locals, .cons rfl .nil⟩

/-- A move realises what it hands on. -/
theorem Realised.move (h : run m body = .ok a) (hmeet : a.WidthsMeet m body)
    (hentry : Frame.entry (domainOf body) m body.maxLocals = .ok entry) (hf : a.Realised body entry p f)
    {move : Move} (hmove : a.flow.Allows p move) (hpass : f.pass (domainOf body) a.flow p move = .ok g) :
    a.Realised body entry move.target g := by
  have hflow := (run_eq_ok h).2.1
  have hlist := Flow.list_of_ofBody hflow
  -- The move goes on from any path to the position.
  have hlonger : ∀ path held left, a.flow.IsPath 0 path → Flow.endOf 0 path = p →
      entry.follow (domainOf body) a.flow 0 path = .ok held → held.pass (domainOf body) a.flow p move = .ok left →
        a.flow.IsPath 0 (path ++ [move]) ∧ Flow.endOf 0 (path ++ [move]) = move.target ∧
          entry.follow (domainOf body) a.flow 0 (path ++ [move]) = .ok left := by
    intro path held left hpath hend hheld hleft
    refine ⟨(a.flow.isPath_append 0 path move).mpr ⟨hpath, hend ▸ hmove⟩, Flow.endOf_append 0 path move, ?_⟩
    rw [Frame.follow_append_ok (domainOf body) a.flow hheld, hend, hleft]
  refine ⟨hf.reaches.move hmove, hf.level_pass h hmeet hmove hpass, fun j v hv id hid => ?_⟩
  cases move with
  | next target =>
    have hnode : (a.flow.insnAt p).opcode?.isSome = true → (a.flow.idAt p).index < body.insns.nodes.size :=
      fun hreal => hlist ▸ InsnList.index_lt_of_opcode hreal
    rcases exists_trace hnode hpass hv with hsame | ⟨k, hk, htaken⟩
    · obtain ⟨path, hpath, hend⟩ := hf.reaches
      obtain ⟨_, held, _, hheld, _⟩ := agrees_of_widthsMeet h hmeet hentry hpath
      obtain ⟨left, hleft, hj⟩ := hsame held (hf.level_path h hmeet hentry hpath hend hheld)
      obtain ⟨hpath', hend', hheld'⟩ := hlonger path held left hpath hend hheld hleft
      exact ⟨_, left, v, hpath', hend', hheld', hj, hid⟩
    · obtain ⟨path, held, w, hpath, hend, hheld, hw, hidw⟩ := hf.found k v hk id hid
      obtain ⟨left, hleft, hj⟩ := htaken held (hf.level_path h hmeet hentry hpath hend hheld)
      obtain ⟨hpath', hend', hheld'⟩ := hlonger path held left hpath hend hheld hleft
      exact ⟨_, left, w, hpath', hend', hheld', hj.trans hw, hidw⟩
  | raise edge =>
    obtain rfl := Except.ok.inj hpass
    -- The exception has no producer, and the locals stay.
    have hstays : ∀ held : Frame SourceValue, held.locals.size = f.locals.size → j < f.locals.size →
        (held.caught (domainOf body) edge.catchType).slots[j]? = held.slots[j]? := by
      intro held hsize hj
      simp only [Frame.slots, Frame.caught]
      rw [List.getElem?_append_left (by simpa [hsize] using hj),
        List.getElem?_append_left (by simpa [hsize] using hj)]
    by_cases hj : j < f.locals.size
    · rw [hstays f rfl hj] at hv
      obtain ⟨path, held, w, hpath, hend, hheld, hw, hidw⟩ := hf.found j v hv id hid
      obtain ⟨hpath', hend', hheld'⟩ := hlonger path held _ hpath hend hheld rfl
      have hsize := (hf.level_path h hmeet hentry hpath hend hheld).locals_size
      exact ⟨_, _, w, hpath', hend', hheld', (hstays held hsize.symm hj).trans hw, hidw⟩
    · rw [Frame.slots, Frame.caught, List.getElem?_append_right (by simpa using hj)] at hv
      obtain rfl := List.mem_singleton.mp (List.mem_of_getElem? hv)
      exact absurd hid List.not_mem_nil

/-- Where widths agree, each producer that the analysis knows is found on some path. -/
theorem foundOnPaths_of_widthsMeet (h : run m body = .ok a) (hmeet : a.WidthsMeet m body) :
    a.FoundOnPaths m body := by
  obtain ⟨hframes, hflow, _⟩ := run_eq_ok h
  intro entry p known hentry hknown
  exact (Frame.analyze_invariant hframes hflow hentry joinKeeps_realised (.start h hmeet hentry)
    (fun _ _ _ _ hf hmove hpass => hf.move h hmeet hentry hmove hpass) p known hknown).found

end SourceAnalysis

/-! ## Values that are taken off the stack -/

/-- The slots on top of the stack that a shuffle duplicates or moves. -/
def Shuffle.slots : Shuffle → Nat
  | .dup => 1
  | .dupX1 | .dup2 | .swap => 2
  | .dupX2 | .dup2X1 => 3
  | .dup2X2 => 4

/-- How many values cover so many slots on top of a stack with these widths. -/
def Frame.covering : Nat → List Nat → Nat
  | 0, _ => 0
  | _ + 1, [] => 0
  | slots + 1, width :: rest => 1 + covering (slots + 1 - width) rest

namespace Insn

/-- How many values an instruction takes off a stack with these widths. What a shuffle puts back counts. -/
def takes (insn : Insn) (widths : List Nat) : Nat :=
  match insn.opcode?.map Opcode.effect with
  | some .store | some .pop => 1
  | some .pop2 => Frame.covering 2 widths
  | some (.shuffle kind) => Frame.covering kind.slots widths
  | _ => insn.operandCount

/-- The values that an instruction takes off the stack. -/
def taken (insn : Insn) (f : Frame SourceValue) : List SourceValue :=
  f.stack.take (insn.takes (f.stack.map (·.size)))

theorem mem_stack_of_mem_taken {insn : Insn} {f : Frame SourceValue} {v : SourceValue} (h : v ∈ insn.taken f) :
    v ∈ f.stack :=
  List.mem_of_mem_take h

/-- Labels and lines take nothing. -/
theorem taken_of_marker {insn : Insn} {f : Frame SourceValue} (h : insn.isReal = false) : insn.taken f = [] := by
  cases insn with
  | label | line _ => rfl
  | _ => cases h

/-- As many values are taken off stacks with the same widths. -/
theorem takes_level (insn : Insn) {f g : Frame SourceValue} (h : Level f g) :
    insn.takes (f.stack.map (·.size)) = insn.takes (g.stack.map (·.size)) := by
  have hwidths : List.Forall₂ (· = ·) (f.stack.map (·.size)) (g.stack.map (·.size)) :=
    List.forall₂_map_left_iff.mpr (List.forall₂_map_right_iff.mpr h.stack)
  rw [List.forall₂_eq_eq_eq] at hwidths
  rw [hwidths]

end Insn

namespace SourceAnalysis

variable {m : MethodSig} {body : Body} {a : SourceAnalysis} {ids : List NodeId}

/-- On every path, what some nodes pushed is taken off the stack by these nodes only. -/
def PopsWithin (a : SourceAnalysis) (m : MethodSig) (body : Body) (ids : List NodeId) : Prop :=
  ∀ entry path held, Frame.entry (domainOf body) m body.maxLocals = .ok entry → a.flow.IsPath 0 path →
    entry.follow (domainOf body) a.flow 0 path = .ok held → a.flow.idAt (Flow.endOf 0 path) ∉ ids →
      ∀ v ∈ (a.flow.insnAt (Flow.endOf 0 path)).taken held, ∀ id ∈ v.producers, id ∉ ids

/-- In the frames of the analysis, what some nodes may have pushed is taken off the stack by these nodes
only. -/
def TakesWithin (a : SourceAnalysis) (ids : List NodeId) : Prop :=
  ∀ p known, a.frameAt p = some known → a.flow.idAt p ∉ ids →
    ∀ v ∈ (a.flow.insnAt p).taken known, ∀ id ∈ v.producers, id ∉ ids

/-- Where widths agree, paths and the frames of the analysis say the same about who takes whose values. -/
theorem popsWithin_iff (h : run m body = .ok a) (hmeet : a.WidthsMeet m body) :
    a.PopsWithin m body ids ↔ a.TakesWithin ids := by
  obtain ⟨hframes, hflow, _⟩ := run_eq_ok h
  obtain ⟨_, entry, _, hentry, _⟩ := Frame.analyze_closed (joinBounds _) hframes
  constructor
  · intro hpops p known hknown hp v hv id hid
    obtain ⟨i, hi, rfl⟩ := List.mem_take_iff_getElem.mp hv
    rw [lt_min_iff] at hi
    -- The value is in a slot of the frame, so some path finds its producer there.
    have hslot : known.slots[known.locals.size + i]? = some known.stack[i] := by
      rw [Frame.slots, List.getElem?_append_right (by simp)]
      simp [List.getElem?_eq_getElem hi.2]
    obtain ⟨path, held, w, hpath, rfl, hheld, hw, hidw⟩ :=
      foundOnPaths_of_widthsMeet h hmeet entry _ known hentry hknown _ _ hslot id hid
    obtain ⟨known', held', hknown', hheld', hrel⟩ := agrees_of_widthsMeet h hmeet hentry hpath
    obtain rfl := Except.ok.inj (hheld.symm.trans hheld')
    obtain rfl := Option.some.inj (hknown.symm.trans hknown')
    have hlevel : Level known held := hrel.imp fun _ _ h => h.1
    rw [Frame.slots, List.getElem?_append_right (by simp [hlevel.locals_size])] at hw
    simp only [Array.length_toList, ← hlevel.locals_size, Nat.add_sub_cancel_left] at hw
    refine hpops entry path held hentry hpath hheld hp w ?_ id hidw
    obtain ⟨hlt, rfl⟩ := List.getElem?_eq_some_iff.mp hw
    refine List.mem_take_iff_getElem.mpr ⟨i, ?_, rfl⟩
    rw [← Insn.takes_level _ hlevel]
    exact lt_min hi.1 hlt
  · intro htakes entry' path held hentry' hpath hheld hp v hv id hid
    obtain ⟨known, held', hknown, hheld', hrel⟩ := agrees_of_widthsMeet h hmeet hentry' hpath
    obtain rfl := Except.ok.inj (hheld.symm.trans hheld')
    have hlevel : Level known held := hrel.imp fun _ _ h => h.1
    rw [Insn.taken, ← Insn.takes_level _ hlevel] at hv
    obtain ⟨u, hu, hagrees⟩ := exists_of_forall₂ (List.forall₂_take _ hrel.stack).flip hv
    exact htakes _ known hknown hp u hu id (hagrees.2 id hid)

/-! ## Bodies without wide values -/

/-- Widths agree everywhere if no parameter is wide, and no instruction makes a wide value. -/
theorem widthsMeet_of_narrow (h : run m body = .ok a)
    (hparams : ∀ entry, Frame.entry (domainOf body) m body.maxLocals = .ok entry → entry.All Narrow)
    (hresults : ∀ p < a.flow.size, Descriptor.size (a.flow.insnAt p).result? = 1) : a.WidthsMeet m body := by
  obtain ⟨hframes, hflow, _⟩ := run_eq_ok h
  obtain ⟨flow, entry, hflow', hentry, hclosed⟩ := Frame.analyze_closed (joinBounds _) hframes
  obtain rfl := Except.ok.inj (hflow.symm.trans hflow')
  have hpos := (Frame.settle_of_analyze hframes hflow hentry).1
  have hkeeps : Frame.KeepsAll (domainOf body) a.flow Narrow := by
    refine Frame.keepsAll_of_keepsAt (fun p hp _ => ?_) fun _ _ _ => rfl
    exact ⟨rfl, hresults p hp, fun _ hv => hv, fun _ _ => hresults p hp, fun _ _ _ _ => hresults p hp,
      fun _ _ => hresults p hp, fun _ _ => nofun⟩
  have hinside : ∀ p move, a.flow.Allows p move → move.target < a.flow.size :=
    fun p move hmove => hmove.target_lt hflow
  have hall : ∀ p known, a.frameAt p = some known → p < a.flow.size ∧ known.All Narrow :=
    Frame.analyze_invariant hframes hflow hentry (Q := fun p f => p < a.flow.size ∧ f.All Narrow)
      (fun _ _ _ _ hf hg hjoined => ⟨hf.1, .join (fun _ _ hv _ => hv) hf.2 hg.2 hjoined⟩)
      ⟨hpos, hparams entry hentry⟩
      fun p _ move _ hbefore hmove hpass => ⟨hinside p move hmove, hkeeps.pass hbefore.1 hbefore.2 hmove hpass⟩
  have hlevel : ∀ {f g : Frame SourceValue}, f.Rel Covers g → f.All Narrow → g.All Narrow →
      Level f g :=
    fun hrel hf hg => (hrel.of_all hf hg).imp fun _ _ h => h.1.trans h.2.symm
  constructor
  · intro entry' known hentry' hknown
    obtain rfl := Except.ok.inj (hentry.symm.trans hentry')
    obtain ⟨known', hknown', hrel⟩ := hclosed.start
    obtain rfl := Option.some.inj (hknown.symm.trans hknown')
    exact hlevel hrel (hall 0 known hknown).2 (hparams entry hentry)
  · intro p move known handed next hknown hmove hpass hnext
    obtain ⟨handed', hpass', next', hnext', hrel⟩ := (hclosed.closedAt p known hknown).absorbed move hmove
    obtain rfl := Except.ok.inj (hpass.symm.trans hpass')
    obtain rfl := Option.some.inj (hnext.symm.trans hnext')
    obtain ⟨hp, hnarrow⟩ := hall p known hknown
    exact hlevel hrel (hall _ next hnext).2 (hkeeps.pass hp hnarrow hmove hpass)

end SourceAnalysis

end DirectCall
