import DirectCall.Proofs.CallSite.Ahead
import DirectCall.Proofs.CallSite.Widths
import DirectCall.Proofs.Sources.Kept

/-!
# Code in another place

Code that takes the kept operands of a call of `invoke` to one narrow value takes the place of the call
(`exists_isUnit_call`). Code that works on what it pushed itself and reads only what is kept at another place can run
there (`RunsApart`): with a store behind it, it stands ahead of the instruction that is there (`isUnit_carried`).
-/

namespace DirectCall

open SourceAnalysis (domainOf)
open SourceValue

namespace SourceValue

/-- A call of `invoke` takes three values and leaves a narrow one of its own. -/
theorem execute_reflective {size : Nat} {id : NodeId} {insn : Insn} {f g : Frame SourceValue}
    (hreflective : insn.isReflectiveInvoke = true) (h : f.execute (domain size) id insn = .ok g) :
    g = ⟨f.locals, ⟨1, [id]⟩ :: f.stack.drop 3⟩ := by
  cases insn with
  | invoke code index member interface =>
    simp only [Insn.isReflectiveInvoke, Bool.and_eq_true, beq_iff_eq] at hreflective
    obtain ⟨⟨⟨rfl, _⟩, _⟩, hdescriptor⟩ := hreflective
    rcases execute_eq_ok.mp h with ⟨hnone, _⟩ | ⟨code, operands, hcode, hstep⟩
    · cases hnone
    · obtain rfl := Option.some.inj hcode
      obtain ⟨⟨count, pushes⟩, hshape, hstep⟩ := bind_eq_ok.mp hstep
      rw [Frame.callShape, hdescriptor] at hshape
      cases hshape
      obtain ⟨_, heq⟩ := Frame.stepNary_eq_ok.mp hstep
      obtain ⟨_, rfl⟩ := Prod.mk.inj heq
      show Frame.mk f.locals (_ :: _) = _
      congr 2
      show SourceValue.mk (Descriptor.size (MethodDescriptor.resultOf? member.descriptor)) [id] = _
      rw [hdescriptor]
      rfl
  | _ => cases hreflective

end SourceValue

namespace SourceAnalysis

open Frame (Keeps keptWidths IsUnit Steady TurnsAll)

variable {V : Type} [DecidableEq V] {d : Domain V} {m : MethodSig} {body : Body} {a : SourceAnalysis}
  {cut : NodeId → Bool} {count q : Nat} {list : InsnList} {jumps : NodeId → Frame V → Prop}

section Run

variable (hd : d.Measured) (h : run m body = .ok a) (hproper : body.insns.Proper) (hmeet : a.WidthsMeet m body)

include hd h hproper hmeet

/-- Code that takes the kept operands of a call of `invoke` to one narrow value is a unit in its place. -/
theorem exists_isUnit_call {before : Frame SourceValue} (hbefore : a.frameAt q = some before)
    (hreflective : (a.flow.insnAt q).isReflectiveInvoke = true) (hcut : cut (a.flow.idAt q) = false)
    (hhands : a.HandsOnKept body.insns.nodes.size (uncut cut) q) {W : List Nat} {code : List Insn}
    (hturns : TurnsAll d (uncut cut) count before.locals code W [1]) {nodes : List NodeId}
    (hnodes : nodes.map list.get = code)
    (hstack : keptWidths (uncut cut) before.stack = W ++ keptWidths (uncut cut) (before.stack.drop 3)) :
    ∃ stages, IsUnit d list jumps (Frame.Raises d body (a.Known d (uncut cut) count) q)
      (a.Known d (uncut cut) count q) (a.Known d (uncut cut) count (q + 1)) nodes stages := by
  have hreal := SiteAnalysis.real_of_reflective hreflective
  have hends : (a.flow.insnAt q).endsFlow = false := by
    cases hinsn : a.flow.insnAt q with
    | invoke => rfl
    | _ =>
      rw [hinsn] at hreflective
      cases hreflective
  have hmove := allows_next h hbefore hends
  obtain ⟨handed, _, hpass, _, _⟩ := exists_next h hmeet hbefore hmove
  have hhanded : handed = ⟨before.locals, ⟨1, [a.flow.idAt q]⟩ :: before.stack.drop 3⟩ :=
    execute_reflective hreflective hpass
  have hresult : uncut cut ⟨1, [a.flow.idAt q]⟩ = true := uncut_of_singleton hcut rfl
  have hleft : keptWidths (uncut cut) handed.stack = [1] ++ keptWidths (uncut cut) (before.stack.drop 3) := by
    rw [hhanded, keptWidths, List.filter_cons, hresult]
    rfl
  have hnext : ∀ f, Keeps d (uncut cut) count before.locals ([1] ++ keptWidths (uncut cut) (before.stack.drop 3)) f →
      a.Known d (uncut cut) count (q + 1) f := by
    intro f hf
    refine Known.of_handed h hmeet (antitone_uncut cut) hbefore hmove hhands hpass ?_
    rw [hleft, hhanded]
    exact hf
  obtain ⟨stages, hids, hlands, hpasses⟩ := hturns.exists_stages hd hnodes
    (fun stack f hf => raises_of_keeps hd h hproper hmeet hreal hhands hbefore hf) hnext
  refine ⟨stages, hids, ?_, hpasses.mono (fun _ _ => .inr) fun _ => id⟩
  rintro f ⟨before', hbefore', hf⟩
  obtain rfl := Option.some.inj (hbefore.symm.trans hbefore')
  exact hlands f (hstack ▸ hf)

end Run

/-! ## Code that moves -/

/-- There is room for new locals behind those that the analysis knows. -/
structure HasRoom (a : SourceAnalysis) (stores : List UInt16) (count : Nat) : Prop where
  size : ∀ p frame, a.frameAt p = some frame → frame.locals.size ≤ count
  fresh : ∀ p frame, a.frameAt p = some frame → ∀ slot ∈ stores,
    frame.locals.size ≤ slot.toNat ∧ slot.toNat < count

/-- The part of a stack above its lowest values. -/
def above (height : Nat) (stack : List SourceValue) : List SourceValue := stack.take (stack.length - height)

/-- The frame has what the analysis knows of the stack above the height that it had where the code began, and,
apart from that, what is kept of the frame at the place that the code moves to. -/
def Carried (a : SourceAnalysis) (d : Domain V) (kept : SourceValue → Bool) (count height place p : Nat)
    (f : Frame V) : Prop :=
  ∃ before there, a.frameAt p = some before ∧ a.frameAt place = some there ∧
    Keeps d kept count there.locals ((above height before.stack).map (·.size) ++ keptWidths kept there.stack) f

/-- Code that can run at another place: it works on what it pushed itself, and it writes no local and reads only
what is kept at that place. It jumps to itself and leaves one narrow value. -/
structure RunsApart (a : SourceAnalysis) (body : Body) (kept : SourceValue → Bool) (code : Span)
    (height place : Nat) : Prop where
  start : ∃ before, a.frameAt code.start = some before ∧ before.stack.length = height
  stop : ∀ after, a.frameAt code.stop = some after → ∃ v, above height after.stack = [v] ∧ v.size = 1
  reaches : ∀ p, code.contains p = true → ∀ before, a.frameAt p = some before → height ≤ before.stack.length
  runs : ∀ p, code.contains p = true → ∀ before, a.frameAt p = some before →
    ∃ left, Frame.execute (domainOf body) (a.flow.idAt p) (a.flow.insnAt p)
      ⟨before.locals, above height before.stack⟩ = .ok left
  writes : ∀ p, code.contains p = true → (a.flow.insnAt p).writtenSlots = []
  reads : ∀ p, code.contains p = true → ∀ before, a.frameAt p = some before → ∀ there, a.frameAt place = some there →
    ∀ var, (a.flow.insnAt p).readSlot? = some var → ∀ v, before.locals[var]? = some v →
      ∃ w, there.locals[var]? = some w ∧ kept w = true ∧ w.size = v.size
  jumps : ∀ p, code.contains p = true → ∀ target ∈ (a.flow.insnAt p).targets,
    code.contains (body.insns.rank target) = true

end SourceAnalysis

namespace Frame

variable {V : Type} [DecidableEq V] {d : Domain V}

/-- An instruction that runs and writes no local neither stores nor increments. -/
theorem effect_of_writtenSlots {size : Nat} {id : NodeId} {insn : Insn} {f g : Frame SourceValue}
    (hwrites : insn.writtenSlots = []) (h : f.execute (domain size) id insn = .ok g) (code : UInt8)
    (hcode : insn.opcode? = some code) : Opcode.effect code ≠ .store ∧ Opcode.effect code ≠ .increment := by
  rcases execute_eq_ok.mp h with ⟨hnone, _⟩ | ⟨code', operands, hcode', hstep⟩
  · rw [hnone] at hcode
    cases hcode
  obtain rfl := Option.some.inj (hcode.symm.trans hcode')
  unfold step at hstep
  constructor
  · intro hstore
    rw [hstore] at hstep
    obtain ⟨_, _, _, _, hslot, _⟩ := stepStore_eq_ok.mp hstep
    cases insn with
    | var code' slot =>
      obtain rfl := Option.some.inj hcode
      rw [Insn.writtenSlots, if_pos (Opcode.between_of_effect_store hstore)] at hwrites
      exact Insn.slotsFrom_ne_nil _ _ hwrites
    | _ => cases hslot
  · intro hincrement
    rw [hincrement] at hstep
    obtain ⟨_, _, _, _, rfl, _⟩ := stepIncrement_eq_ok.mp hstep
    exact List.cons_ne_nil _ _ hwrites

end Frame

namespace SourceAnalysis

open Frame (Keeps keptWidths IsUnit Steady Lands)

variable {V : Type} [DecidableEq V] {d : Domain V} {m : MethodSig} {body : Body} {a : SourceAnalysis}
  {cut : NodeId → Bool} {count height place p : Nat} {list : InsnList} {jumps : NodeId → Frame V → Prop} {code : Span}

/-- The stages of code that moves, from a position on, with the store of what the code leaves. -/
def carriedStages (a : SourceAnalysis) (d : Domain V) (kept : SourceValue → Bool) (count height place : Nat)
    (code : Span) (store : NodeId) (p n : Nat) : List (Frame.Stage V) :=
  (List.range' p n).map (fun p => (a.flow.idAt p, a.Carried d kept count height place p)) ++
    [(store, a.Carried d kept count height place code.stop)]

omit [DecidableEq V] in
theorem steady_carried (hd : d.Measured) : Steady d (a.Carried d (uncut cut) count height place p) := by
  cases hframe : a.frameAt p with
  | none =>
    rintro f g ⟨before, there, hbefore, _⟩
    rw [hframe] at hbefore
    cases hbefore
  | some before =>
    cases hplace : a.frameAt place with
    | none =>
      rintro f g ⟨_, there, _, hthere, _⟩
      rw [hplace] at hthere
      cases hthere
    | some there =>
      have hsame : ∀ f, a.Carried d (uncut cut) count height place p f ↔ Keeps d (uncut cut) count there.locals
          ((above height before.stack).map (·.size) ++ keptWidths (uncut cut) there.stack) f := by
        refine fun f => ⟨?_, fun hf => ⟨before, there, hframe, hplace, hf⟩⟩
        rintro ⟨before', there', hbefore, hthere, hf⟩
        obtain rfl := Option.some.inj (hframe.symm.trans hbefore)
        obtain rfl := Option.some.inj (hplace.symm.trans hthere)
        exact hf
      exact steady_of_frame hd hsame

section Run

variable (hd : d.Measured) (h : run m body = .ok a) (hproper : body.insns.Proper) (hmeet : a.WidthsMeet m body)

include hd h hmeet

/-- Code that runs apart takes its own part of the stack along. -/
theorem Carried.execute (hapart : a.RunsApart body (uncut cut) code height place) (hp : code.contains p = true)
    {f : Frame V} (hf : a.Carried d (uncut cut) count height place p f) :
    ∃ after, f.execute d (a.flow.idAt p) (a.flow.insnAt p) = .ok after ∧
      ∀ target, a.flow.Allows p (.next target) → a.Carried d (uncut cut) count height place target after := by
  obtain ⟨before, there, hbefore, hthere, hkeeps⟩ := hf
  obtain ⟨left, hleft⟩ := hapart.runs p hp before hbefore
  obtain ⟨_, after, hafter, hstack, hwidths⟩ := Frame.execute_onto hd (fun code' =>
    Frame.effect_of_writtenSlots (hapart.writes p hp) hleft code') hleft hkeeps.stack fun var hvar v hv => by
      obtain ⟨w, hw, hkept, hsize⟩ := hapart.reads p hp before hbefore there hthere var hvar v hv
      have hlt := (Array.getElem?_eq_some_iff.mp hw).1
      have hu := Array.getElem?_eq_getElem (Nat.lt_of_lt_of_le hlt hkeeps.locals.size)
      exact ⟨_, hu, (hkeeps.locals.width var w _ hw hkept hu).trans hsize⟩
  have hcount : after.locals.size = count := by
    have hlength := congrArg List.length hwidths
    rw [List.length_map, List.length_map, Array.length_toList, Array.length_toList] at hlength
    rw [← hlength, hkeeps.count]
  refine ⟨after, hafter, fun target hmove => ?_⟩
  obtain ⟨handed, next, hpass, hnext, hagrees⟩ := exists_next h hmeet hbefore hmove
  have hsplit : before.stack = above height before.stack ++ before.stack.drop (before.stack.length - height) :=
    (List.take_append_drop _ _).symm
  have hheight := hapart.reaches p hp before hbefore
  have hhanded : handed.stack = left.stack ++ before.stack.drop (before.stack.length - height) := by
    have habove := Frame.execute_above hleft (before.stack.drop (before.stack.length - height))
    rw [← hsplit] at habove
    have hsame := Except.ok.inj (hpass.symm.trans habove)
    rw [hsame]
  -- What the analysis finds above the height at the target is what the code left.
  have hsizes : (above height next.stack).map (·.size) = left.stack.map (·.size) := by
    have hmap : next.stack.map (·.size) = handed.stack.map (·.size) :=
      (Frame.forall₂_width (d := domainOf body) (e := domainOf body)).mp (hagrees.stack.imp fun _ _ h => h.1)
    have hlength := congrArg List.length hmap
    simp only [List.length_map, hhanded, List.length_append, List.length_drop] at hlength
    have hown : next.stack.length - height = left.stack.length := by omega
    rw [above, hown, List.map_take, hmap, hhanded, List.map_append, ← List.length_map (f := (·.size)), List.take_left]
  refine ⟨next, there, hnext, hthere, ?_, hcount, hkeeps.locals.of_widths hwidths⟩
  rw [hsizes]
  exact hstack

include hproper

/-- Code that runs apart passes its stages and comes back to what is known at the place that it moves to. -/
theorem passesAll_carried (hapart : a.RunsApart body (uncut cut) code height place)
    (hreal : (a.flow.insnAt place).isReal = true) (hhands : a.HandsOnKept body.insns.nodes.size (uncut cut) place)
    (hget : ∀ p, code.contains p = true → list.get (a.flow.idAt p) = a.flow.insnAt p) {store : NodeId}
    {stores : List UInt16} (hroom : a.HasRoom stores count) {var : UInt16} (hvar : var ∈ stores)
    (hstore : list.get store = .var Opcode.astore var)
    (hjumps : ∀ t, code.contains t = true → ∀ f, a.Carried d (uncut cut) count height place t f →
      jumps (a.flow.idAt t) f) {n : Nat} (hstart : code.start ≤ p) (hstop : p + n = code.stop) :
    Frame.Stage.PassesAll d list jumps (Frame.Raises d body (a.Known d (uncut cut) count) place)
      (a.carriedStages d (uncut cut) count height place code store p n) (a.Known d (uncut cut) count place) := by
  have hraises : ∀ q f, a.Carried d (uncut cut) count height place q f →
      Frame.Raises d body (a.Known d (uncut cut) count) place f := by
    rintro q f ⟨before, there, _, hthere, hf⟩
    exact raises_of_keeps hd h hproper hmeet hreal hhands hthere hf
  induction n generalizing p with
  | zero =>
    refine ⟨⟨steady_carried hd, ?_, fun _ f hf => hraises _ f hf⟩, trivial⟩
    rintro f ⟨before, there, hbefore, hthere, hf⟩
    obtain ⟨v, hv, hsize⟩ := hapart.stop before hbefore
    obtain ⟨hlow, hhigh⟩ := hroom.fresh place there hthere var hvar
    rw [hv, List.map_singleton, hsize] at hf
    obtain ⟨after, hafter, hkeeps⟩ := (Frame.turns_astore hd hlow hhigh (lastNarrow h hthere)).execute
      store f _ hf
    refine ⟨after, hstore ▸ hafter, fun target htarget => ?_, fun _ => ⟨there, hthere, hkeeps⟩⟩
    rw [hstore] at htarget
    cases htarget
  | succ n ih =>
    have hp : code.contains p = true := SiteAnalysis.contains_iff.mpr ⟨hstart, by omega⟩
    refine ⟨⟨steady_carried hd, fun f hf => ?_, fun _ f hf => hraises _ f hf⟩, ih (by omega) (by omega)⟩
    obtain ⟨before, _, hbefore, _⟩ := id hf
    obtain ⟨after, hafter, hnext⟩ := Carried.execute hd h hmeet hapart hp hf
    dsimp only
    rw [hget p hp]
    refine ⟨after, hafter, fun target htarget => ?_, fun hends => ?_⟩
    · obtain ⟨hmem, hmove⟩ := allows_target h hproper hbefore htarget
      obtain ⟨t, ht, rfl⟩ := InsnList.mem_order.mp hmem
      rw [hproper.rank_idAt ht] at hmove
      have hinside := hapart.jumps p hp _ htarget
      rw [hproper.rank_idAt ht] at hinside
      rw [← Flow.idAt_of_ofBody (run_eq_ok h).2.1]
      exact hjumps t hinside after (hnext t hmove)
    · have hcarried := hnext (p + 1) (allows_next h hbefore hends)
      cases n with
      | zero =>
        rw [show p + 1 = code.stop from hstop] at hcarried
        exact hcarried
      | succ n => exact hcarried

/-- A unit is one as well with such code ahead of it. -/
theorem isUnit_carried (hapart : a.RunsApart body (uncut cut) code height place)
    (hreal : (a.flow.insnAt place).isReal = true) (hhands : a.HandsOnKept body.insns.nodes.size (uncut cut) place)
    (hget : ∀ p, code.contains p = true → list.get (a.flow.idAt p) = a.flow.insnAt p) {store : NodeId}
    {stores : List UInt16} (hroom : a.HasRoom stores count) {var : UInt16} (hvar : var ∈ stores)
    (hstore : list.get store = .var Opcode.astore var)
    (hcode : code.start < code.stop) {next : Frame V → Prop} {nodes : List NodeId} {stages : List (Frame.Stage V)}
    (hunit : IsUnit d list jumps (Frame.Raises d body (a.Known d (uncut cut) count) place)
      (a.Known d (uncut cut) count place) next nodes stages) :
    ∃ stages, IsUnit d list jumps (Frame.Raises d body (a.Known d (uncut cut) count) place)
      (a.Known d (uncut cut) count place) next ((code.positions.map a.flow.idAt ++ [store]) ++ nodes) stages := by
  obtain ⟨n, hn⟩ : ∃ n, code.stop - code.start = n + 1 := ⟨code.stop - code.start - 1, by omega⟩
  have hlands : ∀ f, a.Known d (uncut cut) count place f → Lands (a.carriedStages d (uncut cut) count height place
      code store code.start (n + 1)) (a.Known d (uncut cut) count place) f := by
    rintro f ⟨there, hthere, hf⟩
    obtain ⟨before, hbefore, rfl⟩ := hapart.start
    refine ⟨before, there, hbefore, hthere, ?_⟩
    rw [above, Nat.sub_self]
    exact hf
  have hpasses : Frame.Stage.PassesAll d list (fun target f => (∃ there ∈ a.carriedStages d (uncut cut) count height place
      code store code.start (n + 1), there.1 = target ∧ there.2 f) ∨ jumps target f)
      (Frame.Raises d body (a.Known d (uncut cut) count) place)
      (a.carriedStages d (uncut cut) count height place code store code.start (n + 1))
      (a.Known d (uncut cut) count place) := by
    refine passesAll_carried hd h hproper hmeet hapart hreal hhands hget hroom hvar hstore
      (fun t ht f hf => ?_) le_rfl (by omega)
    have hmem := Span.mem_positions.mpr (SiteAnalysis.contains_iff.mp ht)
    rw [Span.positions, hn] at hmem
    exact .inl ⟨_, List.mem_append_left _ (List.mem_map_of_mem hmem), rfl, hf⟩
  have hahead := hunit.ahead hlands hpasses
  rw [carriedStages, List.map_append, List.map_map, List.map_singleton, ← hn] at hahead
  exact ⟨_, hahead⟩

end Run

end SourceAnalysis

end DirectCall
