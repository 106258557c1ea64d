import DirectCall.Proofs.Flow.Prune
import DirectCall.Proofs.Frame.Settles
import DirectCall.Proofs.InsnList.Number

/-!
# Where control gets to in a body

A body has a flow if all that its regions name has a place (`Flow.exists_ofBody_iff`). A sweep removes no node
that control gets to, nor would it with fewer regions (`not_dead_of_getsTo`). An analysis gets on from every
position that it reaches (`getsOn_of_analyze`). So in a body that pruning leaves as it is, it reaches every
instruction (`Body.Clean.reaches`).
-/

namespace DirectCall

namespace InsnList

/-- All nodes that the region names have a place. -/
structure Places (list : InsnList) (r : Region) : Prop where
  start : r.start ∈ list.order
  stop : r.stop ∈ list.order
  handler : r.handler ∈ list.order

theorem Places.of_part {a b : InsnList} {r : Region} (h : b.Places r) (hpart : b.PartOf a) : a.Places r :=
  ⟨hpart.mem h.start, hpart.mem h.stop, hpart.mem h.handler⟩

theorem Proper.find_eq_ok {list : InsnList} (h : list.Proper) {id : NodeId} {p : Nat} :
    list.positions.find id = .ok p ↔ id ∈ list.order ∧ list.rank id = p := by
  rw [Positions.find_eq_ok, h.find?_eq_some]

end InsnList

namespace Flow

variable {body : Body} {f : Flow}

/-- A body has a flow if all that its regions name has a place. -/
theorem exists_ofBody_iff (h : body.insns.Proper) :
    (∃ f, ofBody body = .ok f) ↔ ∀ r ∈ body.regions, body.insns.Places r := by
  constructor
  · rintro ⟨f, hf⟩ r hr
    obtain ⟨coverages, hcoverages, _⟩ := bind_eq_ok.mp hf
    obtain ⟨c, _, hc⟩ := exists_of_forall₂ (mapM_eq_ok.mp hcoverages) hr
    obtain ⟨start, hstart, hc⟩ := bind_eq_ok.mp hc
    obtain ⟨stop, hstop, hc⟩ := bind_eq_ok.mp hc
    obtain ⟨handler, hhandler, _⟩ := bind_eq_ok.mp hc
    exact ⟨(h.find_eq_ok.mp hstart).1, (h.find_eq_ok.mp hstop).1, (h.find_eq_ok.mp hhandler).1⟩
  · intro hplaces
    have hcoverage : ∀ r ∈ body.regions, ∃ c, coverage body.insns.positions r = .ok c := by
      intro r hr
      obtain ⟨hstart, hstop, hhandler⟩ := hplaces r hr
      exact ⟨_, bind_eq_ok.mpr ⟨_, h.find_eq_ok.mpr ⟨hstart, rfl⟩,
        bind_eq_ok.mpr ⟨_, h.find_eq_ok.mpr ⟨hstop, rfl⟩,
          bind_eq_ok.mpr ⟨_, h.find_eq_ok.mpr ⟨hhandler, rfl⟩, rfl⟩⟩⟩⟩
    obtain ⟨coverages, hcoverages⟩ := exists_mapM_ok hcoverage
    exact ⟨_, bind_eq_ok.mpr ⟨coverages, hcoverages, rfl⟩⟩

theorem find_eq_ok (hproper : body.insns.Proper) (h : ofBody body = .ok f) {id : NodeId} {p : Nat} :
    f.positions.find id = .ok p ↔ id ∈ body.insns.order ∧ body.insns.rank id = p := by
  rw [positions_of_ofBody h, list_of_ofBody h, hproper.find_eq_ok]

/-- With other regions, a body has a flow if the list has a place for what these name. -/
theorem exists_ofBody_of_places (h : body.insns.Proper) {R : List Region}
    (hplaces : ∀ r ∈ R, body.insns.Places r) : ∃ f, ofBody { body with regions := R } = .ok f :=
  have hproper : ({ body with regions := R } : Body).insns.Proper := h
  (exists_ofBody_iff hproper).mpr hplaces

/-- Control gets to the node. -/
def GetsTo (f : Flow) (id : NodeId) : Prop := ∃ p < f.size, f.Reaches p ∧ f.idAt p = id

theorem GetsTo.mem_order (hflow : ofBody body = .ok f) {id : NodeId} (h : f.GetsTo id) :
    id ∈ body.insns.order := by
  obtain ⟨p, hp, _, rfl⟩ := h
  rw [size_of_ofBody hflow] at hp
  rw [idAt_of_ofBody hflow]
  exact InsnList.mem_order.mpr ⟨p, hp, rfl⟩

/-! ## Fewer regions -/

theorem Reaches.mono {R : List Region} {g : Flow} (hsub : R ⊆ body.regions)
    (hflow : ofBody { body with regions := R } = .ok f) (hall : ofBody body = .ok g) {p : Nat}
    (h : f.Reaches p) : g.Reaches p := by
  have hlist : f.list = g.list := by rw [list_of_ofBody hflow, list_of_ofBody hall]
  have hpositions : f.positions = g.positions := by
    rw [positions_of_ofBody hflow, positions_of_ofBody hall, hlist]
  have hallows : ∀ q move, f.Allows q move → g.Allows q move := by
    intro q move hmove
    cases move with
    | next target =>
      have hsame : f.successors q = g.successors q := by
        obtain ⟨list, positions, coverages⟩ := f
        obtain ⟨list', positions', coverages'⟩ := g
        obtain rfl : list = list' := hlist
        obtain rfl : positions = positions' := hpositions
        rfl
      obtain ⟨targets, htargets, hmem⟩ := hmove
      exact ⟨targets, hsame ▸ htargets, hmem⟩
    | raise edge =>
      obtain ⟨hreal, hedge⟩ := hmove
      refine ⟨by simpa only [insnAt, hlist] using hreal, (mem_handlersAt_iff hall).mpr ?_⟩
      obtain ⟨r, hr, hcovers⟩ := (mem_handlersAt_iff hflow).mp hedge
      exact ⟨r, hsub hr, hcovers⟩
  obtain ⟨path, hpath, rfl⟩ := h
  refine ⟨path, ?_, rfl⟩
  generalize 0 = q at hpath ⊢
  induction path generalizing q with
  | nil => trivial
  | cons move rest ih => exact ⟨hallows q move hpath.1, ih _ hpath.2⟩

end Flow

namespace Body

/-- Control gets to no dead instruction, not even with fewer regions. -/
theorem not_dead_of_getsTo {body : Body} {dead : List NodeId} (h : body.unreachable = .ok dead)
    (hproper : body.insns.Proper) {R : List Region} (hsub : R ⊆ body.regions) {f : Flow}
    (hflow : Flow.ofBody { body with regions := R } = .ok f) {id : NodeId} (hid : f.GetsTo id) :
    id ∉ dead := by
  intro hmem
  obtain ⟨g, all, hg, hall, hdead⟩ := unreachable_spec h
  obtain ⟨b, q, hb, hmark, hle, hlt, _, rfl⟩ := (hdead id).mp hmem
  obtain ⟨p, hp, hreaches, hidAt⟩ := hid
  have hinside := hb.inside
  rw [Flow.size_of_ofBody hall] at hinside
  rw [Flow.size_of_ofBody hflow] at hp
  rw [Flow.idAt_of_ofBody hflow] at hidAt
  obtain rfl := hproper.idAt_inj hp (by omega) hidAt
  have hmarked := BlockGraph.marked_of_reaches hg hall (hreaches.mono hsub hflow hall) hb hle hlt
  rw [hmark] at hmarked
  cases hmarked

end Body

/-! ## Bodies that are clean and analysed -/

variable {V : Type} [DecidableEq V] {d : Domain V} {body : Body} {f : Flow} {p : Nat}

/-- An instruction that ends the flow and was executed names targets, returns or throws. -/
theorem Insn.targets_or_isExit {insn : Insn} {id : NodeId} {before after : Frame V}
    (h : before.execute d id insn = .ok after) (hends : insn.endsFlow = true) :
    insn.targets ≠ [] ∨ insn.isExit = true := by
  cases insn with
  | jump code target => exact .inl (List.cons_ne_nil _ _)
  | tableSwitch low default targets => exact .inl (List.cons_ne_nil _ _)
  | lookupSwitch default keys targets => exact .inl (List.cons_ne_nil _ _)
  | op code => exact .inr hends
  | var code v =>
    -- Returns from subroutines are not executed.
    obtain rfl : code = Opcode.ret := eq_of_beq hends
    obtain ⟨s, hs, _⟩ := bind_eq_ok.mp h
    cases hs
  | _ => cases hends

theorem Flow.getsOn_of_settles {m : MethodSig} {frames : Frame.Frames V}
    (h : Frame.Settles d m body frames) (hflow : Flow.ofBody body = .ok f) (hp : f.Reaches p) : f.GetsOn p := by
  obtain ⟨_, _, _, _, hclosed⟩ := h.closed (Frame.Progress.joinBounds_true d).absorbs hflow
  obtain ⟨frame, hframe⟩ := Option.isSome_iff_exists.mp ((h.isSome_iff_reaches hflow p).mpr hp)
  have hat := hclosed p frame hframe
  obtain ⟨after, hafter⟩ := hat.executes
  exact ⟨hat.continues, Insn.targets_or_isExit hafter⟩

theorem Flow.getsOn_of_analyze {m : MethodSig} {frames : Frame.Frames V}
    (h : Frame.analyze d m body = .ok frames) (hflow : Flow.ofBody body = .ok f) (hp : f.Reaches p) :
    f.GetsOn p :=
  getsOn_of_settles (Frame.settles_of_analyze h) hflow hp

omit [DecidableEq V] in
/-- If control gets on from wherever it gets to, no instruction of a clean body is out of reach. -/
theorem Body.Clean.reaches_of_getsOn (hclean : body.Clean) (hflow : Flow.ofBody body = .ok f)
    (hgets : ∀ q, f.Reaches q → f.GetsOn q) (hp : p < f.size) (hreal : (f.insnAt p).isReal = true) :
    f.Reaches p := by
  obtain ⟨g, f', hg, hflow', hdead⟩ := unreachable_spec hclean.live
  obtain rfl := Except.ok.inj (hflow'.symm.trans hflow)
  obtain ⟨b, hb, hle, hlt⟩ := (BlockGraph.draws_of_ofBody hg hflow).exists_block hp
  refine BlockGraph.reaches_of_marked hg hflow hgets hb ?_ hle hlt
  by_contra hunmarked
  rw [Bool.not_eq_true] at hunmarked
  have hlist := Flow.list_of_ofBody hflow
  rw [Flow.insnAt, hlist] at hreal
  exact List.not_mem_nil ((hdead (body.insns.idAt p)).mpr ⟨b, p, hb, hunmarked, hle, hlt, hreal, rfl⟩)

/-- No instruction of a clean body is out of reach. -/
theorem Body.Clean.reaches (hclean : body.Clean) {m : MethodSig} {frames : Frame.Frames V}
    (h : Frame.analyze d m body = .ok frames) (hflow : Flow.ofBody body = .ok f) (hp : p < f.size)
    (hreal : (f.insnAt p).isReal = true) : f.Reaches p :=
  hclean.reaches_of_getsOn hflow (fun _ => Flow.getsOn_of_analyze h hflow) hp hreal

end DirectCall
