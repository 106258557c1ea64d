import DirectCall.Flow.Blocks
import DirectCall.Proofs.Frame.Arrive
import DirectCall.Proofs.Graph.Reach

/-!
# What blocks are

Blocks are the stretches from one leader to the next (`mem_blocks_iff`), and every position lies in one
(`exists_block`). The search of the block graph marks exactly the blocks that edges lead to from the first
one (`Draws.getD_reachable`).

Control leaves a block behind its last position or for a handler (`IsBlock.on_or_edge`). So the search
marks every block that a path leads into (`marked_of_reaches`). Conversely, control gets to every position of a
marked block, as long as it gets on from each position that it reaches (`reaches_of_marked`).
-/

namespace DirectCall

open Relation (ReflTransGen)

namespace Flow

/-! ## Leaders -/

/-- A block starts at the position, if there is one. -/
inductive IsLeader (f : Flow) : Nat → Prop where
  | entry : IsLeader f 0
  | handler {c : Coverage} : c ∈ f.coverages → c.start < c.stop → c.start < f.size →
      IsLeader f c.edge.handler
  | target {p q : Nat} {targets : List Nat} : p < f.size → f.targetsAt p = .ok targets → q ∈ targets →
      IsLeader f q
  | behind {p : Nat} : p < f.size → (f.insnAt p).targets ≠ [] ∨ (f.insnAt p).isExit = true →
      IsLeader f (p + 1)

theorem targetsAt_eq_nil {f : Flow} {p : Nat} {targets : List Nat} (h : f.targetsAt p = .ok targets) :
    targets = [] ↔ (f.insnAt p).targets = [] := by
  rw [← List.length_eq_zero_iff, ← List.length_eq_zero_iff, (mapM_eq_ok.mp h).length_eq]

theorem mem_leadersAt {f : Flow} {p q : Nat} {found : List Nat} (h : f.leadersAt p = .ok found) :
    q ∈ found ↔ (∃ targets, f.targetsAt p = .ok targets ∧ q ∈ targets) ∨
      q = p + 1 ∧ ((f.insnAt p).targets ≠ [] ∨ (f.insnAt p).isExit = true) := by
  obtain ⟨targets, htargets, h⟩ := bind_eq_ok.mp h
  have hnil := targetsAt_eq_nil htargets
  have hsome : (∃ targets, f.targetsAt p = .ok targets ∧ q ∈ targets) ↔ q ∈ targets := by
    simp [htargets]
  rw [hsome]
  split_ifs at h with hstays
  · rw [Bool.and_eq_true, List.isEmpty_iff, Bool.not_eq_true'] at hstays
    obtain rfl := Except.ok.inj h
    simp [hnil.mp hstays.1, hstays.1, hstays.2]
  · obtain rfl := Except.ok.inj h
    have hleaves : (f.insnAt p).targets ≠ [] ∨ (f.insnAt p).isExit = true := by
      rw [Bool.and_eq_true, List.isEmpty_iff, Bool.not_eq_true', not_and_or, hnil] at hstays
      exact hstays.imp_right Bool.eq_true_of_not_eq_false
    rw [List.mem_append, List.mem_singleton]
    simp [hleaves]

/-- The marks are those of the leaders. -/
theorem getD_leaders {f : Flow} {marks : Array Bool} (h : f.leaders = .ok marks) {p : Nat} :
    marks.getD p false = true ↔ p < f.size ∧ f.IsLeader p := by
  obtain ⟨jumps, hjumps, h⟩ := bind_eq_ok.mp h
  obtain rfl := Except.ok.inj h
  rw [Graph.getD_mark, and_comm]
  refine and_congr_right fun hp => ?_
  simp only [List.mem_append, List.mem_cons, List.mem_flatMap, List.mem_flatten]
  constructor
  · rintro ((rfl | ⟨c, hc, hq⟩) | ⟨found, hfound, hq⟩)
    · exact .entry
    · rw [coverageLeader] at hq
      split_ifs at hq with hcovers
      · obtain rfl := List.mem_singleton.mp hq
        exact .handler hc hcovers.1 hcovers.2
      · cases hq
    · obtain ⟨q, hq', hleaders⟩ := mem_mapM_ok hjumps hfound
      have hinside := List.mem_range.mp hq'
      rcases (mem_leadersAt hleaders).mp hq with ⟨targets, htargets, hq⟩ | ⟨rfl, hleaves⟩
      · exact .target hinside htargets hq
      · exact .behind hinside hleaves
  · have hfound : ∀ q < f.size, ∃ found ∈ jumps, f.leadersAt q = .ok found := fun q hq =>
      exists_of_forall₂ (mapM_eq_ok.mp hjumps) (List.mem_range.mpr hq)
    intro hleader
    cases hleader with
    | entry => exact .inl (.inl rfl)
    | @handler c hc hcovers hinside =>
      exact .inl (.inr ⟨c, hc, by simp [coverageLeader, hcovers, hinside]⟩)
    | @target q _ targets hq htargets hp' =>
      obtain ⟨found, hmem, hleaders⟩ := hfound q hq
      exact .inr ⟨found, hmem, (mem_leadersAt hleaders).mpr (.inl ⟨targets, htargets, hp'⟩)⟩
    | @behind q hq hleaves =>
      obtain ⟨found, hmem, hleaders⟩ := hfound q hq
      exact .inr ⟨found, hmem, (mem_leadersAt hleaders).mpr (.inr ⟨rfl, hleaves⟩)⟩

/-! ## Blocks -/

/-- A stretch from one leader to the next. -/
structure IsBlock (f : Flow) (b : Block) : Prop where
  starts : f.IsLeader b.start
  nonempty : b.start < b.stop
  inside : b.stop ≤ f.size
  ends : b.stop = f.size ∨ f.IsLeader b.stop
  inner : ∀ q, f.IsLeader q → q ≤ b.start ∨ b.stop ≤ q

theorem mem_blocksOf {size : Nat} {starts : List Nat} (hsorted : starts.Pairwise (· < ·))
    (hinside : ∀ s ∈ starts, s < size) {b : Block} :
    b ∈ blocksOf size starts ↔ b.start ∈ starts ∧ b.start < b.stop ∧
      (b.stop = size ∨ b.stop ∈ starts) ∧ ∀ s ∈ starts, s ≤ b.start ∨ b.stop ≤ s := by
  induction starts with
  | nil => simp [blocksOf]
  | cons start rest ih =>
    obtain ⟨hfirst, hrest⟩ := List.pairwise_cons.mp hsorted
    have hstart : start < size := hinside start List.mem_cons_self
    cases rest with
    | nil =>
      obtain ⟨first, last⟩ := b
      simp only [blocksOf, List.mem_singleton, Block.mk.injEq]
      constructor
      · rintro ⟨rfl, rfl⟩
        exact ⟨rfl, hstart, .inl rfl, fun s hs => .inl (Nat.le_of_eq hs)⟩
      · rintro ⟨rfl, hlt, hends, -⟩
        refine ⟨rfl, hends.resolve_right fun heq => ?_⟩
        omega
    | cons next rest =>
      have hnext : start < next := hfirst next List.mem_cons_self
      have ih := ih hrest fun s hs => hinside s (List.mem_cons_of_mem _ hs)
      rw [blocksOf, List.mem_cons, ih]
      constructor
      · rintro (rfl | ⟨hstarts, hlt, hends, hinner⟩)
        · refine ⟨List.mem_cons_self, hnext, .inr (by simp), fun s hs => ?_⟩
          rcases List.mem_cons.mp hs with rfl | hs
          · exact .inl (Nat.le_refl _)
          · rcases List.mem_cons.mp hs with rfl | hs
            · exact .inr (Nat.le_refl _)
            · exact .inr (Nat.le_of_lt ((List.pairwise_cons.mp hrest).1 s hs))
        · refine ⟨List.mem_cons_of_mem _ hstarts, hlt, hends.imp_right (List.mem_cons_of_mem _), ?_⟩
          intro s hs
          rcases List.mem_cons.mp hs with rfl | hs
          · exact .inl (Nat.le_of_lt (hfirst _ hstarts))
          · exact hinner s hs
      · rintro ⟨hstarts, hlt, hends, hinner⟩
        rcases List.mem_cons.mp hstarts with hfirst' | hstarts
        · -- The first block ends at the second leader: not earlier, and not behind it.
          left
          have hnext' := hinner next (by simp)
          have hstop : b.stop = next := by
            rcases hends with hends | hends
            · have := hinside next (by simp)
              omega
            · rcases List.mem_cons.mp hends with hends | hends
              · omega
              · rcases List.mem_cons.mp hends with hends | hends
                · exact hends
                · have := (List.pairwise_cons.mp hrest).1 _ hends
                  omega
          obtain ⟨first, last⟩ := b
          exact congrArg₂ Block.mk hfirst' hstop
        · refine .inr ⟨hstarts, hlt, hends.imp_right fun hends => ?_,
            fun s hs => hinner s (List.mem_cons_of_mem _ hs)⟩
          rcases List.mem_cons.mp hends with heq | hends
          · have := hfirst _ hstarts
            omega
          · exact hends

theorem exists_mem_blocksOf {size start p : Nat} {rest : List Nat} (hp : p < size) (hle : start ≤ p) :
    ∃ b ∈ blocksOf size (start :: rest), b.start ≤ p ∧ p < b.stop := by
  induction rest generalizing start with
  | nil => exact ⟨⟨start, size⟩, List.mem_singleton_self _, hle, hp⟩
  | cons next rest ih =>
    by_cases hnext : next ≤ p
    · obtain ⟨b, hb, hinside⟩ := ih hnext
      exact ⟨b, List.mem_cons_of_mem _ hb, hinside⟩
    · exact ⟨⟨start, next⟩, List.mem_cons_self, hle, Nat.lt_of_not_le hnext⟩

section Leaders

variable {f : Flow} {marks : Array Bool}

theorem mem_starts (h : f.leaders = .ok marks) {p : Nat} :
    p ∈ Graph.members marks ↔ p < f.size ∧ f.IsLeader p :=
  Graph.mem_members.trans (getD_leaders h)

theorem mem_blocks_iff (h : f.leaders = .ok marks) {b : Block} :
    b ∈ blocksOf f.size (Graph.members marks) ↔ f.IsBlock b := by
  rw [mem_blocksOf (Graph.pairwise_members marks) fun s hs => ((mem_starts h).mp hs).1]
  simp only [mem_starts h]
  constructor
  · rintro ⟨hstarts, hlt, hends, hinner⟩
    have hinside : b.stop ≤ f.size := by omega
    refine ⟨hstarts.2, hlt, hinside, hends.imp_right And.right, fun q hq => ?_⟩
    by_cases hsize : q < f.size
    · exact hinner q ⟨hsize, hq⟩
    · omega
  · intro hb
    have hstart := hb.nonempty
    have hstop := hb.inside
    refine ⟨⟨by omega, hb.starts⟩, hstart, ?_, fun s hs => hb.inner s hs.2⟩
    by_cases hend : b.stop = f.size
    · exact .inl hend
    · exact .inr ⟨by omega, hb.ends.resolve_left hend⟩

/-- If there are positions at all, the first block starts at the first one. -/
theorem starts_eq_cons (h : f.leaders = .ok marks) (hsize : 0 < f.size) :
    ∃ rest, Graph.members marks = 0 :: rest := by
  have hzero : 0 ∈ Graph.members marks := (mem_starts h).mpr ⟨hsize, .entry⟩
  have hsorted := Graph.pairwise_members marks
  cases hmembers : Graph.members marks with
  | nil => simp [hmembers] at hzero
  | cons first rest =>
    rw [hmembers] at hzero hsorted
    rcases List.mem_cons.mp hzero with rfl | hzero
    · exact ⟨rest, rfl⟩
    · exact absurd ((List.pairwise_cons.mp hsorted).1 0 hzero) (Nat.not_lt_zero _)

theorem exists_block (h : f.leaders = .ok marks) {p : Nat} (hp : p < f.size) :
    ∃ b, f.IsBlock b ∧ b.start ≤ p ∧ p < b.stop := by
  obtain ⟨rest, hrest⟩ := starts_eq_cons h (by omega)
  obtain ⟨b, hb, hinside⟩ : ∃ b ∈ blocksOf f.size (0 :: rest), b.start ≤ p ∧ p < b.stop :=
    exists_mem_blocksOf hp (Nat.zero_le p)
  exact ⟨b, (mem_blocks_iff h).mp (hrest ▸ hb), hinside⟩

/-- A block that has a leader starts there. -/
theorem IsBlock.start_eq {b : Block} (hb : f.IsBlock b) {q : Nat} (hq : f.IsLeader q)
    (hle : b.start ≤ q) (hlt : q < b.stop) : b.start = q := by
  have := hb.inner q hq
  omega

end Leaders

/-! ## Edges -/

/-- An edge leads from the block to the position. -/
inductive HasEdge (f : Flow) (b : Block) : Nat → Prop where
  | branch {targets : List Nat} {q : Nat} : f.targetsAt (b.stop - 1) = .ok targets → q ∈ targets →
      HasEdge f b q
  | falls : (f.insnAt (b.stop - 1)).endsFlow = false → b.stop < f.size → HasEdge f b b.stop
  | raise {p : Nat} {edge : HandlerEdge} : b.start ≤ p → p < b.stop → (f.insnAt p).isReal = true →
      edge ∈ f.handlersAt p → HasEdge f b edge.handler

theorem mem_blockHandlers {f : Flow} {b : Block} {q : Nat} :
    q ∈ f.blockHandlers b ↔ ∃ p, b.start ≤ p ∧ p < b.stop ∧ (f.insnAt p).isReal = true ∧
      ∃ edge ∈ f.handlersAt p, edge.handler = q := by
  rw [blockHandlers, List.mem_eraseDups, List.mem_flatMap]
  constructor
  · rintro ⟨p, hp, hq⟩
    rw [List.mem_range'_1] at hp
    split_ifs at hq with hreal
    · exact ⟨p, hp.1, by omega, hreal, List.mem_map.mp hq⟩
    · cases hq
  · rintro ⟨p, hle, hlt, hreal, hq⟩
    refine ⟨p, by rw [List.mem_range'_1]; omega, ?_⟩
    rw [if_pos hreal]
    exact List.mem_map.mpr hq

theorem mem_blockEdges {f : Flow} {b : Block} {edges : List FlowEdge} (h : f.blockEdges b = .ok edges) :
    (∀ e ∈ edges, e.source = b.start) ∧ ∀ q, (∃ e ∈ edges, e.target = q) ↔ f.HasEdge b q := by
  obtain ⟨targets, htargets, h⟩ := bind_eq_ok.mp h
  obtain rfl := Except.ok.inj h
  simp only [List.mem_append, List.mem_map]
  constructor
  · rintro e ((⟨q, _, rfl⟩ | he) | ⟨q, _, rfl⟩)
    · rfl
    · split_ifs at he
      · obtain rfl := List.mem_singleton.mp he
        rfl
      · cases he
    · rfl
  · intro q
    constructor
    · rintro ⟨e, (⟨q', hq', rfl⟩ | he) | ⟨q', hq', rfl⟩, rfl⟩
      · exact .branch htargets hq'
      · split_ifs at he with hfalls
        · obtain rfl := List.mem_singleton.mp he
          simp only [Bool.and_eq_true, Bool.not_eq_true', decide_eq_true_iff] at hfalls
          exact .falls hfalls.1 hfalls.2
        · cases he
      · obtain ⟨p, hle, hlt, hreal, edge, hedge, rfl⟩ := mem_blockHandlers.mp hq'
        exact .raise hle hlt hreal hedge
    · intro hedge
      cases hedge with
      | branch htargets' hq =>
        obtain rfl := Except.ok.inj (htargets.symm.trans htargets')
        exact ⟨_, .inl (.inl ⟨q, hq, rfl⟩), rfl⟩
      | falls hends hlt =>
        exact ⟨⟨b.start, b.stop, .fallThrough⟩, .inl (.inr (by simp [hends, hlt])), rfl⟩
      | raise hle hlt hreal hedge =>
        exact ⟨_, .inr ⟨_, mem_blockHandlers.mpr ⟨_, hle, hlt, hreal, _, hedge, rfl⟩, rfl⟩, rfl⟩

/-- Edges lead to leaders. -/
theorem HasEdge.isLeader {f : Flow} {b : Block} (hb : f.IsBlock b) {q : Nat} (h : f.HasEdge b q) :
    f.IsLeader q := by
  have hnonempty := hb.nonempty
  have hinside := hb.inside
  cases h with
  | branch htargets hq => exact .target (by omega) htargets hq
  | falls _ hlt => exact hb.ends.resolve_left (by omega)
  | @raise p edge hle hlt hreal hedge =>
    simp only [handlersAt, List.mem_map, List.mem_filter, Bool.and_eq_true, decide_eq_true_iff] at hedge
    obtain ⟨c, ⟨hc, hcovers⟩, rfl⟩ := hedge
    exact .handler hc (by omega) (by omega)

/-- An edge between the blocks that start at two positions. -/
def Linked (f : Flow) (v w : Nat) : Prop := ∃ b, f.IsBlock b ∧ b.start = v ∧ f.HasEdge b w

end Flow

/-! ## The block graph -/

namespace BlockGraph

variable {body : Body} {g : BlockGraph} {f : Flow}

theorem mem_getD_modify {table : Array (List Nat)} {source target v w : Nat} :
    w ∈ (table.modify source (target :: ·)).getD v [] ↔
      source = v ∧ v < table.size ∧ w = target ∨ w ∈ table.getD v [] := by
  rw [Array.getD_eq_getD_getElem?, Array.getD_eq_getD_getElem?, Array.getElem?_modify]
  by_cases hsource : source = v
  · rw [if_pos hsource]
    by_cases hv : v < table.size
    · simp [hsource, hv]
    · simp [hv]
  · simp [hsource]

theorem mem_adjacency {size v w : Nat} :
    w ∈ (g.adjacency size).getD v [] ↔ v < size ∧ ∃ e ∈ g.edges, e.source = v ∧ e.target = w := by
  have hfold : ∀ edges : List FlowEdge, ∀ table : Array (List Nat),
      table = edges.foldr (fun e table => table.modify e.source (e.target :: ·)) (Array.replicate size []) →
        table.size = size ∧
          (w ∈ table.getD v [] ↔ v < size ∧ ∃ e ∈ edges, e.source = v ∧ e.target = w) := by
    intro edges
    induction edges with
    | nil =>
      rintro table rfl
      refine ⟨Array.size_replicate, ?_⟩
      rw [List.foldr_nil, Array.getD_eq_getD_getElem?, Array.getElem?_replicate]
      split_ifs
      · simp
      · simp
    | cons e edges ih =>
      rintro table rfl
      obtain ⟨hsize, hmem⟩ := ih _ rfl
      rw [List.foldr_cons, Array.size_modify, mem_getD_modify, hmem, hsize, List.exists_mem_cons_iff]
      exact ⟨rfl, by tauto⟩
  exact (hfold g.edges _ rfl).2

theorem start_lt_bound {b : Block} (hb : b ∈ g.blocks) : b.start < g.bound := by
  have hfold : ∀ (blocks : List Block) (n : Nat),
      n ≤ blocks.foldl (fun n b => max n (b.start + 1)) n ∧
        ∀ b ∈ blocks, b.start < blocks.foldl (fun n b => max n (b.start + 1)) n := by
    intro blocks
    induction blocks with
    | nil => simp
    | cons first rest ih =>
      intro n
      obtain ⟨hle, hlt⟩ := ih (max n (first.start + 1))
      rw [List.foldl_cons]
      refine ⟨by omega, fun b hb => ?_⟩
      rcases List.mem_cons.mp hb with rfl | hb
      · omega
      · exact hlt b hb
  exact (hfold g.blocks 0).2 b hb

/-- What a block graph is made of. -/
structure Draws (g : BlockGraph) (f : Flow) : Prop where
  leaders : ∃ marks, f.leaders = .ok marks ∧ g.blocks = Flow.blocksOf f.size (Graph.members marks)
  edges : ∃ lists, g.blocks.mapM f.blockEdges = .ok lists ∧ g.edges = lists.flatten

theorem draws_of_ofBody (h : ofBody body = .ok g) (hflow : Flow.ofBody body = .ok f) : g.Draws f := by
  obtain ⟨f', hflow', h⟩ := bind_eq_ok.mp h
  obtain rfl := Except.ok.inj (hflow.symm.trans hflow')
  obtain ⟨marks, hmarks, h⟩ := bind_eq_ok.mp h
  obtain ⟨lists, hlists, h⟩ := bind_eq_ok.mp h
  obtain rfl := Except.ok.inj h
  exact ⟨⟨marks, hmarks, rfl⟩, ⟨lists, hlists, rfl⟩⟩

theorem reachable_eq (g : BlockGraph) {entry : Block} {rest : List Block} (h : g.blocks = entry :: rest) :
    g.reachable =
      Graph.reach (fun v => (g.adjacency g.bound).getD v []) g.bound [entry.start] := by
  rw [reachable]
  split
  · rename_i hnil
    rw [h] at hnil
    cases hnil
  · rename_i first _ hcons
    rw [h] at hcons
    obtain ⟨rfl, _⟩ := List.cons.inj hcons
    rfl

namespace Draws

theorem mem_blocks (h : g.Draws f) {b : Block} : b ∈ g.blocks ↔ f.IsBlock b := by
  obtain ⟨marks, hmarks, hblocks⟩ := h.leaders
  rw [hblocks, Flow.mem_blocks_iff hmarks]

theorem exists_block (h : g.Draws f) {p : Nat} (hp : p < f.size) :
    ∃ b, f.IsBlock b ∧ b.start ≤ p ∧ p < b.stop := by
  obtain ⟨marks, hmarks, _⟩ := h.leaders
  exact Flow.exists_block hmarks hp

theorem exists_edge (h : g.Draws f) {v w : Nat} :
    (∃ e ∈ g.edges, e.source = v ∧ e.target = w) ↔ f.Linked v w := by
  obtain ⟨lists, hlists, hedges⟩ := h.edges
  simp only [hedges, List.mem_flatten, Flow.Linked]
  constructor
  · rintro ⟨e, ⟨edges, hmem, he⟩, rfl, rfl⟩
    obtain ⟨b, hb, hbedges⟩ := mem_mapM_ok hlists hmem
    obtain ⟨hsource, htarget⟩ := Flow.mem_blockEdges hbedges
    exact ⟨b, h.mem_blocks.mp hb, (hsource e he).symm, (htarget _).mp ⟨e, he, rfl⟩⟩
  · rintro ⟨b, hb, rfl, hw⟩
    obtain ⟨edges, hmem, hbedges⟩ := exists_of_forall₂ (mapM_eq_ok.mp hlists) (h.mem_blocks.mpr hb)
    obtain ⟨hsource, htarget⟩ := Flow.mem_blockEdges hbedges
    obtain ⟨e, he, hw⟩ := (htarget w).mpr hw
    exact ⟨e, ⟨edges, hmem, he⟩, hsource e he, hw⟩

/-- Exactly the blocks that edges lead to from the first one are marked. -/
theorem getD_reachable (h : g.Draws f) (hinside : ∀ b q, f.IsBlock b → f.HasEdge b q → q < f.size)
    (hsize : 0 < f.size) {v : Nat} :
    g.reachable.getD v false = true ↔ ReflTransGen f.Linked 0 v := by
  obtain ⟨marks, hmarks, hblocks⟩ := h.leaders
  obtain ⟨rest, hrest⟩ := Flow.starts_eq_cons hmarks hsize
  obtain ⟨entry, others, hentry, hstart⟩ :
      ∃ entry others, g.blocks = entry :: others ∧ entry.start = 0 := by
    rw [hblocks, hrest]
    cases rest with
    | nil => exact ⟨_, _, rfl, rfl⟩
    | cons next rest => exact ⟨_, _, rfl, rfl⟩
  have hbound : ∀ b q, f.IsBlock b → f.HasEdge b q → q < g.bound := by
    intro b q hb hq
    obtain ⟨c, hc, hle, hlt⟩ := h.exists_block (hinside b q hb hq)
    rw [← hc.start_eq (hq.isLeader hb) hle hlt]
    exact start_lt_bound (h.mem_blocks.mpr hc)
  have hleads : Graph.Leads (fun v => (g.adjacency g.bound).getD v []) g.bound = f.Linked := by
    funext v w
    rw [Graph.Leads, mem_adjacency, h.exists_edge, eq_iff_iff]
    constructor
    · rintro ⟨⟨_, hlinked⟩, _⟩
      exact hlinked
    · rintro ⟨b, hb, rfl, hw⟩
      exact ⟨⟨start_lt_bound (h.mem_blocks.mpr hb), b, hb, rfl, hw⟩, hbound b w hb hw⟩
  have hlt : entry.start < g.bound := start_lt_bound (hentry ▸ List.mem_cons_self)
  rw [g.reachable_eq hentry, Graph.reach_iff, hleads]
  constructor
  · rintro ⟨s, hs, _, hpath⟩
    rwa [List.mem_singleton.mp hs, hstart] at hpath
  · exact fun hpath => ⟨_, List.mem_singleton_self _, hlt, hstart ▸ hpath⟩

end Draws

end BlockGraph

/-! ## Blocks that control reaches -/

open Relation (ReflTransGen)

namespace Flow

/-- Control gets on from an instruction, or the instruction is one that a block ends with. -/
structure GetsOn (f : Flow) (p : Nat) : Prop where
  successors : ∃ targets, f.successors p = .ok targets
  ends : (f.insnAt p).endsFlow = true → (f.insnAt p).targets ≠ [] ∨ (f.insnAt p).isExit = true

section Blocks

variable {f : Flow} {b : Block} {p q : Nat}

theorem mem_successors_iff {targets : List Nat} (h : f.successors p = .ok targets) :
    q ∈ targets ↔ (∃ jumps, f.targetsAt p = .ok jumps ∧ q ∈ jumps) ∨
      (f.insnAt p).endsFlow = false ∧ p + 1 < f.size ∧ q = p + 1 := by
  obtain ⟨jumps, hjumps, h⟩ := bind_eq_ok.mp h
  have hjump : (∃ jumps, f.targetsAt p = .ok jumps ∧ q ∈ jumps) ↔ q ∈ jumps := by simp [hjumps]
  rw [hjump]
  split_ifs at h with hends hnext
  · obtain rfl := Except.ok.inj h
    simp [hends]
  · obtain rfl := Except.ok.inj h
    simp [hends, hnext]

namespace IsBlock

/-- Two blocks around one position are one. -/
theorem start_unique {c : Block} (hb : f.IsBlock b) (hc : f.IsBlock c) (hbp : b.start ≤ p ∧ p < b.stop)
    (hcp : c.start ≤ p ∧ p < c.stop) : b.start = c.start := by
  have := hb.inner c.start hc.starts
  have := hc.inner b.start hb.starts
  omega

/-- Ahead of the last position of a block nothing jumps or exits. -/
theorem stays (hb : f.IsBlock b) (hle : b.start ≤ p) (hlt : p + 1 < b.stop) :
    (f.insnAt p).targets = [] ∧ (f.insnAt p).isExit = false := by
  have hinside := hb.inside
  by_contra hleaves
  rw [not_and_or, ← ne_eq, Bool.not_eq_false] at hleaves
  have := hb.inner (p + 1) (.behind (by omega) hleaves)
  omega

/-- Control goes on to the next position of the block, or along an edge. -/
theorem on_or_edge (hb : f.IsBlock b) (hle : b.start ≤ p) (hlt : p < b.stop) {move : Move}
    (hmove : f.Allows p move) :
    move.target = p + 1 ∧ p + 1 < b.stop ∨ f.HasEdge b move.target := by
  cases move with
  | next q =>
    obtain ⟨targets, htargets, hq⟩ := hmove
    rcases (mem_successors_iff htargets).mp hq with ⟨jumps, hjumps, hq⟩ | ⟨hends, hinside, rfl⟩
    · have hlast : p = b.stop - 1 := by
        by_contra hinner
        have hnone := (targetsAt_eq_nil hjumps).mpr (hb.stays hle (by omega)).1
        simp [hnone] at hq
      exact .inr (.branch (hlast ▸ hjumps) hq)
    · by_cases hstop : p + 1 < b.stop
      · exact .inl ⟨rfl, hstop⟩
      · have hlast : b.stop = p + 1 := by omega
        have hfalls := HasEdge.falls (f := f) (b := b) (by rw [hlast]; exact hends) (hlast ▸ hinside)
        exact .inr (hlast ▸ hfalls)
  | raise edge => exact .inr (.raise hle hlt hmove.1 hmove.2)

/-- From the start of a block control gets to all of it. -/
theorem reaches (hb : f.IsBlock b) (hgets : ∀ q, f.Reaches q → f.GetsOn q)
    (hstart : f.Reaches b.start) (hle : b.start ≤ p) (hlt : p < b.stop) : f.Reaches p := by
  induction hle with
  | refl => exact hstart
  | @step p hle ih =>
    have hp := ih (by omega)
    have hinside := hb.inside
    have hstays := hb.stays hle hlt
    obtain ⟨⟨targets, htargets⟩, hends⟩ := hgets p hp
    have hfalls : (f.insnAt p).endsFlow = false := by
      by_contra hflow
      have hleaves := hends (Bool.eq_true_of_not_eq_false hflow)
      rw [hstays.1, hstays.2] at hleaves
      simp at hleaves
    exact hp.next htargets ((mem_successors_iff htargets).mpr (.inr ⟨hfalls, by omega, rfl⟩))

/-- Control gets along the edges of a block that it gets into. -/
theorem reaches_edge (hb : f.IsBlock b) (hgets : ∀ q, f.Reaches q → f.GetsOn q)
    (hstart : f.Reaches b.start) (hq : f.HasEdge b q) : f.Reaches q := by
  have hnonempty := hb.nonempty
  have hlast : f.Reaches (b.stop - 1) := hb.reaches hgets hstart (by omega) (by omega)
  cases hq with
  | branch htargets hq =>
    obtain ⟨⟨targets, hsuccessors⟩, _⟩ := hgets _ hlast
    exact hlast.next hsuccessors ((mem_successors_iff hsuccessors).mpr (.inl ⟨_, htargets, hq⟩))
  | falls hends hinside =>
    have hstop : b.stop - 1 + 1 = b.stop := by omega
    obtain ⟨⟨targets, hsuccessors⟩, _⟩ := hgets _ hlast
    exact hlast.next hsuccessors
      ((mem_successors_iff hsuccessors).mpr (.inr ⟨hends, by omega, hstop.symm⟩))
  | @raise p edge hle hlt hreal hedge =>
    exact (hb.reaches hgets hstart hle hlt).move (show f.Allows p (.raise edge) from ⟨hreal, hedge⟩)

end IsBlock

end Blocks

theorem HasEdge.target_lt {body : Body} {f : Flow} (hflow : ofBody body = .ok f) {b : Block} {q : Nat}
    (h : f.HasEdge b q) : q < f.size := by
  cases h with
  | branch htargets hq =>
    obtain ⟨id, _, hid⟩ := mem_mapM_ok htargets hq
    rw [positions_of_ofBody hflow] at hid
    exact Positions.find_lt hid
  | falls _ hlt => exact hlt
  | @raise p edge _ _ hreal hedge =>
    exact Allows.target_lt hflow (show f.Allows p (.raise edge) from ⟨hreal, hedge⟩)

theorem Reaches.lt {body : Body} {f : Flow} (hflow : ofBody body = .ok f) (hsize : 0 < f.size) {p : Nat}
    (h : f.Reaches p) : p < f.size :=
  h.induct (P := fun p => p < f.size) hsize fun _ _ _ _ hmove => hmove.target_lt hflow

end Flow

namespace BlockGraph

variable {body : Body} {g : BlockGraph} {f : Flow} {b : Block} {p : Nat}

/-- A block is marked if a path leads into it. -/
theorem marked_of_reaches (h : ofBody body = .ok g) (hflow : Flow.ofBody body = .ok f)
    (hp : f.Reaches p) (hb : f.IsBlock b) (hle : b.start ≤ p) (hlt : p < b.stop) :
    g.reachable.getD b.start false = true := by
  have hdraws := draws_of_ofBody h hflow
  have hsize : 0 < f.size := by
    have := hb.inside
    omega
  rw [hdraws.getD_reachable (fun _ _ _ hq => hq.target_lt hflow) hsize]
  refine hp.induct (P := fun p => ∀ b, f.IsBlock b → b.start ≤ p → p < b.stop →
    ReflTransGen f.Linked 0 b.start) (fun b _ hle _ => ?_) (fun q move hq ih hmove b hb hle hlt => ?_)
    b hb hle hlt
  · rw [Nat.le_zero.mp hle]
  · obtain ⟨c, hc, hcle, hclt⟩ := hdraws.exists_block (hq.lt hflow hsize)
    have hreached := ih c hc hcle hclt
    rcases hc.on_or_edge hcle hclt hmove with ⟨heq, hon⟩ | hedge
    · rwa [hb.start_unique hc ⟨hle, hlt⟩ ⟨by omega, by omega⟩]
    · rw [hb.start_eq (hedge.isLeader hc) hle hlt]
      exact hreached.tail ⟨c, hc, rfl, hedge⟩

/-- Control gets to every position of a marked block, if it gets on from wherever it gets to. -/
theorem reaches_of_marked (h : ofBody body = .ok g) (hflow : Flow.ofBody body = .ok f)
    (hgets : ∀ q, f.Reaches q → f.GetsOn q) (hb : f.IsBlock b)
    (hmarked : g.reachable.getD b.start false = true) (hle : b.start ≤ p) (hlt : p < b.stop) :
    f.Reaches p := by
  have hsize : 0 < f.size := by
    have := hb.inside
    omega
  rw [(draws_of_ofBody h hflow).getD_reachable (fun _ _ _ hq => hq.target_lt hflow) hsize] at hmarked
  have hstart : ∀ v, ReflTransGen f.Linked 0 v → f.Reaches v := by
    intro v hpath
    induction hpath with
    | refl => exact ⟨[], trivial, rfl⟩
    | tail _ hlinked ih =>
      obtain ⟨c, hc, rfl, hedge⟩ := hlinked
      exact hc.reaches_edge hgets ih hedge
  exact hb.reaches hgets (hstart _ hmarked) hle hlt

end BlockGraph

end DirectCall
