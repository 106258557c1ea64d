import DirectCall.Proofs.Descriptor.Grammar
import DirectCall.Proofs.Frame.Ends
import DirectCall.Proofs.InsnList.Number
import DirectCall.Proofs.Verification.Join
import Mathlib.Data.Finset.Card

/-!
# How often a verification type changes

A join leads strictly up: from a class to one with fewer known types above it, to a type that no join leads on
from, to the root class, or inside an array type (`joinNames_falls`). There is no way back if no type is a
supertype of itself, and also, whatever cycles there are, if interfaces are named as interfaces
(`climbs_of_acyclic`, `climbs_of_implemented`). An array type may also lose an odd spelling of its component,
once at each dimension. So a name changes at most as often as there are classes and, twice, brackets
(`nameRank_le`), and the analysis ends (`VerificationType.ends`, `VerificationType.ends_of_implemented`).
-/

namespace DirectCall

open Relation

/-! ## Ranks of names -/

namespace ClassTable

open Hierarchy (component?)

open scoped Classical in
/-- The known types among a name and what a relation leads up to from there. -/
noncomputable def knownAbove (table : ClassTable) (up : String → String → Prop) (name : String) : Finset String :=
  table.keys.toFinset.filter fun above => ReflTransGen up name above

variable {table : ClassTable} {up : String → String → Prop}

theorem mem_knownAbove {name above : String} :
    above ∈ table.knownAbove up name ↔ above ∈ table ∧ ReflTransGen up name above := by
  classical
  rw [knownAbove, Finset.mem_filter, List.mem_toFinset, Std.HashMap.mem_keys]

theorem card_knownAbove_le (table : ClassTable) (up : String → String → Prop) (name : String) :
    (table.knownAbove up name).card ≤ table.size := by
  classical
  rw [← Std.HashMap.length_keys]
  exact (Finset.card_filter_le _ _).trans (List.toFinset_card_le _)

theorem card_knownAbove_pos {name : String} (hmem : name ∈ table) : 0 < (table.knownAbove up name).card :=
  Finset.card_pos.mpr ⟨name, mem_knownAbove.mpr ⟨hmem, .refl⟩⟩

/-- Where no way leads back from, there are fewer known types above. -/
theorem card_knownAbove_lt {name above : String} (hmem : name ∈ table) (h : ReflTransGen up name above)
    (hback : ¬ ReflTransGen up above name) :
    (table.knownAbove up above).card < (table.knownAbove up name).card := by
  refine Finset.card_lt_card ⟨fun x hx => ?_, fun hsub => ?_⟩
  · obtain ⟨hknown, hreach⟩ := mem_knownAbove.mp hx
    exact mem_knownAbove.mpr ⟨hknown, h.trans hreach⟩
  · exact hback (mem_knownAbove.mp (hsub (mem_knownAbove.mpr ⟨hmem, .refl⟩))).2

open scoped Classical in
/-- How often a join may change a class constant. -/
noncomputable def nameRank (table : ClassTable) (up : String → String → Prop) (name : String) : Nat :=
  match _h : component? name with
  | none =>
    if name = objectClass then 0
    else if table.IsClass name then 1 + (table.knownAbove up name).card
    else 1
  | some component =>
    match _h' : Descriptor.className? component with
    | none => 1
    | some element =>
      1 + (if Descriptor.ofClassName element = component then 0 else 1) + table.nameRank up element
termination_by name.length
decreasing_by
  have hlength := Descriptor.length_component? ‹_›
  have hle := Descriptor.length_className?_le ‹_›
  omega

theorem nameRank_class {name : String} (h : component? name = none) (hobject : name ≠ objectClass)
    (hclass : table.IsClass name) : table.nameRank up name = 1 + (table.knownAbove up name).card := by
  unfold nameRank
  split
  · rw [if_neg hobject, if_pos hclass]
  · rename_i hcomponent
    cases h.symm.trans hcomponent

theorem nameRank_end {name : String} (h : component? name = none) (hobject : name ≠ objectClass)
    (hclass : ¬ table.IsClass name) : table.nameRank up name = 1 := by
  unfold nameRank
  split
  · rw [if_neg hobject, if_neg hclass]
  · rename_i hcomponent
    cases h.symm.trans hcomponent

theorem nameRank_object : table.nameRank up objectClass = 0 := by
  have hplain : component? objectClass = none := by decide
  unfold nameRank
  split
  · exact if_pos rfl
  · rename_i hcomponent
    cases hplain.symm.trans hcomponent

theorem nameRank_array {name component element : String} (h : component? name = some component)
    (helement : Descriptor.className? component = some element) : table.nameRank up name =
      1 + (if Descriptor.ofClassName element = component then 0 else 1) + table.nameRank up element := by
  rw [nameRank]
  split
  · rename_i hnone
    cases hnone.symm.trans h
  · rename_i component' hcomponent
    obtain rfl := Option.some.inj (h.symm.trans hcomponent)
    split
    · rename_i hnone
      cases hnone.symm.trans helement
    · rename_i element' helement'
      obtain rfl := Option.some.inj (helement.symm.trans helement')
      rfl

theorem nameRank_bracket (name : String) :
    table.nameRank up ("[" ++ Descriptor.ofClassName name) = 1 + table.nameRank up name := by
  rw [nameRank_array (Descriptor.component?_bracket _) (Descriptor.className?_ofClassName name), if_pos rfl]

theorem nameRank_pos {name : String} (h : name ≠ objectClass) : 0 < table.nameRank up name := by
  unfold nameRank
  split
  · rw [if_neg h]
    split_ifs
    · omega
    · exact Nat.zero_lt_one
  · split
    · exact Nat.zero_lt_one
    · omega

end ClassTable

/-! ## Brackets -/

namespace Frame

theorem brackets_component? {name component : String} (h : Hierarchy.component? name = some component) :
    brackets name = brackets component + 1 := by
  rw [brackets, Descriptor.component?_eq_some.mp h, List.count_cons_self, brackets]

theorem brackets_className? {d name : String} (h : Descriptor.className? d = some name) :
    brackets name ≤ brackets d := by
  rcases Descriptor.className?_eq_some h with ⟨rfl, _⟩ | htext
  · exact Nat.le_refl _
  · rw [brackets, brackets, htext, List.count_append, List.count_cons_of_ne (by decide)]
    exact Nat.le_add_right _ _

theorem brackets_ofClassName (name : String) : brackets (Descriptor.ofClassName name) = brackets name := by
  unfold Descriptor.ofClassName
  split_ifs
  · rfl
  · rw [brackets, String.toList_append, String.toList_append, List.count_append, List.count_append]
    have hfirst : ("L" : String).toList.count '[' = 0 := by decide
    have hlast : (";" : String).toList.count '[' = 0 := by decide
    rw [hfirst, hlast, brackets]
    omega

theorem brackets_le_bound {m : MethodSig} {body : Body} {text : String} (h : text ∈ texts m body) :
    brackets text ≤ bracketBound m body := by
  have hall : ∀ l : List String, text ∈ l →
      brackets text ≤ l.foldr (fun text bound => max (brackets text) bound) 0 := by
    intro l hl
    induction l with
    | nil => cases hl
    | cons first rest ih =>
      rw [List.foldr_cons]
      rcases List.mem_cons.mp hl with rfl | hl
      · exact Nat.le_max_left _ _
      · exact (ih hl).trans (Nat.le_max_right _ _)
  exact hall _ h

/-- A parameter is a part of its descriptor. -/
theorem brackets_param {descriptor : String} {parsed : MethodDescriptor}
    (h : MethodDescriptor.parse descriptor = .ok parsed) {param : String} (hparam : param ∈ parsed.params) :
    brackets param ≤ brackets descriptor := by
  obtain ⟨ts, ret, _, _, htext, rfl⟩ := MethodDescriptor.parse_sound h
  obtain ⟨t, ht, rfl⟩ := List.mem_map.mp hparam
  have hspelled : t.chars.count '[' ≤ (MethodDescriptor.spelled ts).count '[' :=
    (List.sublist_flatten_of_mem (List.mem_map_of_mem ht)).count_le _
  rw [brackets, brackets, htext, TypeText.toList_text, List.count_cons_of_ne (by decide), List.count_append]
  omega

end Frame

theorem ClassTable.nameRank_le (table : ClassTable) (up : String → String → Prop) (name : String) :
    table.nameRank up name ≤ 2 * Frame.brackets name + table.size + 1 := by
  fun_induction table.nameRank up name with
  | case1 => exact Nat.zero_le _
  | case2 name =>
    have := table.card_knownAbove_le up name
    omega
  | case3 => omega
  | case4 => omega
  | case5 name component h element h' ih =>
    have hcomponent := Frame.brackets_component? h
    have hle := Frame.brackets_className? h'
    have hspelling : (if Descriptor.ofClassName element = component then 0 else 1) ≤ 1 := by
      split_ifs
      · exact Nat.zero_le 1
      · exact Nat.le_refl 1
    omega

/-! ## Joins -/

namespace VerificationType

open ClassTable
open Hierarchy (freeze component?)

section Names

variable {table : ClassTable} {up : String → String → Prop}

/-- Common superclasses lie up a relation, which leads back from none of them to where a search began. -/
def Climbs (table : ClassTable) (up : String → String → Prop) : Prop :=
  ∀ {a b r : String}, component? a = none → component? b = none → (freeze table).commonSuperclass a b = r →
    r ≠ a → r ≠ objectClass → table.IsClass a ∧ component? r = none ∧ ReflTransGen up a r ∧
      (table.IsClass r → ¬ ReflTransGen up r a)

theorem climbs_of_acyclic (hacyclic : ∀ name, ¬ TransGen table.Link name name) :
    Climbs table table.Link := by
  intro a b r ha hb hr hne hroot
  rcases commonSuperclass_up ha hb hr with hobject | ⟨hsame, _⟩ | ⟨hclass, _, hplain, _, hup⟩
  · exact absurd hobject hroot
  · exact absurd hsame hne
  · have hreach : ReflTransGen table.Link a r := by
      rcases hup with hextends | ⟨rfl, hsub⟩
      · exact links_of_extends hextends
      · obtain ⟨_, hreach⟩ := ((reaches_of_isSubtype ha hsub).resolve_left hne).resolve_left hroot
        exact hreach.links
    have hproper : TransGen table.Link a r := (reflTransGen_iff_eq_or_transGen.mp hreach).resolve_left hne
    exact ⟨hclass, hplain, hreach, fun _ hback => hacyclic a (hproper.trans_left hback)⟩

/-- The search takes the first name itself where the second one leads up to it. So it does not go round a cycle
of superclasses. -/
theorem climbs_of_implemented (himplemented : table.Implemented) : Climbs table table.Extends := by
  intro a b r ha hb hr hne hroot
  rcases commonSuperclass_up ha hb hr with hobject | ⟨hsame, _⟩ | ⟨hclass, hclass', hplain, hsub, hup⟩
  · exact absurd hobject hroot
  · exact absurd hsame hne
  · have hreach : ReflTransGen table.Extends a r := by
      rcases hup with hextends | ⟨rfl, habove⟩
      · exact hextends
      · exact (((isSubtype_iff_extends ha (hclass'.not_implements himplemented)).mp habove).resolve_left hroot).2
    refine ⟨hclass, hplain, hreach, fun hclassr hback => hne ?_⟩
    have hsecond : ReflTransGen table.Extends b r :=
      (((isSubtype_iff_extends hb (hclassr.not_implements himplemented)).mp hsub).resolve_left hroot).2
    have hbelow : (freeze table).isSubtype a b = some true :=
      subtypeWithin_of_reaches hb ha (.inl (hsecond.trans hback)) _
    rw [← hr, commonSuperclass_classes hclass hclass', if_pos hbelow]

variable (hclimbs : Climbs table up)
include hclimbs

/-- A common superclass is the name itself, or falls in rank. -/
theorem commonSuperclass_falls {a b : String} (ha : component? a = none) (hb : component? b = none)
    (hobject : a ≠ objectClass) (hne : (freeze table).commonSuperclass a b ≠ a) :
    table.nameRank up ((freeze table).commonSuperclass a b) < table.nameRank up a := by
  generalize hr : (freeze table).commonSuperclass a b = r at hne ⊢
  by_cases hroot : r = objectClass
  · rw [hroot, nameRank_object]
    exact nameRank_pos hobject
  · obtain ⟨hclass, hplain, hreach, hback⟩ := hclimbs ha hb hr hne hroot
    obtain ⟨_, hheader, _⟩ := id hclass
    have hmem : a ∈ table := mem_of_getElem? hheader
    rw [nameRank_class ha hobject hclass]
    by_cases hclassr : table.IsClass r
    · rw [nameRank_class hplain hroot hclassr]
      exact Nat.add_lt_add_left (card_knownAbove_lt hmem hreach (hback hclassr)) 1
    · rw [nameRank_end hplain hroot hclassr]
      exact Nat.lt_add_of_pos_right (card_knownAbove_pos hmem)

/-- A name that a join changes falls in rank. -/
theorem joinNames_falls (depth : Nat) (a b : String) : joinNames (freeze table) depth a b = a ∨
    table.nameRank up (joinNames (freeze table) depth a b) < table.nameRank up a := by
  by_cases hobject : a = objectClass
  · exact .inl (by rw [hobject, joinNames_object])
  · have hroot : table.nameRank up objectClass < table.nameRank up a := nameRank_object ▸ nameRank_pos hobject
    induction depth generalizing a b with
    | zero => exact .inr hroot
    | succ depth ih =>
      unfold joinNames
      split
      · rename_i first second hfirst _
        split
        · rename_i below other hbelow _
          rw [nameRank_bracket, nameRank_array hfirst hbelow]
          have hjoined : joinNames (freeze table) depth below other = below ∨
              table.nameRank up (joinNames (freeze table) depth below other) < table.nameRank up below := by
            by_cases hbelowObject : below = objectClass
            · exact .inl (by rw [hbelowObject, joinNames_object])
            · exact ih below other hbelowObject (nameRank_object ▸ nameRank_pos hbelowObject)
          rcases hjoined with heq | hfalls
          · rw [heq]
            by_cases hspelling : Descriptor.ofClassName below = first
            · left
              rw [hspelling, ← String.toList_inj, String.toList_append, Descriptor.component?_eq_some.mp hfirst]
              rfl
            · right
              rw [if_neg hspelling]
              omega
          · right
            omega
        · exact .inr hroot
      · rename_i ha hb
        by_cases hsame : (freeze table).commonSuperclass a b = a
        · exact .inl hsame
        · exact .inr (commonSuperclass_falls hclimbs ha hb hobject hsame)
      · exact .inr hroot

end Names

/-- A class that the type names changes at most `bound` times. -/
def Within (table : ClassTable) (up : String → String → Prop) (bound : Nat) : VerificationType → Prop
  | .object className => table.nameRank up className ≤ bound
  | .uninit _ className => table.nameRank up className ≤ bound
  | _ => True

/-- How often a join may change a type: null may become any class. -/
noncomputable def rank (table : ClassTable) (up : String → String → Prop) (bound : Nat) : VerificationType → Nat
  | .top => 0
  | .null => bound + 2
  | .object className => 1 + table.nameRank up className
  | _ => 1

theorem rank_pos {table : ClassTable} {up : String → String → Prop} {bound : Nat} {v : VerificationType}
    (h : v ≠ .top) : 0 < rank table up bound v := by
  cases v with
  | top => exact absurd rfl h
  | null => exact Nat.succ_pos _
  | object className =>
    show 0 < 1 + table.nameRank up className
    omega
  | _ => exact Nat.zero_lt_one

theorem rankedOn {table : ClassTable} {up : String → String → Prop} (hclimbs : Climbs table up) (m : MethodSig)
    (bound : Nat) :
    (domain (freeze table) m).RankedOn (Within table up bound) (rank table up bound) (bound + 2) where
  bounded v hv := by
    cases v with
    | top => exact Nat.zero_le _
    | null => exact Nat.le_refl _
    | object className =>
      have hname : table.nameRank up className ≤ bound := hv
      show 1 + table.nameRank up className ≤ bound + 2
      omega
    | _ =>
      show 1 ≤ bound + 2
      omega
  keeps x y hx hy := by
    show Within table up bound (join (freeze table) x y)
    rcases join_cases (freeze table) x y with ⟨heq, _⟩ | heq | ⟨heq, _, _⟩ | ⟨a, b, rfl, rfl, heq⟩
    · rw [heq]
      exact hx
    · rw [heq]
      trivial
    · rw [heq]
      exact hy
    · rw [heq]
      have ha : table.nameRank up a ≤ bound := hx
      show table.nameRank up (joinNames (freeze table) (a.length + 1) a b) ≤ bound
      rcases joinNames_falls hclimbs (a.length + 1) a b with hsame | hfalls
      · rw [hsame]
        exact ha
      · omega
  falls x y hx hy hne := by
    change join (freeze table) x y ≠ x at hne
    show rank table up bound (join (freeze table) x y) < rank table up bound x
    rcases join_cases (freeze table) x y with ⟨heq, _⟩ | heq | ⟨heq, rfl, b, rfl⟩ | ⟨a, b, rfl, rfl, heq⟩
    · exact absurd heq hne
    · rw [heq] at hne ⊢
      exact rank_pos (Ne.symm hne)
    · have hb : table.nameRank up b ≤ bound := hy
      rw [heq]
      show 1 + table.nameRank up b < bound + 2
      omega
    · rw [heq] at hne ⊢
      have hfalls := (joinNames_falls hclimbs (a.length + 1) a b).resolve_left fun hsame =>
        hne (congrArg object hsame)
      exact Nat.add_lt_add_left hfalls 1

/-! ## Types that occur -/

section Occur

variable {table : ClassTable} {up : String → String → Prop} {limit : Nat}

/-- Names with few brackets change seldom. -/
theorem nameRank_le_of_brackets {name : String} (h : Frame.brackets name ≤ limit) :
    table.nameRank up name ≤ 2 * limit + table.size + 1 := by
  have := table.nameRank_le up name
  omega

theorem within_ofDescriptor {bound : Nat} {d : String}
    (h : ∀ name, Descriptor.className? d = some name → table.nameRank up name ≤ bound) :
    Within table up bound (ofDescriptor d) := by
  unfold ofDescriptor
  split
  case h_9 rest hd =>
    refine h d ?_
    unfold Descriptor.className?
    rw [hd]
    rfl
  case h_10 =>
    show table.nameRank up ((Descriptor.className? d).getD objectClass) ≤ bound
    cases hclass : Descriptor.className? d with
    | none =>
      rw [Option.getD_none, nameRank_object]
      exact Nat.zero_le bound
    | some name => exact h name hclass
  all_goals trivial

theorem within_of_brackets {d : String} (h : Frame.brackets d ≤ limit) :
    Within table up (2 * limit + table.size + 1) (ofDescriptor d) :=
  within_ofDescriptor fun _ hname => nameRank_le_of_brackets ((Frame.brackets_className? hname).trans h)

theorem within_ofResult {insn : Insn} (h : ∀ d, insn.result? = some d → Frame.brackets d ≤ limit) :
    Within table up (2 * limit + table.size + 1) (ofResult insn) := by
  unfold ofResult
  split
  · rename_i d hd
    exact within_of_brackets (h d hd)
  · trivial

/-- The elements of an array change less often than the array. -/
theorem Within.element {bound : Nat} {v : VerificationType} (h : v.Within table up bound) :
    (element v).Within table up bound := by
  cases v with
  | object array =>
    have harray : table.nameRank up array ≤ bound := h
    cases hcomponent : component? array with
    | none =>
      rw [VerificationType.element, hcomponent]
      show table.nameRank up objectClass ≤ bound
      rw [nameRank_object]
      exact Nat.zero_le bound
    | some component =>
      rw [VerificationType.element, hcomponent]
      refine within_ofDescriptor fun name hname => ?_
      rw [nameRank_array hcomponent hname] at harray
      omega
  | _ => trivial

/-- All texts of an instruction that makes a value have few brackets. -/
theorem keepsAt {m : MethodSig} {id : NodeId} {insn : Insn} (howner : Frame.brackets m.owner ≤ limit)
    (hinsn : ∀ d, insn.result? = some d → Frame.brackets d ≤ limit) :
    (domain (freeze table) m).KeepsAt (Within table up (2 * limit + table.size + 1)) id insn := by
  have hresult : Within table up (2 * limit + table.size + 1) (ofResult insn) := within_ofResult hinsn
  constructor
  case unset => trivial
  case produce =>
    show Within table up _ (produce id insn)
    unfold produce
    split
    · split_ifs
      · trivial
      · exact hresult
    · rename_i code _ className
      split_ifs with hnew
      · refine nameRank_le_of_brackets ?_
        rw [← Frame.brackets_ofClassName]
        exact hinsn _ (by rw [Insn.result?, if_pos (.inl hnew)])
      · exact hresult
    · exact hresult
  case copy => exact fun _ hv => hv
  case unary =>
    intro v hv
    show Within table up _ (unary insn v)
    unfold unary
    split
    · exact hv
    · exact hresult
  case binary =>
    intro v w hv _
    show Within table up _ (binary insn v)
    unfold binary
    split_ifs
    · exact hv.element
    · exact hresult
  case nary => exact fun _ _ => hresult
  case refine =>
    intro vs hvs change hchange
    change change ∈ refine m.owner insn vs at hchange
    unfold refine at hchange
    split at hchange
    · split_ifs at hchange
      · split at hchange
        · rename_i site className _
          obtain rfl := List.mem_singleton.mp hchange
          have hreceiver : Within table up _ (uninit site className) := hvs _ List.mem_cons_self
          exact hreceiver
        · obtain rfl := List.mem_singleton.mp hchange
          exact nameRank_le_of_brackets howner
        · cases hchange
      · cases hchange
    · cases hchange

end Occur

section Ends

variable {table : ClassTable} {up : String → String → Prop} {m : MethodSig} {body : Body}

theorem entry_within {entry : Frame VerificationType}
    (h : Frame.entry (domain (freeze table) m) m body.maxLocals = .ok entry) :
    entry.All (Within table up (2 * Frame.bracketBound m body + table.size + 1)) := by
  refine Frame.entry_all ?_ ?_ (fun parsed hparsed p hp => ?_) h
  · trivial
  · show Within table up _ (receiver m)
    unfold receiver
    split_ifs
    · trivial
    · exact nameRank_le_of_brackets (Frame.brackets_le_bound (by simp [Frame.texts]))
  · have hdescriptor : Frame.brackets m.descriptor ≤ Frame.bracketBound m body :=
      Frame.brackets_le_bound (by simp [Frame.texts])
    exact within_of_brackets ((Frame.brackets_param hparsed hp).trans hdescriptor)

/-- All types that occur in a body are made of its texts. -/
theorem keepsAll {flow : Flow} (hflow : Flow.ofBody body = .ok flow) :
    Frame.KeepsAll (domain (freeze table) m) flow
      (Within table up (2 * Frame.bracketBound m body + table.size + 1)) := by
  refine Frame.keepsAll_of_keepsAt (fun position hposition _ => keepsAt ?_ fun d hd => ?_) ?_
  · exact Frame.brackets_le_bound (by simp [Frame.texts])
  · have hlist := Flow.list_of_ofBody hflow
    rw [Flow.insnAt, hlist] at hd
    rw [Flow.size, hlist] at hposition
    have hmem : body.insns.insnAt position ∈ body.insns.insns.toList :=
      List.mem_of_getElem? (InsnList.getElem?_insns hposition)
    have htext : d ∈ body.insns.insns.toList.filterMap (·.result?) := List.mem_filterMap.mpr ⟨_, hmem, hd⟩
    exact Frame.brackets_le_bound (List.mem_append_left _ (List.mem_cons_of_mem _ (List.mem_cons_of_mem _ htext)))
  · intro position edge hedge
    obtain ⟨r, hr, _, _, _, _, _, _, _, _, rfl⟩ := (Flow.mem_handlersAt_iff hflow).mp hedge
    refine nameRank_le_of_brackets ?_
    show Frame.brackets (r.catchType.getD "java/lang/Throwable") ≤ Frame.bracketBound m body
    cases hcatch : r.catchType with
    | none => exact Nat.zero_le _
    | some caught =>
      have htext : caught ∈ body.regions.filterMap (·.catchType) := List.mem_filterMap.mpr ⟨r, hr, hcatch⟩
      exact Frame.brackets_le_bound (List.mem_append_right _ htext)

theorem ends_of_climbs (hclimbs : Climbs table up) (m : MethodSig) (body : Body) :
    Frame.Ends (domain (freeze table) m) m body := by
  have hranked := rankedOn hclimbs m (2 * Frame.bracketBound m body + table.size + 1)
  exact Frame.ends_of_ranked hranked (fun _ => entry_within) fun _ => keepsAll

/-- The analysis of types ends if no type is a supertype of itself. -/
theorem ends (hacyclic : ∀ name, ¬ TransGen table.Link name name) (m : MethodSig) (body : Body) :
    Frame.Ends (domain (freeze table) m) m body :=
  ends_of_climbs (climbs_of_acyclic hacyclic) m body

/-- It also ends if interfaces are named as interfaces, however types extend one another. -/
theorem ends_of_implemented (himplemented : table.Implemented) (m : MethodSig) (body : Body) :
    Frame.Ends (domain (freeze table) m) m body :=
  ends_of_climbs (climbs_of_implemented himplemented) m body

end Ends

end VerificationType

end DirectCall
