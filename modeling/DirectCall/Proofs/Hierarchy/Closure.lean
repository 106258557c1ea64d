import DirectCall.Hierarchy
import Mathlib.Data.List.Perm.Subperm
import Mathlib.Logic.Relation
import Mathlib.Tactic.SplitIfs

/-!
# What a closure holds

A closure is computed by a walk up the superclasses and a walk over the interfaces of all types met. Both
walks have as many steps as they need: the first one never comes to a class twice, the second one never
makes an interface pending twice. So a closure holds the supertypes that are reached and no others
(`contains_closure`), and it is complete exactly if all of them are known
(`closure_complete`). Nothing is assumed of the table: types may be missing, and classes may extend
themselves.
-/

namespace DirectCall

open Relation

namespace ClassTable

variable {table : ClassTable}

/-- The type is a class, and `above` is its superclass. -/
def Extends (table : ClassTable) (name above : String) : Prop :=
  ∃ header, table[name]? = some header ∧ header.superclass? = some above

/-- The type names the interface as one of its own. -/
def Implements (table : ClassTable) (name interface : String) : Prop :=
  ∃ header, table[name]? = some header ∧ interface ∈ header.interfaces

/-- A type, its superclasses, and all that is an interface of one of these. -/
def Reaches (table : ClassTable) (name above : String) : Prop :=
  ReflTransGen table.Extends name above ∨
    ∃ below, ReflTransGen table.Extends name below ∧ TransGen table.Implements below above

theorem mem_of_getElem? {name : String} {header : ClassHeader} (h : table[name]? = some header) :
    name ∈ table := by
  rw [Std.HashMap.mem_iff_isSome_getElem?, h]
  rfl

theorem Extends.mem {name above : String} (h : table.Extends name above) : name ∈ table := by
  obtain ⟨header, hheader, _⟩ := h
  exact mem_of_getElem? hheader

theorem Implements.mem {name interface : String} (h : table.Implements name interface) : name ∈ table := by
  obtain ⟨header, hheader, _⟩ := h
  exact mem_of_getElem? hheader

/-- Distinct names of known types are at most as many as there are types. -/
theorem length_le_size {names : List String} (hnodup : names.Nodup) (hknown : ∀ x ∈ names, x ∈ table) :
    names.length ≤ table.size := by
  rw [← Std.HashMap.length_keys]
  exact (List.subperm_of_subset hnodup fun x hx => Std.HashMap.mem_keys.mpr (hknown x hx)).length_le

/-! ## Superclasses -/

/-- What a walk from `name` finds that has `seen` the names below. -/
structure Climbs (table : ClassTable) (seen : List String) (name : String) (r : List String × Bool) :
    Prop where
  reached : ∀ x ∈ r.1, ReflTransGen table.Extends name x
  closed : ∀ x ∈ name :: r.1, ∀ above, table.Extends x above → above ∈ seen ∨ above ∈ r.1
  complete : r.2 = true ↔ ∀ x ∈ name :: r.1, x ∈ table

theorem Climbs.stop {seen : List String} {name : String} {header : ClassHeader}
    (hheader : table[name]? = some header) (h : ∀ above, header.superclass? = some above → above ∈ seen) :
    table.Climbs seen name ([], true) where
  reached := by simp
  closed := by
    rintro x hx above ⟨header', hheader', habove⟩
    obtain rfl := List.mem_singleton.mp hx
    obtain rfl := Option.some.inj (hheader.symm.trans hheader')
    exact .inl (h above habove)
  complete := by simp [mem_of_getElem? hheader]

theorem Climbs.missing {seen : List String} {name : String} (h : name ∉ table) :
    table.Climbs seen name ([], false) where
  reached := by simp
  closed := by
    rintro x hx above hextends
    obtain rfl := List.mem_singleton.mp hx
    exact absurd hextends.mem h
  complete := by simp [h]

theorem Climbs.step {seen : List String} {name above : String} {r : List String × Bool}
    {header : ClassHeader} (hheader : table[name]? = some header) (hsuper : header.superclass? = some above)
    (h : table.Climbs (above :: seen) above r) : table.Climbs seen name (above :: r.1, r.2) where
  reached x hx := by
    have hstep : table.Extends name above := ⟨header, hheader, hsuper⟩
    rcases List.mem_cons.mp hx with rfl | hx
    · exact .single hstep
    · exact .head hstep (h.reached x hx)
  closed x hx above' hextends := by
    rcases List.mem_cons.mp hx with rfl | hx
    · obtain ⟨header', hheader', habove'⟩ := hextends
      obtain rfl := Option.some.inj (hheader.symm.trans hheader')
      obtain rfl := Option.some.inj (hsuper.symm.trans habove')
      exact .inr List.mem_cons_self
    · rcases h.closed x hx above' hextends with hmem | hmem
      · rcases List.mem_cons.mp hmem with rfl | hmem
        · exact .inr List.mem_cons_self
        · exact .inl hmem
      · exact .inr (List.mem_cons_of_mem _ hmem)
  complete := by
    refine h.complete.trans ?_
    rw [List.forall_mem_cons (a := name)]
    exact (and_iff_right (mem_of_getElem? hheader)).symm

/-- The names seen are distinct and all known but the last one, so the walk is at an end before its
steps are. -/
theorem superChain_climbs (steps : Nat) (name : String) (older : List String)
    (hnodup : (name :: older).Nodup) (hknown : ∀ x ∈ older, x ∈ table)
    (hsteps : table.size < steps + older.length) :
    table.Climbs (name :: older) name (table.superChain steps (name :: older) name) := by
  induction steps generalizing name older with
  | zero =>
    have hmany := length_le_size hnodup.of_cons hknown
    omega
  | succ steps ih =>
    unfold superChain
    split
    · rename_i hmissing
      refine .missing ?_
      rw [Std.HashMap.mem_iff_isSome_getElem?, hmissing]
      simp
    · rename_i header hheader
      split
      · rename_i hsuper
        exact .stop hheader (by simp [hsuper])
      · rename_i above hsuper
        split_ifs with hseen
        · refine .stop hheader fun above' habove' => ?_
          obtain rfl := Option.some.inj (hsuper.symm.trans habove')
          exact List.contains_iff_mem.mp hseen
        · have hfresh : above ∉ name :: older := fun hmem => hseen (List.contains_iff_mem.mpr hmem)
          have hknown' : ∀ x ∈ name :: older, x ∈ table :=
            List.forall_mem_cons.mpr ⟨mem_of_getElem? hheader, hknown⟩
          exact .step hheader hsuper (ih above (name :: older) (List.nodup_cons.mpr ⟨hfresh, hnodup⟩) hknown'
            (by simp only [List.length_cons]; omega))

theorem superclasses_climbs (start : String) : table.Climbs [start] start (table.superclasses start) :=
  superChain_climbs _ start [] (by simp) (by simp) (by simp)

/-- The superclasses are those that are reached. -/
theorem mem_superclasses {start x : String} :
    x ∈ start :: (table.superclasses start).1 ↔ ReflTransGen table.Extends start x := by
  have hclimbs := table.superclasses_climbs start
  constructor
  · intro hx
    rcases List.mem_cons.mp hx with rfl | hx
    · exact .refl
    · exact hclimbs.reached x hx
  · intro hreach
    induction hreach with
    | refl => exact List.mem_cons_self
    | tail _ hstep ih =>
      rcases hclimbs.closed _ ih _ hstep with hmem | hmem
      · exact List.mem_cons.mpr (.inl (List.mem_singleton.mp hmem))
      · exact List.mem_cons_of_mem _ hmem

/-! ## Interfaces -/

theorem mem_freshInterfaces {found names : List String} {x : String} :
    x ∈ freshInterfaces found names ↔ x ∈ names ∧ x ∉ found := by
  induction names generalizing found with
  | nil => simp [freshInterfaces]
  | cons name rest ih =>
    unfold freshInterfaces
    split_ifs with hfound
    · rw [ih, List.mem_cons]
      have hmem := List.contains_iff_mem.mp hfound
      constructor
      · exact fun ⟨hx, hout⟩ => ⟨.inr hx, hout⟩
      · rintro ⟨rfl | hx, hout⟩
        · exact absurd hmem hout
        · exact ⟨hx, hout⟩
    · have hout : name ∉ found := fun hmem => hfound (List.contains_iff_mem.mpr hmem)
      rw [List.mem_cons, ih, List.mem_cons, List.mem_cons, not_or]
      constructor
      · rintro (rfl | ⟨hx, _, hx'⟩)
        · exact ⟨.inl rfl, hout⟩
        · exact ⟨.inr hx, hx'⟩
      · rintro ⟨hx, hx'⟩
        by_cases heq : x = name
        · exact .inl heq
        · exact .inr ⟨hx.resolve_left heq, heq, hx'⟩

theorem nodup_freshInterfaces (found names : List String) : (freshInterfaces found names).Nodup := by
  induction names generalizing found with
  | nil => exact List.nodup_nil
  | cons name rest ih =>
    unfold freshInterfaces
    split_ifs
    · exact ih found
    · refine List.nodup_cons.mpr ⟨fun hmem => ?_, ih _⟩
      exact (mem_freshInterfaces.mp hmem).2 List.mem_cons_self

/-- The interface names in all headers. -/
def interfaceNames (table : ClassTable) : List String := table.toList.flatMap (·.2.interfaces)

theorem length_interfaceNames : table.interfaceNames.length = table.interfaceCount := by
  have hsum : ∀ (headers : List (String × ClassHeader)) (n : Nat),
      headers.foldl (fun n b => n + b.2.interfaces.length) n =
        n + (headers.flatMap (·.2.interfaces)).length := by
    intro headers
    induction headers with
    | nil => simp
    | cons b rest ih =>
      intro n
      rw [List.foldl_cons, ih, List.flatMap_cons, List.length_append, Nat.add_assoc]
  rw [interfaceCount, Std.HashMap.fold_eq_foldl_toList, hsum, Nat.zero_add, interfaceNames]

theorem Implements.mem_interfaceNames {name interface : String} (h : table.Implements name interface) :
    interface ∈ table.interfaceNames := by
  obtain ⟨header, hheader, hmem⟩ := h
  exact List.mem_flatMap.mpr
    ⟨(name, header), Std.HashMap.mem_toList_iff_getElem?_eq_some.mpr hheader, hmem⟩

/-- The type is looked at in a walk over interfaces: it is pending, or found on the way. -/
def LookedAt (pending found : List String) (r : List String × Bool) (x : String) : Prop :=
  x ∈ pending ∨ x ∈ r.1 ∧ x ∉ found

/-- What a walk over interfaces finds. -/
structure Gathers (table : ClassTable) (pending found : List String) (complete : Bool)
    (r : List String × Bool) : Prop where
  keeps : ∀ x ∈ found, x ∈ r.1
  reached : ∀ x ∈ r.1, x ∈ found ∨ ∃ y ∈ pending, TransGen table.Implements y x
  closed : ∀ y, LookedAt pending found r y → ∀ x, table.Implements y x → x ∈ r.1
  complete : r.2 = true ↔ complete = true ∧ ∀ y, LookedAt pending found r y → y ∈ table

theorem gathers_nil (found : List String) (complete : Bool) :
    table.Gathers [] found complete (found, complete) := by
  have hnone : ∀ y, ¬ LookedAt [] found (found, complete) y := by
    rintro y (hmem | ⟨hmem, hout⟩)
    · simp at hmem
    · exact hout hmem
  exact ⟨fun _ hx => hx, fun _ hx => .inl hx, fun y hy => absurd hy (hnone y),
    ⟨fun hcomplete => ⟨hcomplete, fun y hy => absurd hy (hnone y)⟩, fun hall => hall.1⟩⟩

theorem Gathers.skip {name : String} {pending found : List String} {complete : Bool}
    {r : List String × Bool} (hmissing : name ∉ table) (h : table.Gathers pending found false r) :
    table.Gathers (name :: pending) found complete r := by
  refine ⟨h.keeps, fun x hx => ?_, fun y hy x hstep => ?_, ?_⟩
  · exact (h.reached x hx).imp_right fun ⟨y, hy, hreach⟩ => ⟨y, List.mem_cons_of_mem _ hy, hreach⟩
  · refine h.closed y ?_ x hstep
    rcases hy with hy | hy
    · rcases List.mem_cons.mp hy with rfl | hy
      · exact absurd hstep.mem hmissing
      · exact .inl hy
    · exact .inr hy
  · constructor
    · intro hcomplete
      exact absurd (h.complete.mp hcomplete).1 (by simp)
    · intro hall
      exact absurd (hall.2 name (.inl List.mem_cons_self)) hmissing

/-- With fresh names found and pending in place of a name, the name itself is looked at besides. -/
theorem lookedAt_step {name : String} {pending found fresh : List String} {r : List String × Bool}
    (hkeeps : ∀ x ∈ fresh, x ∈ r.1) (hfresh : ∀ x ∈ fresh, x ∉ found) (y : String) :
    LookedAt (name :: pending) found r y ↔ y = name ∨ LookedAt (pending ++ fresh) (found ++ fresh) r y := by
  simp only [LookedAt, List.mem_cons, List.mem_append, not_or]
  constructor
  · rintro ((rfl | hy) | ⟨hy, hout⟩)
    · exact .inl rfl
    · exact .inr (.inl (.inl hy))
    · by_cases hnew : y ∈ fresh
      · exact .inr (.inl (.inr hnew))
      · exact .inr (.inr ⟨hy, hout, hnew⟩)
  · rintro (rfl | (hy | hy) | ⟨hy, hout, _⟩)
    · exact .inl (.inl rfl)
    · exact .inl (.inr hy)
    · exact .inr ⟨hkeeps y hy, hfresh y hy⟩
    · exact .inr ⟨hy, hout⟩

theorem Gathers.step {name : String} {pending found : List String} {complete : Bool}
    {r : List String × Bool} {header : ClassHeader} (hheader : table[name]? = some header)
    (h : table.Gathers (pending ++ freshInterfaces found header.interfaces)
      (found ++ freshInterfaces found header.interfaces) complete r) :
    table.Gathers (name :: pending) found complete r := by
  have hlooked : ∀ y, LookedAt (name :: pending) found r y ↔ y = name ∨
      LookedAt (pending ++ freshInterfaces found header.interfaces)
        (found ++ freshInterfaces found header.interfaces) r y :=
    lookedAt_step (fun x hx => h.keeps x (List.mem_append_right _ hx)) fun x hx =>
      (mem_freshInterfaces.mp hx).2
  have hnamed : ∀ x, table.Implements name x → x ∈ found ∨ x ∈ freshInterfaces found header.interfaces := by
    rintro x ⟨header', hheader', hmem⟩
    obtain rfl := Option.some.inj (hheader.symm.trans hheader')
    rw [mem_freshInterfaces]
    by_cases hfound : x ∈ found
    · exact .inl hfound
    · exact .inr ⟨hmem, hfound⟩
  refine ⟨fun x hx => h.keeps x (List.mem_append_left _ hx), fun x hx => ?_, fun y hy x hstep => ?_, ?_⟩
  · have hfirst : ∀ y ∈ freshInterfaces found header.interfaces, table.Implements name y :=
      fun y hy => ⟨header, hheader, (mem_freshInterfaces.mp hy).1⟩
    rcases h.reached x hx with hx | ⟨y, hy, hreach⟩
    · rcases List.mem_append.mp hx with hx | hx
      · exact .inl hx
      · exact .inr ⟨name, List.mem_cons_self, .single (hfirst x hx)⟩
    · rcases List.mem_append.mp hy with hy | hy
      · exact .inr ⟨y, List.mem_cons_of_mem _ hy, hreach⟩
      · exact .inr ⟨name, List.mem_cons_self, .head (hfirst y hy) hreach⟩
  · rcases (hlooked y).mp hy with rfl | hy
    · exact h.keeps x (List.mem_append.mpr (hnamed x hstep))
    · exact h.closed y hy x hstep
  · rw [h.complete]
    refine and_congr_right fun _ => ⟨fun hall y hy => ?_, fun hall y hy => ?_⟩
    · rcases (hlooked y).mp hy with rfl | hy
      · exact mem_of_getElem? hheader
      · exact hall y hy
    · exact hall y ((hlooked y).mpr (.inr hy))

/-- Every interface name becomes pending once, so the walk is at an end before its steps are. -/
theorem gather_gathers (steps : Nat) (pending found : List String) (complete : Bool)
    (hnodup : found.Nodup) (hnames : ∀ x ∈ found, x ∈ table.interfaceNames)
    (hsteps : pending.length + table.interfaceCount ≤ steps + found.length) :
    table.Gathers pending found complete (table.gather steps pending (found, complete)) := by
  induction steps generalizing pending found complete with
  | zero =>
    have hmany := (List.subperm_of_subset hnodup hnames).length_le
    rw [length_interfaceNames] at hmany
    obtain rfl : pending = [] := List.eq_nil_of_length_eq_zero (by omega)
    exact gathers_nil found complete
  | succ steps ih =>
    cases pending with
    | nil => exact gathers_nil found complete
    | cons name pending =>
      rw [List.length_cons] at hsteps
      unfold gather
      split
      · rename_i hmissing
        refine .skip ?_ (ih pending found false hnodup hnames (by omega))
        rw [Std.HashMap.mem_iff_isSome_getElem?, hmissing]
        simp
      · rename_i header hheader
        refine .step hheader (ih _ _ complete ?_ ?_ ?_)
        · refine List.nodup_append.mpr ⟨hnodup, nodup_freshInterfaces _ _, ?_⟩
          rintro x hx y hy rfl
          exact (mem_freshInterfaces.mp hy).2 hx
        · intro x hx
          rcases List.mem_append.mp hx with hx | hx
          · exact hnames x hx
          · exact Implements.mem_interfaceNames ⟨header, hheader, (mem_freshInterfaces.mp hx).1⟩
        · simp only [List.length_append]
          omega

/-- The walk over the interfaces of a type and of its superclasses. -/
def gathered (table : ClassTable) (start : String) : List String × Bool :=
  table.gather ((start :: (table.superclasses start).1).length + table.interfaceCount)
    (start :: (table.superclasses start).1) ([], (table.superclasses start).2)

theorem closure_eq (start : String) :
    table.closure start = ⟨(table.superclasses start).1,
      (table.gathered start).1.mergeSort fun a b => decide (a ≤ b), (table.gathered start).2⟩ := rfl

theorem gathered_gathers (start : String) :
    table.Gathers (start :: (table.superclasses start).1) [] (table.superclasses start).2
      (table.gathered start) :=
  gather_gathers _ _ [] _ List.nodup_nil (by simp) (by simp)

/-- The interfaces found are those that are reached from the type or from one of its superclasses. -/
theorem mem_gathered {start x : String} :
    x ∈ (table.gathered start).1 ↔
      ∃ below, ReflTransGen table.Extends start below ∧ TransGen table.Implements below x := by
  have hgathers := table.gathered_gathers start
  constructor
  · intro hx
    obtain hx | ⟨y, hy, hreach⟩ := hgathers.reached x hx
    · simp at hx
    · exact ⟨y, mem_superclasses.mp hy, hreach⟩
  · rintro ⟨y, hy, hreach⟩
    induction hreach with
    | single hstep => exact hgathers.closed y (.inl (mem_superclasses.mpr hy)) _ hstep
    | tail _ hstep ih => exact hgathers.closed _ (.inr ⟨ih, by simp⟩) _ hstep

/-! ## The whole closure -/

/-- A closure holds the supertypes that are reached. -/
theorem contains_closure {start x : String} (hother : x ≠ start) :
    (table.closure start).contains x = true ↔ table.Reaches start x := by
  rw [closure_eq, Closure.contains, Bool.or_eq_true, List.contains_iff_mem, List.contains_iff_mem,
    List.mem_mergeSort, mem_gathered, Reaches, ← mem_superclasses, List.mem_cons]
  simp only [hother, false_or]

/-- A closure is complete exactly if all that is reached is known. -/
theorem closure_complete {start : String} :
    (table.closure start).complete = true ↔ ∀ x, table.Reaches start x → x ∈ table := by
  rw [closure_eq, (table.gathered_gathers start).complete, (table.superclasses_climbs start).complete]
  constructor
  · rintro ⟨_, hall⟩ x (hx | hx)
    · exact hall x (.inl (mem_superclasses.mpr hx))
    · exact hall x (.inr ⟨mem_gathered.mpr hx, by simp⟩)
  · intro hall
    refine ⟨fun x hx => hall x (.inl (mem_superclasses.mp hx)), ?_⟩
    rintro y (hy | ⟨hy, _⟩)
    · exact hall y (.inl (mem_superclasses.mp hy))
    · exact hall y (.inr (mem_gathered.mp hy))

end ClassTable

namespace Hierarchy

/-- The frozen hierarchy has the closure of each known type. -/
theorem freeze_closure? (table : ClassTable) (name : String) :
    (freeze table).closure? name = if name ∈ table then some (table.closure name) else none := by
  have hfold : ∀ (headers : List (String × ClassHeader)) (closures : Std.HashMap String Closure),
      (headers.foldl (fun closures b => closures.insert b.1 (table.closure b.1)) closures)[name]? =
        if name ∈ headers.map (·.1) then some (table.closure name) else closures[name]? := by
    intro headers
    induction headers with
    | nil => simp
    | cons b rest ih =>
      intro closures
      rw [List.foldl_cons, ih, List.map_cons]
      by_cases hrest : name ∈ rest.map (·.1)
      · rw [if_pos hrest, if_pos (List.mem_cons_of_mem _ hrest)]
      · rw [if_neg hrest, Std.HashMap.getElem?_insert]
        by_cases heq : b.1 = name
        · rw [if_pos (beq_iff_eq.mpr heq), if_pos (heq ▸ List.mem_cons_self), heq]
        · rw [if_neg (mt beq_iff_eq.mp heq), if_neg]
          exact fun hmem => (List.mem_cons.mp hmem).elim (heq ∘ Eq.symm) hrest
  show (table.fold _ _)[name]? = _
  rw [Std.HashMap.fold_eq_foldl_toList]
  refine (hfold table.toList ∅).trans ?_
  rw [Std.HashMap.map_fst_toList_eq_keys, Std.HashMap.getElem?_empty]
  simp only [Std.HashMap.mem_keys]

theorem freeze_class? (table : ClassTable) (name : String) : (freeze table).class? name = table[name]? :=
  rfl

end Hierarchy

end DirectCall
