import DirectCall.Hierarchy.Resolve
import DirectCall.Proofs.Hierarchy.Closure

/-!
# Subtypes

What it means that a value of a type can be used for another one (`IsBelow`, `Assignable`), and that a
frozen hierarchy decides it wherever all types are known (`isSubtype_eq`, `isAssignable_eq`). In a regular
hierarchy two types can be used for each other only if they are the same (`Assignable.antisymm`).
-/

namespace DirectCall

open Relation Classical

namespace Descriptor

/-- The class that a type names; for an array type the class of its elements. -/
def element? (d : String) : Option String :=
  className? (String.ofList (d.toList.dropWhile (· = '[')))

theorem component?_eq_some {name component : String} :
    Hierarchy.component? name = some component ↔ name.toList = '[' :: component.toList := by
  unfold Hierarchy.component?
  split
  · rename_i rest hrest
    rw [hrest, Option.some.injEq, List.cons.injEq, and_iff_right rfl, ← String.toList_inj,
      String.toList_ofList]
  · rename_i hother
    simp only [reduceCtorEq, false_iff]
    exact hother _

theorem isArray_eq (name : String) : isArray name = (Hierarchy.component? name).isSome := by
  rw [Bool.eq_iff_iff, isArray, String.startsWith_string_iff, Option.isSome_iff_exists]
  simp only [component?_eq_some]
  constructor
  · rintro ⟨rest, hrest⟩
    exact ⟨String.ofList rest, by rw [String.toList_ofList, ← hrest]; rfl⟩
  · rintro ⟨component, hcomponent⟩
    exact ⟨component.toList, by rw [hcomponent]; rfl⟩

/-- A class constant is spelled out in the descriptor, or it is the descriptor of an array type. -/
theorem className?_eq_some {d name : String} (h : className? d = some name) :
    (name = d ∧ ∃ component, Hierarchy.component? d = some component) ∨
      d.toList = 'L' :: name.toList ++ [';'] := by
  unfold className? at h
  split at h
  · rename_i rest hrest
    refine .inl ⟨(Option.some.inj h).symm, String.ofList rest, component?_eq_some.mpr ?_⟩
    rw [hrest, String.toList_ofList]
  · rename_i rest hrest
    split_ifs at h with hlast
    rw [← Option.some.inj h, String.toList_ofList, hrest]
    refine .inr ?_
    rw [List.cons_append, List.dropLast_append_getLast? ';' hlast]
  · cases h

theorem length_className?_le {d name : String} (h : className? d = some name) :
    name.length ≤ d.length := by
  rcases className?_eq_some h with ⟨rfl, _⟩ | htext
  · exact Nat.le_refl _
  · rw [← String.length_toList, ← String.length_toList, htext]
    simp only [List.length_append, List.length_cons]
    omega

theorem length_component? {name component : String} (h : Hierarchy.component? name = some component) :
    name.length = component.length + 1 := by
  rw [← String.length_toList, component?_eq_some.mp h, List.length_cons, String.length_toList]

theorem element?_of_component? {d component : String} (h : Hierarchy.component? d = some component) :
    element? d = element? component := by
  rw [component?_eq_some] at h
  simp [element?, h]

theorem element?_of_class {d name : String} (h : d.toList = 'L' :: name.toList ++ [';']) :
    element? d = some name := by
  have hlist : d.toList.dropWhile (· = '[') = 'L' :: (name.toList ++ [';']) := by
    rw [h]
    rfl
  rw [element?, hlist]
  simp [className?]

/-- A primitive type has no class constant. -/
theorem className?_of_isPrimitive {d : String} (h : isPrimitive d = true) : className? d = none := by
  obtain ⟨p, hp⟩ := Option.isSome_iff_exists.mp h
  have hd := List.find?_some hp
  rw [decide_eq_true_iff] at hd
  subst hd
  cases p <;> decide

end Descriptor

namespace ClassTable

open Descriptor

/-- The type names another one as its superclass or as one of its interfaces. -/
def Link (table : ClassTable) (name above : String) : Prop :=
  table.Extends name above ∨ table.Implements name above

theorem links_of_extends {table : ClassTable} {name above : String}
    (h : ReflTransGen table.Extends name above) : ReflTransGen table.Link name above :=
  ReflTransGen.mono (fun _ _ hstep => Or.inl hstep) _ _ h

/-- What is reached is a supertype. -/
theorem Reaches.links {table : ClassTable} {name above : String} (h : table.Reaches name above) :
    ReflTransGen table.Link name above := by
  rcases h with hreach | ⟨below, hreach, hinterfaces⟩
  · exact links_of_extends hreach
  · exact (links_of_extends hreach).trans
      (ReflTransGen.mono (fun _ _ hstep => Or.inr hstep) _ _ hinterfaces.to_reflTransGen)

/-- A hierarchy of classes and interfaces in which nothing that matters to a look-up is missing. -/
structure Regular (table : ClassTable) : Prop where
  /-- A type stands under its own name. -/
  named : ∀ (name : String) (header : ClassHeader), table[name]? = some header → header.name = name
  /-- No chain of supertypes is too long for a look-up; so there is no cycle. -/
  shallow : ∀ chain : List String, chain.IsChain table.Link → chain.length ≤ lookupDepth + 1
  closed : ∀ name above, table.Link name above → above ∈ table
  /-- The classes in the descriptors of methods are known. -/
  described : ∀ (name : String) (header : ClassHeader), table[name]? = some header →
    ∀ m ∈ header.methods, ∀ parsed, MethodDescriptor.parse m.descriptor = .ok parsed →
      ∀ d ∈ parsed.ret :: parsed.params, ∀ c, element? d = some c → c ∈ table
  implemented : ∀ (name above : String) (header : ClassHeader), table.Implements name above →
    table[above]? = some header → header.isInterface = true
  extended : ∀ (name above : String) (header : ClassHeader), table.Extends name above →
    table[above]? = some header → header.isInterface = false
  top : ∀ above, ¬ table.Link objectClass above
  closing : ∀ name ∈ table, ')' ∉ name.toList

/-- No type has the name of an array type. -/
def NoArrays (table : ClassTable) : Prop := ∀ name ∈ table, isArray name = false

/-- A value of the type `name` can be used for `above`. Both are class constants: the name of a class or an
array type. -/
inductive IsBelow (table : ClassTable) : String → String → Prop where
  | reached {name above : String} (h : ReflTransGen table.Link name above) : IsBelow table name above
  | object (name : String) : IsBelow table name objectClass
  | arrayInterface {name component above : String} (h : Hierarchy.component? name = some component)
      (habove : Hierarchy.isArrayInterface above = true) : IsBelow table name above
  | component {name component above component' below' above' : String}
      (h : Hierarchy.component? name = some component)
      (h' : Hierarchy.component? above = some component')
      (hclass : className? component = some below') (hclass' : className? component' = some above')
      (hbelow : IsBelow table below' above') : IsBelow table name above

/-- A value of the type that `source` describes can be used for the type that `target` describes. -/
def Assignable (table : ClassTable) (target source : String) : Prop :=
  target = source ∨ ∃ above below, className? target = some above ∧ className? source = some below ∧
    table.IsBelow below above

/-- The class that the descriptor names is known, if it names one. -/
def Described (table : ClassTable) (d : String) : Prop := ∀ c, element? d = some c → c ∈ table

/-- The class constant is a known class, or an array type over known classes. -/
def Known (table : ClassTable) (name : String) : Prop :=
  name ∈ table ∨ ∃ component, Hierarchy.component? name = some component ∧ table.Described component

variable {table : ClassTable}

theorem NoArrays.component? (h : table.NoArrays) {name : String} (hname : name ∈ table) :
    Hierarchy.component? name = none := by
  have hplain := h name hname
  rwa [isArray_eq, Option.isSome_eq_false_iff, Option.isNone_iff_eq_none] at hplain

theorem Described.known {d name : String} (h : table.Described d) (hname : className? d = some name) :
    table.Known name := by
  rcases className?_eq_some hname with ⟨rfl, component, hcomponent⟩ | htext
  · exact .inr ⟨component, hcomponent, fun c hc => h c (by rwa [element?_of_component? hcomponent])⟩
  · exact .inl (h name (element?_of_class htext))

theorem Known.described {name component : String} (h : table.Known name) (harrays : table.NoArrays)
    (hcomponent : Hierarchy.component? name = some component) : table.Described component := by
  rcases h with hmem | ⟨component', hcomponent', hdescribed⟩
  · simp [harrays.component? hmem] at hcomponent
  · obtain rfl := Option.some.inj (hcomponent.symm.trans hcomponent')
    exact hdescribed

/-- One class constant has one descriptor. -/
theorem Described.inj {d d' name : String} (h : table.Described d) (h' : table.Described d')
    (harrays : table.NoArrays) (hname : className? d = some name) (hname' : className? d' = some name) :
    d = d' := by
  have hclash : ∀ {d : String}, table.Described d → d.toList = 'L' :: name.toList ++ [';'] →
      ∀ component, Hierarchy.component? name ≠ some component := by
    intro d hd htext component hcomponent
    simp [harrays.component? (hd name (element?_of_class htext))] at hcomponent
  rcases className?_eq_some hname with ⟨rfl, component, hcomponent⟩ | htext <;>
    rcases className?_eq_some hname' with ⟨heq, component', hcomponent'⟩ | htext'
  · exact heq
  · exact absurd hcomponent (hclash h' htext' component)
  · exact absurd (heq ▸ hcomponent') (hclash h htext component')
  · rw [← String.toList_inj, htext, htext']

/-! ## Regular hierarchies -/

/-- Without cycles no two types are above each other. -/
theorem reached_antisymm (hacyclic : ∀ name, ¬ TransGen table.Link name name) {name above : String}
    (hup : ReflTransGen table.Link name above) (hdown : ReflTransGen table.Link above name) : name = above := by
  rcases reflTransGen_iff_eq_or_transGen.mp hup with heq | hup
  · exact heq.symm
  · exact absurd (hup.trans_left hdown) (hacyclic name)

section Regular

variable (h : table.Regular)
include h

/-- There are no cycles. -/
theorem Regular.acyclic (name : String) : ¬ TransGen table.Link name name := by
  have hlong : ∀ (n : Nat) (name : String), TransGen table.Link name name →
      ∃ chain, (name :: chain).IsChain table.Link ∧ chain.length = n := by
    intro n
    induction n with
    | zero => exact fun name _ => ⟨[], .singleton name, rfl⟩
    | succ n ih =>
      intro name hcycle
      obtain ⟨next, hstep, hback⟩ := TransGen.head'_iff.mp hcycle
      obtain ⟨chain, hchain, hlength⟩ := ih next (.tail' hback hstep)
      exact ⟨next :: chain, .cons_cons hstep hchain, by rw [List.length_cons, hlength]⟩
  intro hcycle
  obtain ⟨chain, hchain, hlength⟩ := hlong (lookupDepth + 1) name hcycle
  have hbound := h.shallow _ hchain
  rw [List.length_cons] at hbound
  omega

theorem Regular.mem_of_reached {name above : String} (hname : name ∈ table)
    (hreach : ReflTransGen table.Link name above) : above ∈ table := by
  cases hreach with
  | refl => exact hname
  | tail _ hstep => exact h.closed _ _ hstep

theorem Regular.object_reached {above : String} (hreach : ReflTransGen table.Link objectClass above) :
    above = objectClass := by
  rcases ReflTransGen.cases_head hreach with heq | ⟨next, hstep, _⟩
  · exact heq.symm
  · exact absurd hstep (h.top next)

/-- Superclasses come first, since an interface has none: the closure holds all supertypes. -/
theorem Regular.reaches_iff {name above : String} :
    table.Reaches name above ↔ ReflTransGen table.Link name above := by
  constructor
  · exact Reaches.links
  · intro hreach
    induction hreach with
    | refl => exact .inl .refl
    | tail _ hstep ih =>
      rcases hstep with hstep | hstep
      · rcases ih with ih | ⟨below, _, hinterfaces⟩
        · exact .inl (ih.tail hstep)
        · obtain ⟨_, _, hlast⟩ := TransGen.tail'_iff.mp hinterfaces
          obtain ⟨header, hheader, hsuper⟩ := hstep
          have hinterface := h.implemented _ _ header hlast hheader
          simp [ClassHeader.superclass?, hinterface] at hsuper
      · rcases ih with ih | ⟨below, hbelow, hinterfaces⟩
        · exact .inr ⟨_, ih, .single hstep⟩
        · exact .inr ⟨below, hbelow, hinterfaces.tail hstep⟩

end Regular

/-! ## The frozen hierarchy decides -/

theorem assignableBy_eq {subtype : String → String → Option Bool} {target source : String}
    (hsubtype : ∀ above below, className? target = some above → className? source = some below →
      subtype above below = some (decide (table.IsBelow below above))) :
    Hierarchy.assignableBy subtype target source = some (decide (table.Assignable target source)) := by
  unfold Hierarchy.assignableBy Assignable
  by_cases heq : target = source
  · simp [heq]
  · by_cases hprimitive : (isPrimitive target || isPrimitive source) = true
    · rw [if_neg heq, if_pos hprimitive, eq_comm, Option.some.injEq, decide_eq_false_iff_not]
      rintro (hsame | ⟨above, below, habove, hbelow, _⟩)
      · exact heq hsame
      · rcases Bool.or_eq_true_iff.mp hprimitive with hprimitive | hprimitive
        · simp [className?_of_isPrimitive hprimitive] at habove
        · simp [className?_of_isPrimitive hprimitive] at hbelow
    · rw [if_neg heq, if_neg hprimitive]
      cases habove : className? target with
      | none => simp [heq]
      | some above =>
        cases hbelow : className? source with
        | none => simp [heq]
        | some below =>
          show subtype above below = _
          rw [hsubtype above below habove hbelow]
          simp [heq]

theorem isBelow_array {name component above : String} (harrays : table.NoArrays)
    (hcomponent : Hierarchy.component? name = some component) (hne : above ≠ name)
    (hobject : above ≠ objectClass) (hinterface : ¬ Hierarchy.isArrayInterface above = true) :
    table.IsBelow name above ↔ ∃ component', Hierarchy.component? above = some component' ∧
      table.Assignable component' component := by
  constructor
  · intro hbelow
    cases hbelow with
    | reached hreach =>
      rcases ReflTransGen.cases_head hreach with heq | ⟨next, hstep, _⟩
      · exact absurd heq.symm hne
      · simp [harrays.component? (hstep.elim Extends.mem Implements.mem)] at hcomponent
    | object => exact absurd rfl hobject
    | arrayInterface _ habove => exact absurd habove hinterface
    | component hcomponent₂ habove hclass hclass' hbelow =>
      obtain rfl := Option.some.inj (hcomponent.symm.trans hcomponent₂)
      exact ⟨_, habove, .inr ⟨_, _, hclass', hclass, hbelow⟩⟩
  · rintro ⟨component', habove, heq | ⟨above', below', habove', hbelow', hbelow⟩⟩
    · subst heq
      refine absurd ?_ hne
      rw [← String.toList_inj, component?_eq_some.mp habove, component?_eq_some.mp hcomponent]
    · exact .component hcomponent habove hbelow' habove' hbelow

theorem isBelow_type (harrays : table.NoArrays) {name above : String}
    (hname : name ∈ table) (hobject : above ≠ objectClass) :
    table.IsBelow name above ↔ ReflTransGen table.Link name above := by
  constructor
  · intro hbelow
    cases hbelow with
    | reached hreach => exact hreach
    | object => exact absurd rfl hobject
    | arrayInterface hcomponent _ => simp [harrays.component? hname] at hcomponent
    | component hcomponent _ _ _ _ => simp [harrays.component? hname] at hcomponent
  · exact .reached

/-- The answer on a name that is not one of an array type is in its closure, if the name is known. -/
theorem subtypeWithin_plain {source target : String} (hplain : Hierarchy.component? source = none)
    (hne : target ≠ source) (hobject : target ≠ objectClass) (depth : Nat) :
    (Hierarchy.freeze table).subtypeWithin (depth + 1) target source =
      if isArray target then some false
      else if source ∈ table then
        if table.Reaches source target then some true
        else if (table.closure source).complete then some false else none
      else none := by
  rw [Hierarchy.subtypeWithin, if_neg (not_or.mpr ⟨hne, hobject⟩), hplain]
  dsimp only
  rw [Hierarchy.freeze_closure?]
  split_ifs <;> simp_all [contains_closure hne]

/-- The answer on a type of the table is in its closure. -/
theorem subtypeWithin_type (h : table.Regular) (harrays : table.NoArrays) {source target : String}
    (hmem : source ∈ table) (hne : target ≠ source) (hobject : target ≠ objectClass) (depth : Nat) :
    (Hierarchy.freeze table).subtypeWithin (depth + 1) target source =
      some (decide (table.IsBelow source target)) := by
  have hcomplete : (table.closure source).complete = true :=
    closure_complete.mpr fun x hx => h.mem_of_reached hmem (h.reaches_iff.mp hx)
  rw [subtypeWithin_plain (harrays.component? hmem) hne hobject, if_pos hmem, if_pos hcomplete]
  simp only [isBelow_type harrays hmem hobject, h.reaches_iff]
  by_cases harray : isArray target = true
  · rw [if_pos harray, eq_comm, Option.some.injEq, decide_eq_false_iff_not]
    intro hreach
    have hplain := harrays target (h.mem_of_reached hmem hreach)
    rw [harray] at hplain
    cases hplain
  · rw [if_neg harray]
    split_ifs with hreach
    · simp [hreach]
    · simp [hreach]

/-- The answer on an array type is that on its component. -/
theorem subtypeWithin_array (harrays : table.NoArrays) {depth : Nat} {source target component : String}
    (hcomponent : Hierarchy.component? source = some component) (hne : target ≠ source)
    (hobject : target ≠ objectClass)
    (hbelow : ∀ component', Hierarchy.assignableBy ((Hierarchy.freeze table).subtypeWithin depth)
      component' component = some (decide (table.Assignable component' component))) :
    (Hierarchy.freeze table).subtypeWithin (depth + 1) target source =
      some (decide (table.IsBelow source target)) := by
  rw [Hierarchy.subtypeWithin, if_neg (not_or.mpr ⟨hne, hobject⟩), hcomponent]
  dsimp only
  by_cases hinterface : Hierarchy.isArrayInterface target = true
  · rw [if_pos hinterface, eq_comm, Option.some.injEq, decide_eq_true_iff]
    exact .arrayInterface hcomponent hinterface
  · rw [if_neg hinterface]
    simp only [isBelow_array harrays hcomponent hne hobject hinterface]
    cases htarget : Hierarchy.component? target with
    | none => simp
    | some component' =>
      dsimp only
      rw [hbelow component']
      simp

/-- With the closures at hand, the answer on known types is never open. -/
theorem subtypeWithin_eq (h : table.Regular) (harrays : table.NoArrays) {depth : Nat} {source : String}
    (target : String) (hknown : table.Known source) (hdepth : source.length < depth) :
    (Hierarchy.freeze table).subtypeWithin depth target source =
      some (decide (table.IsBelow source target)) := by
  induction depth generalizing source target with
  | zero => omega
  | succ depth ih =>
    by_cases htrivial : target = source ∨ target = objectClass
    · rw [Hierarchy.subtypeWithin, if_pos htrivial, eq_comm, Option.some.injEq, decide_eq_true_iff]
      rcases htrivial with rfl | rfl
      · exact .reached .refl
      · exact .object source
    · obtain ⟨hne, hobject⟩ := not_or.mp htrivial
      rcases hknown with hmem | ⟨component, hcomponent, hdescribed⟩
      · exact subtypeWithin_type h harrays hmem hne hobject depth
      · refine subtypeWithin_array harrays hcomponent hne hobject fun component' => ?_
        refine assignableBy_eq fun above below _ hbelow => ?_
        have hless := length_className?_le hbelow
        rw [length_component? hcomponent] at hdepth
        exact ih above (hdescribed.known hbelow) (by omega)

theorem isSubtype_eq (h : table.Regular) (harrays : table.NoArrays) {source : String} (target : String)
    (hknown : table.Known source) :
    (Hierarchy.freeze table).isSubtype target source = some (decide (table.IsBelow source target)) :=
  subtypeWithin_eq h harrays target hknown (Nat.lt_succ_self _)

theorem isAssignable_eq (h : table.Regular) (harrays : table.NoArrays) {source : String} (target : String)
    (hdescribed : table.Described source) :
    (Hierarchy.freeze table).isAssignable target source =
      some (decide (table.Assignable target source)) :=
  assignableBy_eq fun above _ _ hbelow => isSubtype_eq h harrays above (hdescribed.known hbelow)

/-! ## Order -/

theorem IsBelow.trans (h : table.Regular) (harrays : table.NoArrays) {a b c : String} (ha : a ∈ table)
    (hb : b ∈ table) (hab : table.IsBelow a b) (hbc : table.IsBelow b c) : table.IsBelow a c := by
  by_cases hobject : c = objectClass
  · rw [hobject]
    exact .object a
  · rw [isBelow_type harrays hb hobject] at hbc
    by_cases hobject' : b = objectClass
    · subst hobject'
      exact absurd (h.object_reached hbc) hobject
    · rw [isBelow_type harrays ha hobject'] at hab
      exact .reached (hab.trans hbc)

/-- Nothing extends an array type. -/
theorem reached_array (h : table.Regular) (harrays : table.NoArrays) {name above component : String}
    (hreach : ReflTransGen table.Link name above)
    (hcomponent : Hierarchy.component? above = some component) : name = above := by
  rcases ReflTransGen.cases_tail hreach with heq | ⟨_, _, hstep⟩
  · exact heq.symm
  · simp [harrays.component? (h.closed _ _ hstep)] at hcomponent

theorem arrayInterface_component? {name : String} (h : Hierarchy.isArrayInterface name = true)
    (component : String) : Hierarchy.component? name ≠ some component := by
  rw [Hierarchy.isArrayInterface, Bool.or_eq_true, beq_iff_eq, beq_iff_eq] at h
  rcases h with rfl | rfl <;> simp [Hierarchy.component?]

theorem object_component? (component : String) : Hierarchy.component? objectClass ≠ some component := by
  simp [Hierarchy.component?, objectClass]

/-- Two known types that can be used for each other are the same. -/
theorem IsBelow.antisymm (h : table.Regular) (harrays : table.NoArrays) {a b : String}
    (hab : table.IsBelow a b) (hba : table.IsBelow b a) (ha : table.Known a) (hb : table.Known b) :
    a = b := by
  induction hab with
  | reached hreach =>
    cases hba with
    | reached hback => exact reached_antisymm h.acyclic hreach hback
    | object => exact (h.object_reached hreach).symm
    | arrayInterface hcomponent _ => exact reached_array h harrays hreach hcomponent
    | component hcomponent _ _ _ _ => exact reached_array h harrays hreach hcomponent
  | object name =>
    cases hba with
    | reached hback => exact h.object_reached hback
    | object => rfl
    | arrayInterface hcomponent _ => exact absurd hcomponent (object_component? _)
    | component hcomponent _ _ _ _ => exact absurd hcomponent (object_component? _)
  | arrayInterface hcomponent habove =>
    cases hba with
    | reached hback => exact (reached_array h harrays hback hcomponent).symm
    | object => exact absurd hcomponent (object_component? _)
    | arrayInterface hcomponent' _ => exact absurd hcomponent' (arrayInterface_component? habove _)
    | component hcomponent' _ _ _ _ => exact absurd hcomponent' (arrayInterface_component? habove _)
  | component hcomponent hcomponent' hclass hclass' _ ih =>
    cases hba with
    | reached hback => exact (reached_array h harrays hback hcomponent).symm
    | object => exact absurd hcomponent (object_component? _)
    | arrayInterface _ habove => exact absurd hcomponent (arrayInterface_component? habove _)
    | component hc' hc hbelow' hbelow hback =>
      obtain rfl := Option.some.inj (hcomponent.symm.trans hc)
      obtain rfl := Option.some.inj (hcomponent'.symm.trans hc')
      obtain rfl := Option.some.inj (hclass.symm.trans hbelow)
      obtain rfl := Option.some.inj (hclass'.symm.trans hbelow')
      have hdescribed := ha.described harrays hcomponent
      have hdescribed' := hb.described harrays hcomponent'
      obtain rfl := ih hback (hdescribed.known hclass) (hdescribed'.known hclass')
      obtain rfl := hdescribed.inj hdescribed' harrays hclass hclass'
      rw [← String.toList_inj, component?_eq_some.mp hcomponent, component?_eq_some.mp hcomponent']

theorem Assignable.antisymm (h : table.Regular) (harrays : table.NoArrays) {d d' : String}
    (hd : table.Described d) (hd' : table.Described d') (hto : table.Assignable d d')
    (hfrom : table.Assignable d' d) : d = d' := by
  rcases hto with heq | ⟨above, below, habove, hbelow, hto⟩
  · exact heq
  · rcases hfrom with heq | ⟨above', below', habove', hbelow', hfrom⟩
    · exact heq.symm
    · obtain rfl := Option.some.inj (habove.symm.trans hbelow')
      obtain rfl := Option.some.inj (hbelow.symm.trans habove')
      obtain rfl := hto.antisymm h harrays hfrom (hd'.known hbelow) (hd.known habove)
      exact hd.inj hd' harrays habove hbelow

end ClassTable

end DirectCall
