import DirectCall.Proofs.Frame.Fixpoint
import DirectCall.Proofs.Hierarchy.Subtype
import DirectCall.Verification.Type

/-!
# Joins of verification types

A join can be used for the types it is made of, and for all that these can be used for in turn
(`joinAbsorbs`). This is not because subtyping is transitive, which it need not be: nothing is asked of the
classes but that interfaces are named as interfaces, so the root class itself may have supertypes, types may
be missing, and classes may extend themselves. Joins only ever lead to the root class, up the superclasses
of a class, or once to an interface, where they stop; `Widens` follows these steps.
-/

namespace DirectCall

open Relation

namespace ClassTable

/-- Every known type that is named as an interface is one. -/
def Implemented (table : ClassTable) : Prop :=
  ∀ (name above : String) (header : ClassHeader), table.Implements name above →
    table[above]? = some header → header.isInterface = true

/-- A known type that is not an interface. -/
def IsClass (table : ClassTable) (name : String) : Prop :=
  ∃ header, table[name]? = some header ∧ header.isInterface = false

variable {table : ClassTable}

theorem IsClass.not_implements {name : String} (h : table.IsClass name) (himplemented : table.Implemented)
    (below : String) : ¬ table.Implements below name := by
  intro himplements
  obtain ⟨header, hheader, hclass⟩ := h
  rw [himplemented below name header himplements hheader] at hclass
  cases hclass

theorem Reaches.mem {name above : String} (h : table.Reaches name above) (hne : above ≠ name) :
    name ∈ table := by
  have hextends : ∀ {below}, ReflTransGen table.Extends name below → below = name ∨ name ∈ table := by
    intro below hreach
    rcases ReflTransGen.cases_head hreach with heq | ⟨_, hstep, _⟩
    · exact .inl heq.symm
    · exact .inr hstep.mem
  rcases h with hreach | ⟨below, hreach, hinterfaces⟩
  · exact (hextends hreach).resolve_left hne
  · rcases hextends hreach with rfl | hmem
    · obtain ⟨_, hstep, _⟩ := TransGen.head'_iff.mp hinterfaces
      exact hstep.mem
    · exact hmem

end ClassTable

namespace Descriptor

theorem component?_bracket (d : String) : Hierarchy.component? ("[" ++ d) = some d :=
  component?_eq_some.mpr (by rw [String.toList_append]; rfl)

/-- A class constant is what its descriptor names. -/
theorem className?_ofClassName (name : String) : className? (ofClassName name) = some name := by
  unfold ofClassName
  split_ifs with harray
  · rw [isArray_eq, Option.isSome_iff_exists] at harray
    obtain ⟨component, hcomponent⟩ := harray
    unfold className?
    rw [component?_eq_some.mp hcomponent]
    rfl
  · have htext : ("L" ++ name ++ ";").toList = 'L' :: (name.toList ++ [';']) := by
      simp only [String.toList_append]
      rfl
    rw [className?, htext]
    simp

end Descriptor

namespace VerificationType

open Hierarchy (freeze component?)

/-! ## Common superclasses -/

section Names

variable {table : ClassTable} {name above : String}

/-- A name that is not one of an array type is below others only by its closure. -/
theorem subtypeWithin_eq_true (hname : component? name = none) (hsame : ¬ (above = name ∨ above = objectClass))
    (depth : Nat) : (freeze table).subtypeWithin (depth + 1) above name = some true ↔
      component? above = none ∧ table.Reaches name above := by
  obtain ⟨hne, hobject⟩ := not_or.mp hsame
  rw [ClassTable.subtypeWithin_plain hname hne hobject, Descriptor.isArray_eq, ← Option.not_isSome_iff_eq_none]
  split_ifs with harray hmem hreach
  · exact iff_of_false nofun fun h => h.1 harray
  · exact iff_of_true rfl ⟨harray, hreach⟩
  · exact iff_of_false nofun fun h => hreach h.2
  · exact iff_of_false nofun fun h => hreach h.2
  · exact iff_of_false nofun fun h => hmem (h.2.mem hne)

/-- A name that is not one of an array type can be used for what it reaches. -/
theorem reaches_of_isSubtype (hname : component? name = none)
    (h : (freeze table).isSubtype above name = some true) :
    above = name ∨ above = objectClass ∨ component? above = none ∧ table.Reaches name above := by
  by_cases hsame : above = name ∨ above = objectClass
  · rcases hsame with heq | heq
    · exact .inl heq
    · exact .inr (.inl heq)
  · exact .inr (.inr ((subtypeWithin_eq_true hname hsame _).mp h))

theorem subtypeWithin_same (hsame : above = name ∨ above = objectClass) (depth : Nat) :
    (freeze table).subtypeWithin (depth + 1) above name = some true := by
  rw [Hierarchy.subtypeWithin, if_pos hsame]

theorem subtypeWithin_of_reaches (hname : component? name = none) (habove : component? above = none)
    (h : table.Reaches name above) (depth : Nat) :
    (freeze table).subtypeWithin (depth + 1) above name = some true := by
  by_cases hsame : above = name ∨ above = objectClass
  · exact subtypeWithin_same hsame depth
  · exact (subtypeWithin_eq_true hname hsame depth).mpr ⟨habove, h⟩

/-- What no type names as an interface is above others by way of classes only. -/
theorem isSubtype_iff_extends (hname : component? name = none) (hlone : ∀ below, ¬ table.Implements below above) :
    (freeze table).isSubtype above name = some true ↔
      above = objectClass ∨ component? above = none ∧ ReflTransGen table.Extends name above := by
  constructor
  · intro h
    rcases reaches_of_isSubtype hname h with rfl | hobject | ⟨hplain, hreach | ⟨_, _, hinterfaces⟩⟩
    · exact .inr ⟨hname, .refl⟩
    · exact .inl hobject
    · exact .inr ⟨hplain, hreach⟩
    · obtain ⟨below, _, hlast⟩ := TransGen.tail'_iff.mp hinterfaces
      exact absurd hlast (hlone below)
  · rintro (hobject | ⟨hplain, hreach⟩)
    · exact subtypeWithin_same (.inr hobject) _
    · exact subtypeWithin_of_reaches hname hplain (.inl hreach) _

/-- The common superclass of two classes: the search goes up from the first one. -/
theorem commonSuperclass_classes {a b : String} (ha : table.IsClass a) (hb : table.IsClass b) :
    (freeze table).commonSuperclass a b =
      if (freeze table).isSubtype a b = some true then a
      else if (freeze table).isSubtype b a = some true then b
      else ((table.superclasses a).1.find? fun above => (freeze table).isSubtype above b = some true).getD
        objectClass := by
  obtain ⟨first, hfirst, hclass⟩ := ha
  obtain ⟨second, hsecond, hclass'⟩ := hb
  have hclosure : (freeze table).closure? a = some (table.closure a) := by
    rw [Hierarchy.freeze_closure?, if_pos (ClassTable.mem_of_getElem? hfirst)]
  rw [Hierarchy.commonSuperclass, Hierarchy.freeze_class?, Hierarchy.freeze_class?, hfirst, hsecond, hclosure]
  dsimp only
  rw [hclass, hclass', Bool.or_false, if_neg Bool.false_ne_true]
  by_cases hsame : a = b
  · have hself : (freeze table).isSubtype a b = some true := subtypeWithin_same (.inl hsame) _
    rw [if_pos hsame, if_pos hself]
  · rw [if_neg hsame]
    rfl

/-- For other types it is the root class, unless they are the same. -/
theorem commonSuperclass_other {a b : String} (h : ¬ (table.IsClass a ∧ table.IsClass b)) :
    (freeze table).commonSuperclass a b = if a = b then a else objectClass := by
  rw [Hierarchy.commonSuperclass, Hierarchy.freeze_class?, Hierarchy.freeze_class?]
  by_cases hsame : a = b
  · rw [if_pos hsame, if_pos hsame]
  · rw [if_neg hsame, if_neg hsame]
    split
    · rename_i first second hfirst hsecond
      have hinterface : (first.isInterface || second.isInterface) = true := by
        by_contra hclasses
        rw [Bool.not_eq_true, Bool.or_eq_false_iff] at hclasses
        exact h ⟨⟨first, hfirst, hclasses.1⟩, second, hsecond, hclasses.2⟩
      rw [if_pos hinterface]
    · rfl

/-- The common superclass of two names, if they are not one name: the root class, or a type that the second
one can be used for, which is up the superclasses of the first one or is the second one itself. Then both
are classes. -/
theorem commonSuperclass_up {a b : String} (ha : component? a = none) (hb : component? b = none) {r : String}
    (hr : (freeze table).commonSuperclass a b = r) : r = objectClass ∨ r = a ∧ r = b ∨
      table.IsClass a ∧ table.IsClass b ∧ component? r = none ∧ (freeze table).isSubtype r b = some true ∧
        (ReflTransGen table.Extends a r ∨ r = b ∧ (freeze table).isSubtype b a = some true) := by
  by_cases hclasses : table.IsClass a ∧ table.IsClass b
  · obtain ⟨hclass, hclass'⟩ := hclasses
    rw [commonSuperclass_classes hclass hclass'] at hr
    split_ifs at hr with hbelow habove
    · subst hr
      exact .inr (.inr ⟨hclass, hclass', ha, hbelow, .inl .refl⟩)
    · subst hr
      exact .inr (.inr ⟨hclass, hclass', hb, subtypeWithin_same (.inl rfl) _, .inr ⟨rfl, habove⟩⟩)
    · cases hfound : (table.superclasses a).1.find?
          fun above => (freeze table).isSubtype above b = some true with
      | none => exact .inl (by rw [← hr, hfound]; rfl)
      | some above =>
        obtain rfl : above = r := by rw [← hr, hfound]; rfl
        have hsub : (freeze table).isSubtype above b = some true := by
          simpa using List.find?_some hfound
        have hreach : ReflTransGen table.Extends a above :=
          ClassTable.mem_superclasses.mp (List.mem_cons_of_mem _ (List.mem_of_find?_eq_some hfound))
        rcases reaches_of_isSubtype hb hsub with rfl | hobject | ⟨hplain, _⟩
        · exact .inr (.inr ⟨hclass, hclass', hb, hsub, .inl hreach⟩)
        · exact .inl hobject
        · exact .inr (.inr ⟨hclass, hclass', hplain, hsub, .inl hreach⟩)
  · rw [commonSuperclass_other hclasses] at hr
    split_ifs at hr with hsame
    · exact .inr (.inl ⟨hr.symm, hr.symm.trans hsame⟩)
    · exact .inl hr.symm

/-- If interfaces are named as interfaces, it is the root class or up the superclasses of the first one. -/
theorem commonSuperclass_cases (himplemented : table.Implemented) {a b : String}
    (ha : component? a = none) (hb : component? b = none) {r : String}
    (hr : (freeze table).commonSuperclass a b = r) : r = objectClass ∨ r = a ∧ r = b ∨
      table.IsClass a ∧ component? r = none ∧ ReflTransGen table.Extends a r ∧
        (freeze table).isSubtype r b = some true := by
  rcases commonSuperclass_up ha hb hr with hobject | hsame | ⟨hclass, hclass', hplain, hsub, hup | ⟨rfl, habove⟩⟩
  · exact .inl hobject
  · exact .inr (.inl hsame)
  · exact .inr (.inr ⟨hclass, hplain, hup, hsub⟩)
  · refine ((isSubtype_iff_extends ha (hclass'.not_implements himplemented)).mp habove).imp_right fun hreach => ?_
    exact .inr ⟨hclass, hplain, hreach.2, hsub⟩

theorem commonSuperclass_object (b : String) :
    (freeze table).commonSuperclass objectClass b = objectClass := by
  have hbelow : (freeze table).isSubtype objectClass b = some true := subtypeWithin_same (.inr rfl) _
  by_cases hclasses : table.IsClass objectClass ∧ table.IsClass b
  · rw [commonSuperclass_classes hclasses.1 hclasses.2, if_pos hbelow]
  · rw [commonSuperclass_other hclasses, ite_self]

/-! ## Widening -/

/-- What joins make of a class constant. -/
inductive Widens (table : ClassTable) : String → String → Prop where
  | refl (name : String) : Widens table name name
  | object (name : String) : Widens table name objectClass
  | superclass {name above : String} (hname : component? name = none) (habove : component? above = none)
      (h : ReflTransGen table.Extends name above) : Widens table name above
  /-- No join leads on from an interface, nor from a type that is missing. -/
  | interface {name above : String} (hname : component? name = none) (habove : component? above = none)
      (h : table.Reaches name above)
      (hends : ∀ header, table[above]? = some header → header.isInterface = true) : Widens table name above
  | component {name above component component' below' above' : String}
      (h : component? name = some component) (h' : component? above = some component')
      (hclass : Descriptor.className? component = some below')
      (hclass' : Descriptor.className? component' = some above') (hwidens : Widens table below' above') :
      Widens table name above

theorem widens_of_isSubtype (himplemented : table.Implemented) (hname : component? name = none)
    (h : (freeze table).isSubtype above name = some true) : Widens table name above := by
  rcases reaches_of_isSubtype hname h with rfl | rfl | ⟨habove, hreach⟩
  · exact .refl above
  · exact .object name
  · rcases id hreach with hextends | ⟨_, _, hinterfaces⟩
    · exact .superclass hname habove hextends
    · obtain ⟨_, _, hlast⟩ := TransGen.tail'_iff.mp hinterfaces
      exact .interface hname habove hreach fun header => himplemented _ _ header hlast

/-- Widening leads to supertypes only. -/
theorem Widens.subtypeWithin (h : Widens table name above) {depth : Nat} (hdepth : name.length < depth) :
    (freeze table).subtypeWithin depth above name = some true := by
  induction h generalizing depth with
  | refl name =>
    obtain ⟨depth, rfl⟩ := Nat.exists_eq_succ_of_ne_zero (Nat.ne_zero_of_lt hdepth)
    exact subtypeWithin_same (.inl rfl) depth
  | object name =>
    obtain ⟨depth, rfl⟩ := Nat.exists_eq_succ_of_ne_zero (Nat.ne_zero_of_lt hdepth)
    exact subtypeWithin_same (.inr rfl) depth
  | superclass hname habove h =>
    obtain ⟨depth, rfl⟩ := Nat.exists_eq_succ_of_ne_zero (Nat.ne_zero_of_lt hdepth)
    exact subtypeWithin_of_reaches hname habove (.inl h) depth
  | interface hname habove h _ =>
    obtain ⟨depth, rfl⟩ := Nat.exists_eq_succ_of_ne_zero (Nat.ne_zero_of_lt hdepth)
    exact subtypeWithin_of_reaches hname habove h depth
  | @component name above component component' below' above' h h' hclass hclass' _ ih =>
    obtain ⟨depth, rfl⟩ := Nat.exists_eq_succ_of_ne_zero (Nat.ne_zero_of_lt hdepth)
    have hlength := Descriptor.length_component? h
    have hlength' := Descriptor.length_className?_le hclass
    have hcomponents : Hierarchy.assignableBy ((freeze table).subtypeWithin depth) component' component =
        some true := by
      have hreference : ¬ (Descriptor.isPrimitive component' || Descriptor.isPrimitive component) = true := by
        rw [Bool.or_eq_true]
        rintro (hprimitive | hprimitive)
        · cases hclass'.symm.trans (Descriptor.className?_of_isPrimitive hprimitive)
        · cases hclass.symm.trans (Descriptor.className?_of_isPrimitive hprimitive)
      rw [Hierarchy.assignableBy, if_neg hreference, hclass, hclass']
      split_ifs
      · rfl
      · exact ih (by omega)
    by_cases hsame : above = name ∨ above = objectClass
    · exact subtypeWithin_same hsame depth
    · rw [Nat.succ_eq_add_one, Hierarchy.subtypeWithin, if_neg hsame, h, h']
      dsimp only
      rw [hcomponents]
      exact ite_self _

theorem Widens.isSubtype (h : Widens table name above) :
    (freeze table).isSubtype above name = some true :=
  h.subtypeWithin (Nat.lt_succ_self _)

/-! ## Joins of names -/

theorem joinNames_object (depth : Nat) (other : String) :
    joinNames (freeze table) depth objectClass other = objectClass := by
  have hplain : component? objectClass = none := by decide
  cases depth with
  | zero => rfl
  | succ depth =>
    rw [joinNames, hplain]
    cases component? other with
    | none => exact commonSuperclass_object other
    | some _ => rfl

/-- The join of the components of two array types. -/
theorem Widens.brackets {component below joined : String} (h : component? name = some component)
    (hclass : Descriptor.className? component = some below) (hwidens : Widens table below joined) :
    Widens table name ("[" ++ Descriptor.ofClassName joined) :=
  .component h (Descriptor.component?_bracket _) hclass (Descriptor.className?_ofClassName joined) hwidens

/-- Joining a name with another one widens all that was widened to it. -/
theorem Widens.joinNames (himplemented : table.Implemented) (h : Widens table name above) (depth : Nat)
    (other : String) : Widens table name (joinNames (freeze table) depth above other) := by
  induction depth generalizing name above other with
  | zero => exact .object name
  | succ depth ih =>
    by_cases hobject : above = objectClass
    · rw [hobject, joinNames_object]
      exact .object name
    · unfold VerificationType.joinNames
      split
      · rename_i first second hfirst hsecond
        split
        · rename_i a b ha hb
          cases h with
          | refl => exact .brackets hfirst ha (ih (.refl a) b)
          | object => exact absurd rfl hobject
          | superclass _ habove _ => cases hfirst.symm.trans habove
          | interface _ habove _ _ => cases hfirst.symm.trans habove
          | component hname habove hclass hclass' hwidens =>
            obtain rfl := Option.some.inj (hfirst.symm.trans habove)
            obtain rfl := Option.some.inj (ha.symm.trans hclass')
            exact .brackets hname hclass (ih hwidens b)
        · exact .object name
      · rename_i hfirst hsecond
        rcases commonSuperclass_cases himplemented hfirst hsecond rfl with
          heq | ⟨heq, _⟩ | ⟨⟨header, hheader, hclass⟩, hplain, hreach, _⟩
        · rw [heq]
          exact .object name
        · rw [heq]
          exact h
        · cases h with
          | refl => exact .superclass hfirst hplain hreach
          | object => exact absurd rfl hobject
          | superclass hname _ hextends => exact .superclass hname hplain (hextends.trans hreach)
          | interface _ _ _ hends =>
            rw [hends header hheader] at hclass
            cases hclass
          | component _ habove _ _ _ => cases hfirst.symm.trans habove
      · exact .object name

/-- A join widens its right side. -/
theorem widens_joinNames (himplemented : table.Implemented) (depth : Nat) (name other : String) :
    Widens table other (joinNames (freeze table) depth name other) := by
  induction depth generalizing name other with
  | zero => exact .object other
  | succ depth ih =>
    unfold VerificationType.joinNames
    split
    · rename_i first second hfirst hsecond
      split
      · rename_i a b ha hb
        exact .brackets hsecond hb (ih a b)
      · exact .object other
    · rename_i hfirst hsecond
      rcases commonSuperclass_cases himplemented hfirst hsecond rfl with
        heq | ⟨_, heq⟩ | ⟨_, _, _, hsub⟩
      · rw [heq]
        exact .object other
      · rw [heq]
        exact .refl other
      · exact widens_of_isSubtype himplemented hsecond hsub
    · exact .object other

end Names

/-! ## Joins of types -/

/-- The first type is one that joins have made of the second one. -/
inductive Absorbs (table : ClassTable) : VerificationType → VerificationType → Prop where
  | refl (v : VerificationType) : Absorbs table v v
  | top (v : VerificationType) : Absorbs table top v
  | null (name : String) : Absorbs table (object name) null
  | object {name above : String} (h : Widens table name above) : Absorbs table (object above) (object name)

theorem join_cases (h : Hierarchy) (x y : VerificationType) :
    join h x y = x ∧ (x = y ∨ (∃ a, x = object a) ∧ y = null) ∨
      join h x y = top ∨
      join h x y = y ∧ x = null ∧ (∃ b, y = object b) ∨
      ∃ a b, x = object a ∧ y = object b ∧ join h x y = object (joinNames h (a.length + 1) a b) := by
  unfold join
  split_ifs with hsame
  · exact .inl ⟨rfl, .inl hsame⟩
  · split
    · exact .inr (.inr (.inl ⟨rfl, rfl, _, rfl⟩))
    · exact .inl ⟨rfl, .inr ⟨⟨_, rfl⟩, rfl⟩⟩
    · exact .inr (.inr (.inr ⟨_, _, rfl, rfl, rfl⟩))
    · exact .inr (.inl rfl)

theorem joinAbsorbs {table : ClassTable} (himplemented : table.Implemented) (m : MethodSig) :
    (domain (freeze table) m).JoinAbsorbs (Absorbs table) := by
  constructor
  case refl => exact .refl
  case left =>
    intro x y v hv
    show Absorbs table (join (freeze table) x y) v
    rcases join_cases (freeze table) x y with ⟨heq, _⟩ | heq | ⟨heq, rfl, b, rfl⟩ | ⟨a, b, rfl, rfl, heq⟩
    · rw [heq]
      exact hv
    · rw [heq]
      exact .top v
    · rw [heq]
      cases hv with
      | refl => exact .null b
    · rw [heq]
      cases hv with
      | refl => exact .object ((Widens.refl a).joinNames himplemented _ b)
      | null => exact .null _
      | object h => exact .object (h.joinNames himplemented _ b)
  case right =>
    intro x y
    show Absorbs table (join (freeze table) x y) y
    rcases join_cases (freeze table) x y with
      ⟨heq, rfl | ⟨⟨a, rfl⟩, rfl⟩⟩ | heq | ⟨heq, _⟩ | ⟨a, b, rfl, rfl, heq⟩
    · rw [heq]
      exact .refl x
    · rw [heq]
      exact .null a
    · rw [heq]
      exact .top y
    · rw [heq]
      exact .refl y
    · rw [heq]
      exact .object (widens_joinNames himplemented _ a b)

end VerificationType

end DirectCall
