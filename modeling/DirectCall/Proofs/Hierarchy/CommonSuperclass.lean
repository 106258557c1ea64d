import DirectCall.Proofs.Hierarchy.Supertypes

/-!
# Least common superclasses

Where no type is above itself and classes and interfaces are kept apart, the common superclass of two types is
above both, does not depend on their order, and has each common superclass of two classes above it
(`commonSuperclass_joins`). Types may be missing. It matters that names which start with a bracket are read as
those of array types, and that the root class counts as above all types: the three hierarchies at the end are
layered, but name classes like array types, or put a class above the root class.
-/

namespace DirectCall

open Relation

namespace ClassTable

open Hierarchy (freeze component?)

/-- No type is above itself, and what is extended is apart from what is implemented. -/
structure Layered (table : ClassTable) : Prop where
  acyclic : ∀ name, ¬ TransGen table.Link name name
  implemented : table.Implemented
  extended : ∀ (name above : String) (header : ClassHeader), table.Extends name above →
    table[above]? = some header → header.isInterface = false
  apart : ∀ name above below, table.Extends below above → ¬ table.Implements name above

/-- The root class is the top of the superclasses. -/
def RootOnTop (table : ClassTable) : Prop := ∀ above, ¬ table.Extends objectClass above

/-- A type above `a` and `b` that comes out in either order. Of the superclasses that are counted, those that two
classes share are above it. -/
structure Joins (table : ClassTable) (Counted : String → Prop) (a b c : String) : Prop where
  left : (freeze table).isSubtype c a = some true
  right : (freeze table).isSubtype c b = some true
  swapped : (freeze table).commonSuperclass b a = c
  least : table.IsClass a → table.IsClass b → ∀ x, Counted x → ReflTransGen table.Extends a x →
    ReflTransGen table.Extends b x → ReflTransGen table.Extends c x ∨ x = objectClass

variable {table : ClassTable}

/-! ## What the search finds -/

/-- A superclass of both types, or one of them, which does not have the name of an array type. -/
structure Shared (table : ClassTable) (a b x : String) : Prop where
  plain : component? x = none
  left : ReflTransGen table.Extends a x
  right : ReflTransGen table.Extends b x

theorem Shared.symm {a b x : String} (h : table.Shared a b x) : table.Shared b a x := ⟨h.plain, h.right, h.left⟩

/-- The nearest one that is shared; it is the root class if none is, or if nothing else is. -/
def IsNearest (table : ClassTable) (a b c : String) : Prop :=
  (table.Shared a b c ∧ ∀ x, table.Shared a b x → ReflTransGen table.Extends c x) ∨
    (c = objectClass ∧ ∀ x, table.Shared a b x → x = objectClass)

theorem IsNearest.symm {a b c : String} (h : table.IsNearest a b c) : table.IsNearest b a c :=
  h.imp (fun ⟨hc, hleast⟩ => ⟨hc.symm, fun x hx => hleast x hx.symm⟩)
    fun ⟨hc, honly⟩ => ⟨hc, fun x hx => honly x hx.symm⟩

theorem RootOnTop.eq_of_reached (htop : table.RootOnTop) {above : String}
    (hreach : ReflTransGen table.Extends objectClass above) : above = objectClass := by
  rcases ReflTransGen.cases_head hreach with heq | ⟨next, hstep, _⟩
  · exact heq.symm
  · exact absurd hstep (htop next)

section Layered

variable (h : table.Layered)
include h

theorem Layered.nearest_unique {a b c c' : String} (hc : table.IsNearest a b c) (hc' : table.IsNearest a b c') :
    c = c' := by
  rcases hc with ⟨hshared, hleast⟩ | ⟨hobject, honly⟩ <;> rcases hc' with ⟨hshared', hleast'⟩ | ⟨hobject', honly'⟩
  · exact reached_antisymm h.acyclic (links_of_extends (hleast c' hshared'))
      (links_of_extends (hleast' c hshared))
  · rw [honly' c hshared, hobject']
  · rw [honly c' hshared', hobject]
  · rw [hobject, hobject']

/-- What a class is below by way of classes, no type names as an interface. -/
theorem Layered.not_implements {a x : String} (ha : table.IsClass a) (hx : ReflTransGen table.Extends a x)
    (below : String) : ¬ table.Implements below x := by
  rcases ReflTransGen.cases_tail hx with rfl | ⟨name, _, hstep⟩
  · exact ha.not_implements h.implemented below
  · exact h.apart below x name hstep

/-- So the classes above a class, and no others of these, are its supertypes. -/
theorem Layered.isSubtype_iff {a b x : String} (ha : table.IsClass a) (hb : component? b = none)
    (hx : ReflTransGen table.Extends a x) : (freeze table).isSubtype x b = some true ↔
      x = objectClass ∨ component? x = none ∧ ReflTransGen table.Extends b x :=
  VerificationType.isSubtype_iff_extends hb (h.not_implements ha hx)

end Layered

/-- The first superclass that `b` can be used for is the nearest shared one. -/
theorem Layered.find_isNearest (h : table.Layered) (htop : table.RootOnTop) {a b : String} (ha : table.IsClass a)
    (hb : component? b = none) (hbelow : (freeze table).isSubtype a b ≠ some true) :
    table.IsNearest a b (((table.superclasses a).1.find?
      fun above => (freeze table).isSubtype above b = some true).getD objectClass) := by
  have hchain := table.superclasses_isSuperChain a
  have hfound : ∀ x, table.Shared a b x → x ∈ (table.superclasses a).1 ∧
      (freeze table).isSubtype x b = some true := by
    intro x hx
    have hsub := (h.isSubtype_iff ha hb hx.left).mpr (.inr ⟨hx.plain, hx.right⟩)
    rcases List.mem_cons.mp (hchain.mem_iff.mpr hx.left) with rfl | hmem
    · exact absurd hsub hbelow
    · exact ⟨hmem, hsub⟩
  cases hfind : (table.superclasses a).1.find? fun above => (freeze table).isSubtype above b = some true with
  | none =>
    refine .inr ⟨rfl, fun x hx => ?_⟩
    obtain ⟨hmem, hsub⟩ := hfound x hx
    exact absurd hsub (by simpa using List.find?_eq_none.mp hfind x hmem)
  | some c =>
    rw [List.find?_eq_some_iff_append] at hfind
    obtain ⟨hc, nearer, farther, hsplit, hnot⟩ := hfind
    have hup : ReflTransGen table.Extends a c := hchain.mem_iff.mp (by simp [hsplit])
    -- What is shared is not nearer than the first that was found, so it is further up the chain.
    have hleast : ∀ x, table.Shared a b x → ReflTransGen table.Extends c x := by
      intro x hx
      obtain ⟨hmem, hsub⟩ := hfound x hx
      rw [hsplit, List.mem_append] at hmem
      rcases hmem with hmem | hmem
      · exact absurd hsub (by simpa using hnot x hmem)
      · have hlinked := hchain.linked
        rw [hsplit, ← List.cons_append] at hlinked
        exact extends_of_linked hlinked.right_of_append hmem
    rcases (h.isSubtype_iff ha hb hup).mp (by simpa using hc) with rfl | ⟨hplain, hright⟩
    · exact .inr ⟨rfl, fun x hx => htop.eq_of_reached (hleast x hx)⟩
    · exact .inl ⟨⟨hplain, hup, hright⟩, hleast⟩

theorem Layered.commonSuperclass_isNearest (h : table.Layered) (htop : table.RootOnTop) {a b : String}
    (ha : table.IsClass a) (hb : table.IsClass b) (hplain : component? a = none) (hplain' : component? b = none) :
    table.IsNearest a b ((freeze table).commonSuperclass a b) := by
  rw [VerificationType.commonSuperclass_classes ha hb]
  split_ifs with hbelow habove
  · rcases (h.isSubtype_iff ha hplain' .refl).mp hbelow with rfl | ⟨_, hreach⟩
    · exact .inr ⟨rfl, fun x hx => htop.eq_of_reached hx.left⟩
    · exact .inl ⟨⟨hplain, .refl, hreach⟩, fun x hx => hx.left⟩
  · rcases (h.isSubtype_iff hb hplain .refl).mp habove with rfl | ⟨_, hreach⟩
    · exact .inr ⟨rfl, fun x hx => htop.eq_of_reached hx.right⟩
    · exact .inl ⟨⟨hplain', hreach, .refl⟩, fun x hx => hx.right⟩
  · exact h.find_isNearest htop ha hplain' hbelow

theorem IsNearest.isSubtype {a b c : String} (hc : table.IsNearest a b c) (ha : component? a = none) :
    (freeze table).isSubtype c a = some true := by
  rcases hc with ⟨hshared, _⟩ | ⟨hobject, _⟩
  · exact VerificationType.subtypeWithin_of_reaches ha hshared.plain (.inl hshared.left) _
  · exact VerificationType.subtypeWithin_same (.inr hobject) _

/-! ## Layered headers -/

theorem acyclic_of_rank (rank : String → Nat)
    (hrank : ∀ name above, table.Link name above → rank above < rank name) (name : String) :
    ¬ TransGen table.Link name name := by
  have hlower : ∀ {above}, TransGen table.Link name above → rank above < rank name := by
    intro above hup
    induction hup with
    | single hlink => exact hrank _ _ hlink
    | tail _ hlink ih => exact (hrank _ _ hlink).trans ih
  exact fun hcycle => lt_irrefl _ (hlower hcycle)

/-- Headers make a layered table if each names supertypes of a lower rank, and each name is that of a class or of
an interface, as which it is used only. -/
theorem Layered.of_headers {headers : List ClassHeader} (rank : String → Nat)
    (h : ∀ header ∈ headers,
      (∀ above ∈ header.superclass?.toList ++ header.interfaces, rank above < rank header.name) ∧
      (∀ above ∈ header.superclass?.toList, AreInterfaces headers above false ∧
        ∀ other ∈ headers, above ∉ other.interfaces) ∧
      ∀ above ∈ header.interfaces, AreInterfaces headers above true) : (ofHeaders headers).Layered where
  acyclic := by
    refine acyclic_of_rank rank ?_
    rintro name above (hlink | hlink)
    · obtain ⟨header, hlisted, rfl, habove⟩ := extends_ofHeaders hlink
      exact (h header hlisted).1 above (List.mem_append_left _ habove)
    · obtain ⟨header, hlisted, rfl, habove⟩ := implements_ofHeaders hlink
      exact (h header hlisted).1 above (List.mem_append_right _ habove)
  implemented := .of_headers fun header hlisted => (h header hlisted).2.2
  extended name above header hextends hheader := by
    obtain ⟨below, hbelow, _, habove⟩ := extends_ofHeaders hextends
    obtain ⟨hlisted, hname⟩ := of_getElem?_ofHeaders hheader
    exact ((h below hbelow).2.1 above habove).1 header hlisted hname
  apart name above below hextends himplements := by
    obtain ⟨header, hlisted, _, habove⟩ := extends_ofHeaders hextends
    obtain ⟨other, hother, _, hmem⟩ := implements_ofHeaders himplements
    exact ((h header hlisted).2.1 above habove).2 other hother hmem

theorem RootOnTop.of_headers {headers : List ClassHeader}
    (h : ∀ header ∈ headers, header.name = objectClass → header.superclass? = none) :
    (ofHeaders headers).RootOnTop := by
  intro above hextends
  obtain ⟨header, hlisted, hname, habove⟩ := extends_ofHeaders hextends
  rw [h header hlisted hname] at habove
  cases habove

/-- The header of a public class. -/
def plainHeader (name : String) (above : Option String) : ClassHeader := ⟨name, above, [], 0x0021, []⟩

theorem plainHeader_isInterface (name : String) (above : Option String) :
    (plainHeader name above).isInterface = false :=
  (by decide : Access.isInterface 0x0021 = false)

theorem plainHeader_superclass? (name : String) (above : Option String) :
    (plainHeader name above).superclass? = above := by
  rw [ClassHeader.superclass?, plainHeader_isInterface, if_neg Bool.false_ne_true]
  rfl

section Find

variable {headers : List ClassHeader} {name : String}

theorem isClass_of_find (above : Option String)
    (h : (headers.find? fun header => !header.name.isEmpty && header.name == name) =
      some (plainHeader name above)) : (ofHeaders headers).IsClass name :=
  ⟨_, (getElem?_ofHeaders headers name).trans h, plainHeader_isInterface name above⟩

theorem extends_of_find {above : String}
    (h : (headers.find? fun header => !header.name.isEmpty && header.name == name) =
      some (plainHeader name (some above))) : (ofHeaders headers).Extends name above :=
  ⟨_, (getElem?_ofHeaders headers name).trans h, plainHeader_superclass? name (some above)⟩

/-- A name that no header gives as a superclass is one of no other class. -/
theorem eq_of_reached {below : String} (h : ∀ header ∈ headers, name ∉ header.superclass?.toList)
    (hreach : ReflTransGen (ofHeaders headers).Extends below name) : name = below := by
  rcases ReflTransGen.cases_tail hreach with heq | ⟨_, _, hlast⟩
  · exact heq
  · obtain ⟨header, hlisted, _, habove⟩ := extends_ofHeaders hlast
    exact absurd habove (h header hlisted)

end Find

/-! ## Common superclasses -/

theorem joins_of_other {Counted : String → Prop} {a b : String} (hother : ¬ (table.IsClass a ∧ table.IsClass b)) :
    table.Joins Counted a b ((freeze table).commonSuperclass a b) := by
  have hswapped : ¬ (table.IsClass b ∧ table.IsClass a) := fun h => hother h.symm
  rw [VerificationType.commonSuperclass_other hother]
  refine ⟨?_, ?_, ?_, fun ha hb => absurd ⟨ha, hb⟩ hother⟩
  · split_ifs
    · exact VerificationType.subtypeWithin_same (.inl rfl) _
    · exact VerificationType.subtypeWithin_same (.inr rfl) _
  · split_ifs with hsame
    · exact VerificationType.subtypeWithin_same (.inl hsame) _
    · exact VerificationType.subtypeWithin_same (.inr rfl) _
  · rw [VerificationType.commonSuperclass_other hswapped]
    split_ifs with hsame hsame' hsame'
    · exact hsame
    · exact absurd hsame.symm hsame'
    · exact absurd hsame'.symm hsame
    · rfl

/-- If the root class extends no other one, the common superclass is the least type above two classes that
do not have the names of array types, and for other types it is a type above them that does not depend on their
order. -/
theorem commonSuperclass_joins (h : table.Layered) (htop : table.RootOnTop) (a b : String)
    (ha : table.IsClass a → Descriptor.isArray a = false) (hb : table.IsClass b → Descriptor.isArray b = false) :
    table.Joins (fun x => Descriptor.isArray x = false) a b ((freeze table).commonSuperclass a b) := by
  simp only [Descriptor.isArray_eq, Option.isSome_eq_false_iff, Option.isNone_iff_eq_none] at ha hb ⊢
  by_cases hclasses : table.IsClass a ∧ table.IsClass b
  · obtain ⟨hclass, hclass'⟩ := hclasses
    have hnearest := h.commonSuperclass_isNearest htop hclass hclass' (ha hclass) (hb hclass')
    have hnearest' := h.commonSuperclass_isNearest htop hclass' hclass (hb hclass') (ha hclass)
    refine ⟨hnearest.isSubtype (ha hclass), hnearest.symm.isSubtype (hb hclass'),
      h.nearest_unique hnearest'.symm hnearest, fun _ _ x hplain hleft hright => ?_⟩
    have hshared : table.Shared a b x := ⟨hplain, hleft, hright⟩
    exact hnearest.imp (fun hc => hc.2 x hshared) fun hc => hc.2 x hshared
  · exact joins_of_other hclasses

/-- Two classes over one, of which the superclass is not known. -/
def branches : List ClassHeader :=
  [plainHeader objectClass none, plainHeader "a/Base" (some "a/Gone"), plainHeader "a/Left" (some "a/Base"),
    plainHeader "a/Right" (some "a/Base")]

theorem branches_layered : (ofHeaders branches).Layered :=
  .of_headers (fun name => if name = "a/Gone" then 0 else if name = "a/Base" then 1 else 2) (by decide)

theorem branches_rootOnTop : (ofHeaders branches).RootOnTop := .of_headers (by decide)

theorem branches_classes : (ofHeaders branches).IsClass "a/Left" ∧ (ofHeaders branches).IsClass "a/Right" :=
  ⟨isClass_of_find (some "a/Base") (by decide), isClass_of_find (some "a/Base") (by decide)⟩

theorem branches_nearest : (ofHeaders branches).IsNearest "a/Left" "a/Right" "a/Base" := by
  have hleft : (ofHeaders branches).Extends "a/Left" "a/Base" := extends_of_find (by decide)
  have hright : (ofHeaders branches).Extends "a/Right" "a/Base" := extends_of_find (by decide)
  refine .inl ⟨⟨by decide, .single hleft, .single hright⟩, fun x hx => ?_⟩
  rcases ReflTransGen.cases_head hx.left with rfl | ⟨_, hstep, hrest⟩
  · exact absurd (eq_of_reached (by decide) hx.right) (by decide)
  · rwa [hleft.unique hstep]

theorem commonSuperclass_joins_branches :
    (ofHeaders branches).Joins (fun x => Descriptor.isArray x = false) "a/Left" "a/Right" "a/Base" := by
  have hplain : Descriptor.isArray "a/Left" = false ∧ Descriptor.isArray "a/Right" = false := by
    simp only [Descriptor.isArray_eq]
    decide
  have hjoins := commonSuperclass_joins branches_layered branches_rootOnTop "a/Left" "a/Right"
    (fun _ => hplain.1) fun _ => hplain.2
  have hnearest := branches_layered.commonSuperclass_isNearest branches_rootOnTop
    branches_classes.1 branches_classes.2 (by decide) (by decide)
  rwa [branches_layered.nearest_unique hnearest branches_nearest] at hjoins

/-! ## Names that break the rule -/

theorem isSubtype_array_plain {target source component : String} (hsource : component? source = none)
    (htarget : component? target = some component) : (freeze table).isSubtype target source ≠ some true := by
  intro hsub
  rcases VerificationType.reaches_of_isSubtype hsource hsub with rfl | rfl | ⟨hplain, _⟩
  · cases hsource.symm.trans htarget
  · exact object_component? component htarget
  · cases hplain.symm.trans htarget

theorem isSubtype_plain_array {target source component : String} (hsource : component? source = some component)
    (htarget : component? target = none) (hobject : target ≠ objectClass)
    (hinterface : Hierarchy.isArrayInterface target = false) :
    (freeze table).isSubtype target source ≠ some true := by
  intro hsub
  rcases isSubtype_eq_true.mp hsub with rfl | heq | ⟨hplain, _⟩ | ⟨_, _, harray | ⟨_, hcomponent, _⟩⟩
  · cases hsource.symm.trans htarget
  · exact hobject heq
  · cases hsource.symm.trans hplain
  · rw [hinterface] at harray
    cases harray
  · cases htarget.symm.trans hcomponent

/-- A class with the name of an array type, and its superclass. -/
def bracketed : List ClassHeader :=
  [plainHeader objectClass none, plainHeader "a/B" (some objectClass), plainHeader "[a/A" (some "a/B")]

/-- A class above the root class. -/
def overRoot : List ClassHeader := [plainHeader objectClass (some "a/X"), plainHeader "a/X" none]

/-- Two classes with a superclass that has the name of an array type. -/
def overArray : List ClassHeader :=
  [plainHeader objectClass none, plainHeader "[a/Y" none, plainHeader "a/A" (some "[a/Y"),
    plainHeader "a/B" (some "[a/Y")]

theorem bracketed_not_joins (c : String) : ¬ (ofHeaders bracketed).Joins (fun _ => True) "[a/A" "a/B" c := by
  intro h
  have hclasses : (ofHeaders bracketed).IsClass "[a/A" ∧ (ofHeaders bracketed).IsClass "a/B" :=
    ⟨isClass_of_find (some "a/B") (by decide), isClass_of_find (some objectClass) (by decide)⟩
  have hextends : (ofHeaders bracketed).Extends "[a/A" "a/B" := extends_of_find (by decide)
  have hbracket : component? "[a/A" = some "a/A" := by decide
  have hplain : component? "a/B" = none := by decide
  rcases h.least hclasses.1 hclasses.2 "a/B" trivial (.single hextends) .refl with hreach | heq
  · rcases ReflTransGen.cases_head hreach with rfl | ⟨_, hstep, _⟩
    · exact isSubtype_plain_array hbracket hplain (by decide) (by decide) h.left
    · obtain ⟨header, hlisted, rfl, habove⟩ := extends_ofHeaders hstep
      simp only [bracketed, List.mem_cons, List.not_mem_nil, or_false] at hlisted
      rcases hlisted with rfl | rfl | rfl
      · rw [plainHeader_superclass?] at habove
        cases habove
      · exact isSubtype_plain_array hbracket hplain (by decide) (by decide) h.left
      · exact isSubtype_array_plain hplain hbracket h.right
  · exact absurd heq (by decide)

theorem overRoot_not_joins : ¬ (ofHeaders overRoot).Joins (fun _ => True) objectClass "a/X"
    ((freeze (ofHeaders overRoot)).commonSuperclass objectClass "a/X") := by
  intro h
  have hextends : (ofHeaders overRoot).Extends objectClass "a/X" := extends_of_find (by decide)
  have hsub : (freeze (ofHeaders overRoot)).isSubtype "a/X" objectClass = some true :=
    VerificationType.subtypeWithin_of_reaches (by decide) (by decide) (.inl (.single hextends)) _
  have hswapped := h.swapped
  rw [VerificationType.commonSuperclass_object,
    VerificationType.commonSuperclass_classes (isClass_of_find none (by decide))
      (isClass_of_find (some "a/X") (by decide)), if_pos hsub] at hswapped
  exact absurd hswapped (by decide)

theorem overArray_layered : (ofHeaders overArray).Layered :=
  .of_headers (fun name => if name = "[a/Y" then 0 else 1) (by decide)

theorem overArray_not_joins (c : String) : ¬ (ofHeaders overArray).Joins (fun _ => True) "a/A" "a/B" c := by
  intro h
  have hleft : (ofHeaders overArray).IsClass "a/A" := isClass_of_find (some "[a/Y") (by decide)
  have hright : (ofHeaders overArray).IsClass "a/B" := isClass_of_find (some "[a/Y") (by decide)
  have hup : (ofHeaders overArray).Extends "a/A" "[a/Y" := extends_of_find (by decide)
  have hup' : (ofHeaders overArray).Extends "a/B" "[a/Y" := extends_of_find (by decide)
  -- Neither of the two classes is a supertype of the other one.
  have hapart : ∀ {x y}, (ofHeaders overArray).IsClass x → component? y = none → x ≠ objectClass →
      (∀ header ∈ overArray, x ∉ header.superclass?.toList) → x ≠ y →
      (freeze (ofHeaders overArray)).isSubtype x y ≠ some true := by
    intro x y hx hy hobject hunextended hne hsub
    rcases (overArray_layered.isSubtype_iff hx hy .refl).mp hsub with heq | ⟨_, hreach⟩
    · exact hobject heq
    · exact hne (eq_of_reached hunextended hreach)
  rcases h.least hleft hright "[a/Y" trivial (.single hup) (.single hup') with hreach | heq
  · rcases ReflTransGen.cases_head hreach with rfl | ⟨_, hstep, _⟩
    · exact isSubtype_array_plain (by decide) (by decide : component? "[a/Y" = some "a/Y") h.left
    · obtain ⟨header, hlisted, rfl, habove⟩ := extends_ofHeaders hstep
      simp only [overArray, List.mem_cons, List.not_mem_nil, or_false] at hlisted
      rcases hlisted with rfl | rfl | rfl | rfl
      · rw [plainHeader_superclass?] at habove
        cases habove
      · exact isSubtype_array_plain (by decide) (by decide : component? "[a/Y" = some "a/Y") h.left
      · exact hapart hleft (by decide) (by decide) (by decide) (by decide) h.right
      · exact hapart hright (by decide) (by decide) (by decide) (by decide) h.left
  · exact absurd heq (by decide)

/-- Three layered hierarchies with pairs of types that have no such join. One of the types has the name of an
array type; or the root class has a superclass; or a shared superclass has the name of an array type. -/
theorem layered_not_joins :
    ((ofHeaders bracketed).Layered ∧ (ofHeaders bracketed).RootOnTop ∧
      ¬ (ofHeaders bracketed).Joins (fun _ => True) "[a/A" "a/B"
        ((freeze (ofHeaders bracketed)).commonSuperclass "[a/A" "a/B")) ∧
    ((ofHeaders overRoot).Layered ∧
      ¬ (ofHeaders overRoot).Joins (fun _ => True) objectClass "a/X"
        ((freeze (ofHeaders overRoot)).commonSuperclass objectClass "a/X")) ∧
    (ofHeaders overArray).Layered ∧ (ofHeaders overArray).RootOnTop ∧
      ¬ (ofHeaders overArray).Joins (fun _ => True) "a/A" "a/B"
        ((freeze (ofHeaders overArray)).commonSuperclass "a/A" "a/B") := by
  refine ⟨⟨?_, .of_headers (by decide), bracketed_not_joins _⟩, ⟨?_, overRoot_not_joins⟩,
    overArray_layered, .of_headers (by decide), overArray_not_joins _⟩
  · exact .of_headers (fun name => if name = objectClass then 0 else if name = "a/B" then 1 else 2) (by decide)
  · exact .of_headers (fun name => if name = objectClass then 1 else 0) (by decide)

end ClassTable

end DirectCall
