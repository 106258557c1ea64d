import DirectCall.Proofs.Hierarchy.Subtype
import DirectCall.Proofs.Transformation.Scope

/-!
# Headers of a regular hierarchy

A check on the headers that are added to a table, which can be computed. If they pass it, the table is
regular (`regular_ofHeaders`).
-/

namespace DirectCall

namespace ClassTable

/-- The table of headers that are added one after another. -/
def ofHeaders (headers : List ClassHeader) : ClassTable :=
  headers.foldl (fun table header => (table.add header).toOption.getD table) ∅

variable {headers : List ClassHeader}

theorem getElem?_ofHeaders (headers : List ClassHeader) (name : String) :
    (ofHeaders headers)[name]? =
      headers.find? fun header => !header.name.isEmpty && header.name == name := by
  rw [ofHeaders, getElem?_addAll, Std.HashMap.getElem?_empty, Option.none_or]

theorem of_getElem?_ofHeaders {name : String} {header : ClassHeader}
    (h : (ofHeaders headers)[name]? = some header) : header ∈ headers ∧ header.name = name := by
  rw [getElem?_ofHeaders] at h
  have hname := List.find?_some h
  rw [Bool.and_eq_true, beq_iff_eq] at hname
  exact ⟨List.mem_of_find?_eq_some h, hname.2⟩

/-- There is a header of the name. -/
def Names (headers : List ClassHeader) (name : String) : Prop :=
  ∃ header ∈ headers, header.name = name ∧ header.name.isEmpty = false

instance (headers : List ClassHeader) (name : String) : Decidable (Names headers name) :=
  inferInstanceAs (Decidable (∃ header ∈ headers, _ ∧ _))

theorem Names.mem {name : String} (h : Names headers name) : name ∈ ofHeaders headers := by
  obtain ⟨header, hmem, rfl, hname⟩ := h
  rw [Std.HashMap.mem_iff_isSome_getElem?, getElem?_ofHeaders, List.find?_isSome]
  exact ⟨header, hmem, by simp [hname]⟩

/-- All headers of the name are headers of interfaces, or of classes. -/
def AreInterfaces (headers : List ClassHeader) (name : String) (isInterface : Bool) : Prop :=
  ∀ header ∈ headers, header.name = name → header.isInterface = isInterface

instance (headers : List ClassHeader) (name : String) (isInterface : Bool) :
    Decidable (AreInterfaces headers name isInterface) :=
  inferInstanceAs (Decidable (∀ header ∈ headers, _ → _))

/-- The classes in the descriptor of a method. -/
def describedClasses (m : MethodHeader) : List String :=
  match MethodDescriptor.parse m.descriptor with
  | .ok parsed => (parsed.ret :: parsed.params).filterMap Descriptor.element?
  | .error _ => []

/-- A header that names other headers as is right, and supertypes of a lower rank. -/
structure Checked (headers : List ClassHeader) (rank : String → Nat) (header : ClassHeader) : Prop where
  closing : ')' ∉ header.name.toList
  low : rank header.name ≤ lookupDepth
  top : header.name = objectClass → header.superclass? = none ∧ header.interfaces = []
  extended : ∀ above ∈ header.superclass?.toList, rank above < rank header.name ∧
    Names headers above ∧ AreInterfaces headers above false
  implemented : ∀ above ∈ header.interfaces, rank above < rank header.name ∧
    Names headers above ∧ AreInterfaces headers above true
  described : ∀ m ∈ header.methods, ∀ c ∈ describedClasses m, Names headers c

instance (headers : List ClassHeader) (rank : String → Nat) (header : ClassHeader) :
    Decidable (Checked headers rank header) :=
  decidable_of_iff
    (')' ∉ header.name.toList ∧ rank header.name ≤ lookupDepth ∧
      (header.name = objectClass → header.superclass? = none ∧ header.interfaces = []) ∧
      (∀ above ∈ header.superclass?.toList, rank above < rank header.name ∧
        Names headers above ∧ AreInterfaces headers above false) ∧
      (∀ above ∈ header.interfaces, rank above < rank header.name ∧
        Names headers above ∧ AreInterfaces headers above true) ∧
      ∀ m ∈ header.methods, ∀ c ∈ describedClasses m, Names headers c)
    ⟨fun ⟨h₁, h₂, h₃, h₄, h₅, h₆⟩ => ⟨h₁, h₂, h₃, h₄, h₅, h₆⟩,
      fun ⟨h₁, h₂, h₃, h₄, h₅, h₆⟩ => ⟨h₁, h₂, h₃, h₄, h₅, h₆⟩⟩

/-- Along a chain the ranks go down. -/
theorem length_le_of_rank {table : ClassTable} {rank : String → Nat}
    (hrank : ∀ name above, table.Link name above → rank above < rank name) {name : String}
    {chain : List String} (hchain : (name :: chain).IsChain table.Link) : chain.length ≤ rank name := by
  induction chain generalizing name with
  | nil => exact Nat.zero_le _
  | cons next chain ih =>
    obtain ⟨hlink, hrest⟩ := List.isChain_cons_cons.mp hchain
    have hbound := ih hrest
    have hless := hrank _ _ hlink
    rw [List.length_cons]
    omega

/-- A link of the table is in a header. -/
theorem extends_ofHeaders {name above : String} (h : (ofHeaders headers).Extends name above) :
    ∃ header ∈ headers, header.name = name ∧ above ∈ header.superclass?.toList := by
  obtain ⟨header, hheader, hsuper⟩ := h
  obtain ⟨hmem, hname⟩ := of_getElem?_ofHeaders hheader
  exact ⟨header, hmem, hname, by rw [hsuper]; simp⟩

theorem implements_ofHeaders {name above : String} (h : (ofHeaders headers).Implements name above) :
    ∃ header ∈ headers, header.name = name ∧ above ∈ header.interfaces := by
  obtain ⟨header, hheader, habove⟩ := h
  obtain ⟨hmem, hname⟩ := of_getElem?_ofHeaders hheader
  exact ⟨header, hmem, hname, habove⟩

theorem mem_ofHeaders {name : String} (h : name ∈ ofHeaders headers) :
    ∃ header ∈ headers, header.name = name := by
  obtain ⟨header, hheader⟩ := Option.isSome_iff_exists.mp (Std.HashMap.mem_iff_isSome_getElem?.mp h)
  exact ⟨header, of_getElem?_ofHeaders hheader⟩

section Checked

variable {rank : String → Nat} (h : ∀ header ∈ headers, Checked headers rank header)

include h

theorem link_ofHeaders {name above : String} (hlink : (ofHeaders headers).Link name above) :
    rank above < rank name ∧ rank name ≤ lookupDepth ∧ Names headers above := by
  rcases hlink with hlink | hlink
  · obtain ⟨header, hmem, rfl, habove⟩ := extends_ofHeaders hlink
    have hchecked := (h header hmem).extended above habove
    exact ⟨hchecked.1, (h header hmem).low, hchecked.2.1⟩
  · obtain ⟨header, hmem, rfl, habove⟩ := implements_ofHeaders hlink
    have hchecked := (h header hmem).implemented above habove
    exact ⟨hchecked.1, (h header hmem).low, hchecked.2.1⟩

theorem length_le_lookupDepth {chain : List String} (hchain : chain.IsChain (ofHeaders headers).Link) :
    chain.length ≤ lookupDepth + 1 := by
  rcases chain with _ | ⟨name, _ | ⟨next, chain⟩⟩
  · simp
  · simp
  · have hbound := length_le_of_rank (fun _ _ hstep => (link_ofHeaders h hstep).1) hchain
    have hlow := (link_ofHeaders h (List.isChain_cons_cons.mp hchain).1).2.1
    rw [List.length_cons]
    omega

end Checked

theorem regular_ofHeaders (rank : String → Nat) (h : ∀ header ∈ headers, Checked headers rank header) :
    (ofHeaders headers).Regular where
  named _ _ hheader := (of_getElem?_ofHeaders hheader).2
  shallow _ hchain := length_le_lookupDepth h hchain
  closed _ _ hstep := (link_ofHeaders h hstep).2.2.mem
  described name header hheader m hm parsed hparsed d hd c hc := by
    refine ((h header (of_getElem?_ofHeaders hheader).1).described m hm c ?_).mem
    rw [describedClasses, hparsed]
    exact List.mem_filterMap.mpr ⟨d, hd, hc⟩
  implemented name above header hstep hheader := by
    obtain ⟨header', hmem, _, habove⟩ := implements_ofHeaders hstep
    obtain ⟨hmem', hname⟩ := of_getElem?_ofHeaders hheader
    exact ((h header' hmem).implemented above habove).2.2 header hmem' hname
  extended name above header hstep hheader := by
    obtain ⟨header', hmem, _, habove⟩ := extends_ofHeaders hstep
    obtain ⟨hmem', hname⟩ := of_getElem?_ofHeaders hheader
    exact ((h header' hmem).extended above habove).2.2 header hmem' hname
  top above := by
    rintro (hstep | hstep)
    · obtain ⟨header, hmem, hname, habove⟩ := extends_ofHeaders hstep
      simp [((h header hmem).top hname).1] at habove
    · obtain ⟨header, hmem, hname, habove⟩ := implements_ofHeaders hstep
      simp [((h header hmem).top hname).2] at habove
  closing name hname := by
    obtain ⟨header, hmem, rfl⟩ := mem_ofHeaders hname
    exact (h header hmem).closing

theorem noArrays_ofHeaders (h : ∀ header ∈ headers, Hierarchy.component? header.name = none) :
    (ofHeaders headers).NoArrays := by
  intro name hname
  obtain ⟨header, hmem, rfl⟩ := mem_ofHeaders hname
  rw [Descriptor.isArray_eq, h header hmem]
  rfl

end ClassTable

end DirectCall
