import DirectCall.Proofs.Hierarchy.Candidates
import DirectCall.Proofs.Hierarchy.Regular

/-!
# What a look-up finds

A look-up through the supertypes may answer nothing, but what it answers is a member that the class has
(`resolve_found`). Types may be missing and supertypes may form cycles; it only matters that classes extend
classes and that what they implement are interfaces (`WellKinded`), so that once a walk has come to an
interface it meets nothing but interfaces.
-/

namespace DirectCall

open Relation

namespace ClassTable

/-- Known types that are implemented are interfaces, known superclasses are classes. -/
structure WellKinded (table : ClassTable) : Prop where
  implemented : ∀ (name above : String) (header : ClassHeader), table.Implements name above →
    table[above]? = some header → header.isInterface = true
  extended : ∀ (name above : String) (header : ClassHeader), table.Extends name above →
    table[above]? = some header → header.isInterface = false

/-- A method that was found for a name and for requested types is a member of the class. -/
structure Found (table : ClassTable) (className name : String) (params : List String)
    (found : ResolvedMethod) : Prop where
  /-- The owner is a known type and declares the method as it was found. -/
  declared : ∃ header, table[found.owner]? = some header ∧ found.ownerIsInterface = header.isInterface ∧
    ∃ m ∈ header.methods, found.name = m.name ∧ found.descriptor = m.descriptor ∧ found.access = m.access
  reached : ReflTransGen table.Link className found.owner
  isPublic : found.isPublic = true
  name_eq : found.name = name
  /-- It is neither a constructor nor an initializer. -/
  ordinary : found.name.startsWith "<" = false
  takes : ∃ parsed, MethodDescriptor.parse found.descriptor = .ok parsed ∧
    List.Forall₂ (fun declared requested =>
      (Hierarchy.freeze table).isAssignable requested declared = some true) parsed.params params
  /-- Static methods of interfaces are not inherited. -/
  inherited : found.isStatic = true → ReflTransGen table.Extends className found.owner
  own : ∀ header m, table[className]? = some header → m ∈ header.methods → m.isPublic = true →
    (Hierarchy.freeze table).isMatch name params m = some true → found.owner = className
  /-- A class on the way up to the owner hides nothing. -/
  nearest : ∀ nearer declaring, (Hierarchy.freeze table).SuperclassChain className nearer declaring →
    declaring.name = found.owner → (∀ header ∈ nearer, header.name ≠ found.owner) →
      ∀ header ∈ nearer, (Hierarchy.freeze table).NoMatch name params header

variable {table : ClassTable} {name : String} {params : List String}

/-! ## The walk meets candidates only -/

/-- The method is a match of the frozen hierarchy. -/
def Taken (table : ClassTable) (name : String) (params : List String) (m : MethodHeader) : Prop :=
  (Hierarchy.freeze table).isMatch name params m = some true

theorem offers_iff_visible {includeStatic : Bool} {header : ClassHeader} {m : MethodHeader} :
    Offers (table.Taken name params) includeStatic header m ↔
      m ∈ Hierarchy.visible includeStatic header ∧ table.Taken name params m := by
  rw [Hierarchy.visible, List.mem_filter, Offers, Bool.and_eq_true, Bool.or_eq_true, Bool.not_eq_true',
    and_assoc, and_assoc]

theorem not_offers_iff {header : ClassHeader} :
    (∀ m, ¬ Offers (table.Taken name params) true header m) ↔
      (Hierarchy.freeze table).NoMatch name params header := by
  simp only [offers_iff_visible, Hierarchy.mem_visible, not_and]
  exact ⟨fun h m hm hpublic => h m ⟨hm, hpublic⟩, fun h m hm => h m hm.1 hm.2⟩

/-- Merging and the bound on the depth may lose candidates but never invent one. -/
theorem publicCandidates_sound {depth : Nat} {includeStatic : Bool} {className : String}
    {cs : List Candidate}
    (hcs : (Hierarchy.freeze table).publicCandidates name params depth includeStatic className = some cs) :
    ∀ k ∈ cs, table.IsCandidate (table.Taken name params) includeStatic className k := by
  induction depth generalizing includeStatic className cs with
  | zero => simp [Hierarchy.publicCandidates] at hcs
  | succ depth ih =>
    obtain ⟨header, found, hheader, hfound, hcases⟩ := Hierarchy.publicCandidates_succ hcs
    have hoffered : ∀ k, k ∈ found ↔
        k.owner = header ∧ Offers (table.Taken name params) includeStatic header k.method := fun k => by
      rw [Hierarchy.mem_matching hfound, offers_iff_visible]
      rfl
    rcases hcases with ⟨_, rfl⟩ | ⟨rfl, inherited, habove, hnone, hcs⟩
    · rintro ⟨owner, m⟩ hk
      obtain ⟨rfl, hm⟩ := (hoffered _).mp hk
      exact .own hheader hm
    · have hoffers : ∀ m, ¬ Offers (table.Taken name params) includeStatic header m := fun m hm =>
        List.not_mem_nil ((hoffered ⟨header, m⟩).mpr ⟨rfl, hm⟩)
      refine Hierarchy.mergeInterfaces_forall hcs (fun k hk => ?_) fun i hi added hadded k hk =>
        .interface hheader hoffers hi (ih hadded k hk)
      cases hsuper : header.superclass? with
      | none => simp [hnone hsuper] at hk
      | some above => exact .inherited hheader hoffers hsuper (ih (habove above hsuper) k hk)

/-! ## Where a candidate comes from -/

section Candidates

variable {M : MethodHeader → Prop} {includeStatic : Bool} {className : String} {k : Candidate}

theorem IsCandidate.isPublic (hk : table.IsCandidate M includeStatic className k) :
    k.method.isPublic = true := by
  induction hk with
  | own _ hm => exact hm.2.1
  | inherited _ _ _ _ ih => exact ih
  | interface _ _ _ _ ih => exact ih

theorem IsCandidate.not_static (hk : table.IsCandidate M includeStatic className k)
    (hstatic : includeStatic = false) : k.method.isStatic = false := by
  induction hk with
  | own _ hm =>
    subst hstatic
    exact hm.2.2.1.resolve_left Bool.false_ne_true
  | inherited _ _ _ _ ih => exact ih hstatic
  | interface _ _ _ _ ih => exact ih rfl

section Named

variable (hnamed : ∀ (name : String) (header : ClassHeader), table[name]? = some header → header.name = name)
include hnamed

theorem IsCandidate.known (hk : table.IsCandidate M includeStatic className k) :
    table[k.owner.name]? = some k.owner := by
  obtain ⟨⟨owner, howner⟩, _⟩ := hk.declared
  rwa [hnamed owner k.owner howner]

theorem IsCandidate.reached (hk : table.IsCandidate M includeStatic className k) :
    ReflTransGen table.Link className k.owner.name := by
  induction hk with
  | own hheader _ => rw [hnamed _ _ hheader]
  | inherited hheader _ hsuper _ ih => exact .head (.inl ⟨_, hheader, hsuper⟩) ih
  | interface hheader _ hmem _ ih => exact .head (.inr ⟨_, hheader, hmem⟩) ih

/-- A static method comes from the class itself or from a superclass. -/
theorem IsCandidate.extends_of_static (hk : table.IsCandidate M includeStatic className k)
    (hstatic : k.method.isStatic = true) : ReflTransGen table.Extends className k.owner.name := by
  induction hk with
  | own hheader _ => rw [hnamed _ _ hheader]
  | inherited hheader _ hsuper _ ih => exact .head ⟨_, hheader, hsuper⟩ (ih hstatic)
  | interface _ _ _ hk _ => exact absurd (hstatic.symm.trans (hk.not_static rfl)) Bool.noConfusion

/-- A class with matches of its own answers itself. -/
theorem IsCandidate.owner_of_offers (hk : table.IsCandidate M includeStatic className k)
    {header : ClassHeader} (hheader : table[className]? = some header) {m : MethodHeader}
    (hm : Offers M includeStatic header m) : k.owner.name = className := by
  cases hk with
  | own hheader' _ => exact hnamed _ _ hheader'
  | inherited hheader' hnone _ _ =>
    obtain rfl := Option.some.inj (hheader.symm.trans hheader')
    exact absurd hm (hnone m)
  | interface hheader' hnone _ _ =>
    obtain rfl := Option.some.inj (hheader.symm.trans hheader')
    exact absurd hm (hnone m)

end Named

section WellKinded

variable (h : table.WellKinded)
include h

/-- An interface has no superclass, so candidates of an interface are declared by interfaces. -/
theorem IsCandidate.owner_isInterface (hk : table.IsCandidate M includeStatic className k)
    (hinterface : ∀ header, table[className]? = some header → header.isInterface = true) :
    k.owner.isInterface = true := by
  induction hk with
  | own hheader _ => exact hinterface _ hheader
  | inherited hheader _ hsuper _ _ =>
    simp [ClassHeader.superclass?, hinterface _ hheader] at hsuper
  | interface hheader _ hmem _ ih => exact ih fun _ => h.implemented _ _ _ ⟨_, hheader, hmem⟩

/-- The class at the end of a chain is the one asked, or it is not an interface. -/
theorem WellKinded.declaring_isClass {nearer : List ClassHeader} {declaring : ClassHeader}
    (hchain : (Hierarchy.freeze table).SuperclassChain className nearer declaring)
    (hclass : ∀ header, table[className]? = some header → header.isInterface = false) :
    declaring.isInterface = false := by
  induction hchain with
  | self hheader => exact hclass _ hheader
  | above hheader hsuper _ ih => exact ih fun _ => h.extended _ _ _ ⟨_, hheader, hsuper⟩

omit h in
theorem declaring_known {nearer : List ClassHeader} {declaring : ClassHeader}
    (hchain : (Hierarchy.freeze table).SuperclassChain className nearer declaring) :
    ∃ owner : String, table[owner]? = some declaring := by
  induction hchain with
  | self hheader => exact ⟨_, hheader⟩
  | above _ _ _ ih => exact ih

/-- If a candidate is declared on the chain of superclasses, no class in front of it has a match. -/
theorem IsCandidate.nearest
    (hnamed : ∀ (name : String) (header : ClassHeader), table[name]? = some header → header.name = name)
    (hk : table.IsCandidate M true className k) {nearer : List ClassHeader} {declaring : ClassHeader}
    (hchain : (Hierarchy.freeze table).SuperclassChain className nearer declaring)
    (howner : declaring.name = k.owner.name) (hfirst : ∀ header ∈ nearer, header.name ≠ k.owner.name) :
    ∀ header ∈ nearer, ∀ m, ¬ Offers M true header m := by
  induction hchain with
  | self _ => simp
  | above hheader hsuper hrest ih =>
    obtain ⟨hfirst, hothers⟩ := List.forall_mem_cons.mp hfirst
    cases hk with
    | own hheader' hm =>
      obtain rfl := Option.some.inj (hheader.symm.trans hheader')
      exact absurd rfl hfirst
    | inherited hheader' hnone hsuper' hk =>
      obtain rfl := Option.some.inj (hheader.symm.trans hheader')
      obtain rfl := Option.some.inj (hsuper.symm.trans hsuper')
      exact List.forall_mem_cons.mpr ⟨hnone, ih hk howner hothers⟩
    | interface hheader' _ hmem hk =>
      -- The owner would be an interface, but it is a superclass.
      obtain ⟨owner, hdeclaring⟩ := declaring_known hrest
      have hclass := h.declaring_isClass hrest fun _ => h.extended _ _ _ ⟨_, hheader, hsuper⟩
      have hinterface := hk.owner_isInterface h fun _ => h.implemented _ _ _ ⟨_, hheader', hmem⟩
      rw [hnamed owner _ hdeclaring] at howner
      rw [howner, hk.known hnamed] at hdeclaring
      rw [Option.some.inj hdeclaring, hclass] at hinterface
      exact absurd hinterface Bool.false_ne_true

end WellKinded

end Candidates

/-! ## The answer -/

theorem paramsMatch_forall₂ {h : Hierarchy} {declared requested : List String}
    (hlength : declared.length = requested.length) (hmatch : h.paramsMatch declared requested = some true) :
    List.Forall₂ (fun declared requested => h.isAssignable requested declared = some true)
      declared requested := by
  induction declared generalizing requested with
  | nil =>
    obtain rfl := List.eq_nil_of_length_eq_zero hlength.symm
    exact .nil
  | cons d ds ih =>
    cases requested with
    | nil => simp at hlength
    | cons r rs =>
      obtain ⟨assignable, hassignable, hmatch⟩ := Option.bind_eq_some_iff.mp hmatch
      cases assignable with
      | false => simp at hmatch
      | true => exact .cons hassignable (ih (Nat.succ.inj hlength) hmatch)

/-- Whatever the headers are, as long as classes and interfaces keep apart, a method that is found is a
member of the class. -/
theorem resolve_found {headers : List ClassHeader} (h : (ofHeaders headers).WellKinded)
    {className : String} {found : ResolvedMethod}
    (hfound : (Hierarchy.freeze (ofHeaders headers)).resolve className name params = some found) :
    (ofHeaders headers).Found className name params found := by
  have hnamed : ∀ (name : String) (header : ClassHeader),
      (ofHeaders headers)[name]? = some header → header.name = name := fun _ _ hheader =>
    (of_getElem?_ofHeaders hheader).2
  obtain ⟨cs, hcs, hfound⟩ := Option.bind_eq_some_iff.mp hfound
  obtain ⟨best, hbest, rfl, _⟩ := Hierarchy.mostSpecific_eq_some hfound
  have hk := publicCandidates_sound hcs best hbest
  obtain ⟨_, hmethod, htaken⟩ := hk.declared
  obtain ⟨hname, hspecial, parsed, hparsed, hlength, hmatch⟩ := Hierarchy.isMatch_eq_true htaken
  exact
    { declared := ⟨best.owner, hk.known hnamed, rfl, best.method, hmethod, rfl, rfl, rfl⟩
      reached := hk.reached hnamed
      isPublic := hk.isPublic
      name_eq := hname
      ordinary := Bool.eq_false_iff.mpr fun hstart => hspecial (hname ▸ hstart)
      takes := ⟨parsed, hparsed, paramsMatch_forall₂ hlength hmatch⟩
      inherited := hk.extends_of_static hnamed
      own := fun header m hheader hm hpublic htaken =>
        hk.owner_of_offers hnamed hheader ⟨hm, hpublic, .inl rfl, htaken⟩
      nearest := fun nearer declaring hchain howner hfirst header hmem =>
        not_offers_iff.mp (hk.nearest h hnamed hchain howner hfirst header hmem) }

/-- The headers tell which types are interfaces. -/
theorem wellKinded_ofHeaders {headers : List ClassHeader}
    (himplemented : ∀ header ∈ headers, ∀ above ∈ header.interfaces, AreInterfaces headers above true)
    (hextended : ∀ header ∈ headers, ∀ above ∈ header.superclass?.toList, AreInterfaces headers above false) :
    (ofHeaders headers).WellKinded where
  implemented _ above header hlink hheader := by
    obtain ⟨below, hmem, _, habove⟩ := implements_ofHeaders hlink
    obtain ⟨hmem', hname⟩ := of_getElem?_ofHeaders hheader
    exact himplemented below hmem above habove header hmem' hname
  extended _ above header hlink hheader := by
    obtain ⟨below, hmem, _, habove⟩ := extends_ofHeaders hlink
    obtain ⟨hmem', hname⟩ := of_getElem?_ofHeaders hheader
    exact hextended below hmem above habove header hmem' hname

/-! ## A ring of superclasses -/

def ringMethod : MethodHeader := ⟨"f", "(Ljava/lang/Object;)V", 0x0009, []⟩

/-- A class without methods, between a superclass and an interface that both have one. -/
def ringLower : ClassHeader := ⟨"a/Lower", some "a/Upper", ["a/Face"], 0x0021, []⟩

/-- A class that extends its own subclass and implements an unknown type. -/
def ringUpper : ClassHeader := ⟨"a/Upper", some "a/Lower", ["a/Unknown"], 0x0021, [ringMethod]⟩

def ringFace : ClassHeader := ⟨"a/Face", some objectClass, [], 0x0601, [ringMethod]⟩

def ring : ClassTable := ofHeaders [ringLower, ringUpper, ringFace]

theorem ring_headers :
    ring["a/Lower"]? = some ringLower ∧ ring["a/Upper"]? = some ringUpper ∧
      ring["a/Face"]? = some ringFace := by
  simp only [ring, getElem?_ofHeaders]
  decide

theorem ring_wellKinded : ring.WellKinded := wellKinded_ofHeaders (by decide) (by decide)

theorem ringMethod_isMatch :
    (Hierarchy.freeze ring).isMatch "f" ["Ljava/lang/Object;"] ringMethod = some true := by
  have hparsed : MethodDescriptor.parse ringMethod.descriptor = .ok ⟨["Ljava/lang/Object;"], "V"⟩ := by rfl
  exact Hierarchy.isMatch_exact rfl (by simp) hparsed rfl

/-- The static method of the superclass is found, that of the interface is not. -/
theorem ring_resolve : (Hierarchy.freeze ring).resolve "a/Lower" "f" ["Ljava/lang/Object;"] =
    some (Candidate.resolved ⟨ringUpper, ringMethod⟩) := by
  obtain ⟨hlower, hupper, hface⟩ := ring_headers
  have hupperFound : (Hierarchy.freeze ring).publicCandidates "f" ["Ljava/lang/Object;"] 256 true "a/Upper" =
      some [⟨ringUpper, ringMethod⟩] := by
    refine Hierarchy.publicCandidates_of_matching (h := Hierarchy.freeze ring) hupper ?_ (List.cons_ne_nil _ _) 255
    have hvisible : Hierarchy.visible true ringUpper = [ringMethod] := by decide
    rw [hvisible]
    simp [Hierarchy.matching, ringMethod_isMatch]
  have hfaceFound : (Hierarchy.freeze ring).publicCandidates "f" ["Ljava/lang/Object;"] 256 false "a/Face" =
      some [] := by
    rw [publicCandidates_of_no_match (H := Hierarchy.freeze ring) hface rfl]
    rfl
  refine Hierarchy.resolve_of_single ?_
  rw [lookupDepth, publicCandidates_of_no_match (H := Hierarchy.freeze ring) hlower rfl]
  simp only [ringLower, ClassHeader.superclass?, ClassHeader.isInterface]
  show ((Hierarchy.freeze ring).publicCandidates "f" ["Ljava/lang/Object;"] 256 true "a/Upper" >>= _) = _
  rw [hupperFound]
  simp [Hierarchy.mergeInterfaces, hfaceFound, Hierarchy.addCandidates]

theorem resolve_found_in_ring :
    ring.Found "a/Lower" "f" ["Ljava/lang/Object;"] (Candidate.resolved ⟨ringUpper, ringMethod⟩) :=
  resolve_found ring_wellKinded ring_resolve

end ClassTable

end DirectCall
