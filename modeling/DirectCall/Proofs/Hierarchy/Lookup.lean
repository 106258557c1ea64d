import DirectCall.Hierarchy.Resolve
import DirectCall.Proofs.Descriptor.Grammar

/-!
# Looking up a method

A look-up walks up the superclasses and stops at the first class with a match; below it, the
interfaces of the nearer classes are merged in. Merging never loses a signature, so a method that
takes exactly the requested parameters at that class settles the parameters of the answer
(`resolve_exact`). A nearer class with a match of more specific parameters hides it.
-/

namespace DirectCall

namespace Candidate

theorem signature_of_mem {c : Candidate} (h : ')' ∈ c.method.descriptor.toList) :
    ClassName.beforeLast? ')' c.method.descriptor.toList = some c.params := by
  have hbefore : ClassName.beforeLast? ')' c.method.descriptor.toList ≠ none := by
    intro hnone
    unfold ClassName.beforeLast? at hnone
    split at hnone
    · rename_i hdrop
      rw [List.dropWhile_eq_nil_iff] at hdrop
      simpa using hdrop ')' (List.mem_reverse.mpr h)
    · simp at hnone
  obtain ⟨before, hbefore⟩ := Option.ne_none_iff_exists'.mp hbefore
  simp only [params, signature, hbefore, ClassName.afterLast?, if_pos h]

/-- Candidates with one signature take the same parameters. -/
theorem params_eq_of_signature {c c' : Candidate} (heq : c.params = c'.params)
    {parsed parsed' : MethodDescriptor} (h : MethodDescriptor.parse c.method.descriptor = .ok parsed)
    (h' : MethodDescriptor.parse c'.method.descriptor = .ok parsed') :
    parsed.params = parsed'.params := by
  have hmem : ∀ {d : String} {p : MethodDescriptor}, MethodDescriptor.parse d = .ok p →
      ')' ∈ d.toList := by
    intro d p hp
    obtain ⟨ts, ret, _, _, htext, _⟩ := MethodDescriptor.parse_sound hp
    simp [htext]
  exact MethodDescriptor.params_eq_of_beforeLast? h h' (signature_of_mem (hmem h))
    (heq ▸ signature_of_mem (hmem h'))

end Candidate

namespace Hierarchy

variable {h : Hierarchy} {name : String} {params : List String}

/-! ## Matches -/

theorem isAssignable_self (h : Hierarchy) (d : String) : h.isAssignable d d = some true := by
  simp [isAssignable, assignableBy]

theorem paramsMatch_self (h : Hierarchy) (params : List String) :
    h.paramsMatch params params = some true := by
  induction params with
  | nil => rfl
  | cons d ds ih => simp [paramsMatch, isAssignable_self, ih]

/-- A method whose parameters are those requested, or subtypes of them. -/
def Takes (h : Hierarchy) (declared requested : List String) : Prop :=
  declared.length = requested.length ∧ h.paramsMatch declared requested = some true

theorem isMatch_eq_true {m : MethodHeader} (hm : h.isMatch name params m = some true) :
    m.name = name ∧ ¬ name.startsWith "<" = true ∧
      ∃ parsed, MethodDescriptor.parse m.descriptor = .ok parsed ∧ h.Takes parsed.params params := by
  unfold isMatch at hm
  split_ifs at hm with hname
  · simp at hm
  · simp only [Bool.or_eq_true, decide_eq_true_eq, not_or, not_not] at hname
    split at hm
    · simp at hm
    · rename_i parsed hparsed
      split_ifs at hm with hlength
      · simp at hm
      · exact ⟨hname.1, hname.2, parsed, hparsed, not_not.mp hlength, hm⟩

theorem isMatch_exact {m : MethodHeader} (hname : m.name = name)
    (hspecial : ¬ name.startsWith "<" = true) {parsed : MethodDescriptor}
    (hparsed : MethodDescriptor.parse m.descriptor = .ok parsed) (hexact : parsed.params = params) :
    h.isMatch name params m = some true := by
  simp [isMatch, hname, hspecial, hparsed, hexact, paramsMatch_self]

theorem matching_cons {owner : ClassHeader} {m : MethodHeader} {rest : List MethodHeader}
    {cs : List Candidate} (hcs : h.matching name params owner (m :: rest) = some cs) :
    ∃ found others, h.isMatch name params m = some found ∧
      h.matching name params owner rest = some others ∧
        cs = if found then ⟨owner, m⟩ :: others else others := by
  obtain ⟨found, hfound, hcs⟩ := Option.bind_eq_some_iff.mp hcs
  obtain ⟨others, hothers, hcs⟩ := Option.bind_eq_some_iff.mp hcs
  exact ⟨found, others, hfound, hothers, (Option.some.inj hcs).symm⟩

theorem mem_matching {owner : ClassHeader} {ms : List MethodHeader} {cs : List Candidate}
    (hcs : h.matching name params owner ms = some cs) {c : Candidate} :
    c ∈ cs ↔ c.owner = owner ∧ c.method ∈ ms ∧ h.isMatch name params c.method = some true := by
  induction ms generalizing cs with
  | nil =>
    obtain rfl := Option.some.inj hcs
    simp
  | cons m rest ih =>
    obtain ⟨found, others, hfound, hothers, rfl⟩ := matching_cons hcs
    have hrest := ih hothers
    cases found with
    | true =>
      simp only [if_true, List.mem_cons, hrest]
      constructor
      · rintro (rfl | ⟨howner, hmem, hmatch⟩)
        · exact ⟨rfl, .inl rfl, hfound⟩
        · exact ⟨howner, .inr hmem, hmatch⟩
      · rintro ⟨rfl, rfl | hmem, hmatch⟩
        · exact .inl rfl
        · exact .inr ⟨rfl, hmem, hmatch⟩
    | false =>
      simp only [Bool.false_eq_true, if_false, List.mem_cons, hrest]
      constructor
      · rintro ⟨howner, hmem, hmatch⟩
        exact ⟨howner, .inr hmem, hmatch⟩
      · rintro ⟨howner, rfl | hmem, hmatch⟩
        · simp [hfound] at hmatch
        · exact ⟨howner, hmem, hmatch⟩

/-! ## Merging -/

/-- A candidate is met by an overriding one, displaces one, or passes it by. -/
theorem addCandidate_cons {candidate current : Candidate} {rest out : List Candidate}
    (hout : h.addCandidate candidate (current :: rest) = some out) :
    (current.signature = candidate.signature ∧
        (out = current :: rest ∨ h.addCandidate candidate rest = some out)) ∨
      ∃ others, h.addCandidate candidate rest = some others ∧ out = current :: others := by
  have hpass : (h.addCandidate candidate rest).map (current :: ·) = some out →
      ∃ others, h.addCandidate candidate rest = some others ∧ out = current :: others := by
    intro hmap
    obtain ⟨others, hothers, heq⟩ := Option.map_eq_some_iff.mp hmap
    exact ⟨others, hothers, heq.symm⟩
  unfold addCandidate at hout
  by_cases hsignature : current.signature = candidate.signature
  · rw [if_neg (not_not.mpr hsignature)] at hout
    split at hout
    · exact .inl ⟨hsignature, .inl (Option.some.inj hout).symm⟩
    · exact .inl ⟨hsignature, .inr hout⟩
    · obtain ⟨below, _, hout⟩ := Option.bind_eq_some_iff.mp hout
      cases below with
      | true => exact .inl ⟨hsignature, .inl (Option.some.inj hout).symm⟩
      | false =>
        obtain ⟨above, _, hout⟩ := Option.bind_eq_some_iff.mp hout
        cases above with
        | true => exact .inl ⟨hsignature, .inr hout⟩
        | false => exact .inr (hpass hout)
  · rw [if_pos hsignature] at hout
    exact .inr (hpass hout)

theorem addCandidate_mem {candidate : Candidate} {existing out : List Candidate}
    (hout : h.addCandidate candidate existing = some out) {c : Candidate} (hc : c ∈ out) :
    c = candidate ∨ c ∈ existing := by
  induction existing generalizing out with
  | nil =>
    obtain rfl := Option.some.inj hout
    exact .inl (List.mem_singleton.mp hc)
  | cons current rest ih =>
    rcases addCandidate_cons hout with ⟨_, rfl | hrest⟩ | ⟨others, hothers, rfl⟩
    · exact .inr hc
    · exact (ih hrest hc).imp_right (List.mem_cons_of_mem _)
    · rcases List.mem_cons.mp hc with rfl | hc
      · exact .inr List.mem_cons_self
      · exact (ih hothers hc).imp_right (List.mem_cons_of_mem _)

theorem addCandidate_signature {candidate : Candidate} {existing out : List Candidate}
    (hout : h.addCandidate candidate existing = some out) :
    ∃ c ∈ out, c.signature = candidate.signature := by
  induction existing generalizing out with
  | nil =>
    obtain rfl := Option.some.inj hout
    exact ⟨candidate, by simp, rfl⟩
  | cons current rest ih =>
    rcases addCandidate_cons hout with ⟨hsignature, rfl | hrest⟩ | ⟨others, hothers, rfl⟩
    · exact ⟨current, by simp, hsignature⟩
    · exact ih hrest
    · obtain ⟨c, hc, heq⟩ := ih hothers
      exact ⟨c, List.mem_cons_of_mem _ hc, heq⟩

/-- Merging loses no signature. -/
theorem addCandidate_keeps {candidate : Candidate} {existing out : List Candidate}
    (hout : h.addCandidate candidate existing = some out) {c : Candidate} (hc : c ∈ existing) :
    ∃ c' ∈ out, c'.signature = c.signature := by
  induction existing generalizing out with
  | nil => simp at hc
  | cons current rest ih =>
    rcases addCandidate_cons hout with ⟨hsignature, rfl | hrest⟩ | ⟨others, hothers, rfl⟩
    · exact ⟨c, hc, rfl⟩
    · rcases List.mem_cons.mp hc with rfl | hc
      · rw [hsignature]
        exact addCandidate_signature hrest
      · exact ih hrest hc
    · rcases List.mem_cons.mp hc with rfl | hc
      · exact ⟨c, List.mem_cons_self, rfl⟩
      · obtain ⟨c', hc', heq⟩ := ih hothers hc
        exact ⟨c', List.mem_cons_of_mem _ hc', heq⟩

/-- All candidates match. -/
def AllMatch (h : Hierarchy) (name : String) (params : List String) (cs : List Candidate) : Prop :=
  ∀ c ∈ cs, h.isMatch name params c.method = some true

/-- Some candidate has the signature. -/
def HasSignature (signature : List Char × List Char) (cs : List Candidate) : Prop :=
  ∃ c ∈ cs, c.signature = signature

/-- Merging brings no candidates in. -/
theorem addCandidates_forall {P : Candidate → Prop} {existing added out : List Candidate}
    (hout : h.addCandidates existing added = some out) (hexisting : ∀ c ∈ existing, P c)
    (hadded : ∀ c ∈ added, P c) : ∀ c ∈ out, P c := by
  induction added generalizing existing with
  | nil =>
    obtain rfl := Option.some.inj hout
    exact hexisting
  | cons candidate rest ih =>
    obtain ⟨next, hnext, hout⟩ := Option.bind_eq_some_iff.mp hout
    refine ih hout (fun c hc => ?_) fun c hc => hadded c (List.mem_cons_of_mem _ hc)
    rcases addCandidate_mem hnext hc with rfl | hc
    · exact hadded c List.mem_cons_self
    · exact hexisting c hc

theorem addCandidates_hasSignature {existing added out : List Candidate}
    (hout : h.addCandidates existing added = some out) {signature : List Char × List Char}
    (hexisting : HasSignature signature existing) : HasSignature signature out := by
  induction added generalizing existing with
  | nil =>
    obtain rfl := Option.some.inj hout
    exact hexisting
  | cons candidate rest ih =>
    obtain ⟨next, hnext, hout⟩ := Option.bind_eq_some_iff.mp hout
    obtain ⟨c, hc, rfl⟩ := hexisting
    exact ih hout (addCandidate_keeps hnext hc)

/-! ## The walk -/

/-- The methods of a type that a look-up sees. -/
def visible (includeStatic : Bool) (header : ClassHeader) : List MethodHeader :=
  header.methods.filter fun m => m.isPublic && (includeStatic || !m.isStatic)

/-- Candidates of the interfaces, merged into those of the superclass. -/
def mergeInterfaces (h : Hierarchy) (name : String) (params : List String) (depth : Nat)
    (inherited : List Candidate) (interfaces : List String) : Option (List Candidate) :=
  interfaces.foldlM (fun existing interface => do
    h.addCandidates existing (← h.publicCandidates name params depth false interface)) inherited

/-- A type with matches answers itself; any other asks its superclass, then its interfaces. -/
theorem publicCandidates_succ {depth : Nat} {includeStatic : Bool} {className : String}
    {cs : List Candidate}
    (hcs : h.publicCandidates name params (depth + 1) includeStatic className = some cs) :
    ∃ header found, h.class? className = some header ∧
      h.matching name params header (visible includeStatic header) = some found ∧
      (found ≠ [] ∧ cs = found ∨ found = [] ∧ ∃ inherited,
        (∀ above, header.superclass? = some above →
          h.publicCandidates name params depth includeStatic above = some inherited) ∧
        (header.superclass? = none → inherited = []) ∧
        h.mergeInterfaces name params depth inherited header.interfaces = some cs) := by
  obtain ⟨header, hheader, hcs⟩ := Option.bind_eq_some_iff.mp hcs
  obtain ⟨found, hfound, hcs⟩ := Option.bind_eq_some_iff.mp hcs
  refine ⟨header, found, hheader, hfound, ?_⟩
  by_cases hempty : found = []
  · rw [if_neg (not_not.mpr hempty)] at hcs
    cases hsuper : header.superclass? with
    | none =>
      simp only [hsuper] at hcs
      exact .inr ⟨hempty, [], by simp, by simp, hcs⟩
    | some above =>
      simp only [hsuper] at hcs
      obtain ⟨inherited, hinherited, hcs⟩ := Option.bind_eq_some_iff.mp hcs
      refine .inr ⟨hempty, inherited, ?_, by simp, hcs⟩
      rintro _ ⟨rfl⟩
      exact hinherited
  · rw [if_pos hempty] at hcs
    exact .inl ⟨hempty, (Option.some.inj hcs).symm⟩

theorem publicCandidates_of_matching {includeStatic : Bool} {className : String}
    {header : ClassHeader} {found : List Candidate} (hclass : h.class? className = some header)
    (hfound : h.matching name params header (visible includeStatic header) = some found)
    (hsome : found ≠ []) (depth : Nat) :
    h.publicCandidates name params (depth + 1) includeStatic className = some found := by
  rw [visible] at hfound
  simp only [publicCandidates, hclass, hfound, bind, Option.bind, if_pos hsome, pure]

theorem publicCandidates_of_superclass {includeStatic : Bool} {className above : String}
    {header : ClassHeader} (hclass : h.class? className = some header)
    (hfound : h.matching name params header (visible includeStatic header) = some [])
    (hsuper : header.superclass? = some above) (hinterfaces : header.interfaces = []) (depth : Nat) :
    h.publicCandidates name params (depth + 1) includeStatic className =
      h.publicCandidates name params depth includeStatic above := by
  rw [visible] at hfound
  simp only [publicCandidates, hclass, hfound, hsuper, hinterfaces, bind, Option.bind, ne_eq,
    not_true_eq_false, if_false, List.foldlM_nil, pure]
  cases h.publicCandidates name params depth includeStatic above <;> rfl

theorem mergeInterfaces_cons {depth : Nat} {inherited cs : List Candidate} {interface : String}
    {rest : List String}
    (hcs : h.mergeInterfaces name params depth inherited (interface :: rest) = some cs) :
    ∃ added merged, h.publicCandidates name params depth false interface = some added ∧
      h.addCandidates inherited added = some merged ∧
      h.mergeInterfaces name params depth merged rest = some cs := by
  rw [mergeInterfaces, List.foldlM_cons] at hcs
  obtain ⟨merged, hmerged, hcs⟩ := Option.bind_eq_some_iff.mp hcs
  obtain ⟨added, hadded, hmerged⟩ := Option.bind_eq_some_iff.mp hmerged
  exact ⟨added, merged, hadded, hmerged, hcs⟩

theorem mergeInterfaces_hasSignature {depth : Nat} {inherited cs : List Candidate}
    {interfaces : List String}
    (hcs : h.mergeInterfaces name params depth inherited interfaces = some cs)
    {signature : List Char × List Char} (hinherited : HasSignature signature inherited) :
    HasSignature signature cs := by
  induction interfaces generalizing inherited with
  | nil =>
    obtain rfl := Option.some.inj hcs
    exact hinherited
  | cons interface rest ih =>
    obtain ⟨added, merged, _, hmerged, hcs⟩ := mergeInterfaces_cons hcs
    exact ih hcs (addCandidates_hasSignature hmerged hinherited)

/-- What holds of the inherited candidates and of those of each interface holds after the merge. -/
theorem mergeInterfaces_forall {P : Candidate → Prop} {depth : Nat} {interfaces : List String}
    {inherited cs : List Candidate}
    (hcs : h.mergeInterfaces name params depth inherited interfaces = some cs)
    (hinherited : ∀ k ∈ inherited, P k)
    (hinterfaces : ∀ i ∈ interfaces, ∀ added,
      h.publicCandidates name params depth false i = some added → ∀ k ∈ added, P k) :
    ∀ k ∈ cs, P k := by
  induction interfaces generalizing inherited with
  | nil =>
    obtain rfl := Option.some.inj hcs
    exact hinherited
  | cons i rest ih =>
    obtain ⟨hfirst, hrest⟩ := List.forall_mem_cons.mp hinterfaces
    obtain ⟨added, merged, hadded, hmerged, hcs⟩ := mergeInterfaces_cons hcs
    exact ih hcs (addCandidates_forall hmerged hinherited (hfirst added hadded)) hrest

/-- What holds of each public match of a type holds of all candidates. -/
theorem publicCandidates_forall {P : Candidate → Prop}
    (hP : ∀ header includeStatic, ∀ m ∈ visible includeStatic header,
      h.isMatch name params m = some true → P ⟨header, m⟩)
    {depth : Nat} {includeStatic : Bool} {className : String} {cs : List Candidate}
    (hcs : h.publicCandidates name params depth includeStatic className = some cs) : ∀ c ∈ cs, P c := by
  induction depth generalizing includeStatic className cs with
  | zero => simp [publicCandidates] at hcs
  | succ depth ih =>
    obtain ⟨header, found, hheader, hfound, hcases⟩ := publicCandidates_succ hcs
    rcases hcases with ⟨_, rfl⟩ | ⟨_, inherited, habove, hnone, hcs⟩
    · rintro ⟨owner, m⟩ hc
      obtain ⟨rfl, hvisible, hmatch⟩ := (mem_matching hfound).mp hc
      exact hP owner includeStatic m hvisible hmatch
    · refine mergeInterfaces_forall hcs ?_ fun _ _ _ hadded => ih hadded
      cases hsuper : header.superclass? with
      | none =>
        rw [hnone hsuper]
        exact fun c hc => by simp at hc
      | some above => exact ih (habove above hsuper)

theorem publicCandidates_allMatch {depth : Nat} {includeStatic : Bool} {className : String}
    {cs : List Candidate}
    (hcs : h.publicCandidates name params depth includeStatic className = some cs) :
    h.AllMatch name params cs :=
  publicCandidates_forall (fun _ _ _ _ hmatch => hmatch) hcs

/-! ## The most specific candidate -/

theorem bestOf_mem {best chosen : Candidate} {cs : List Candidate}
    (hchosen : h.bestOf best cs = some chosen) : chosen ∈ best :: cs := by
  induction cs generalizing best with
  | nil =>
    obtain rfl := Option.some.inj hchosen
    simp
  | cons c rest ih =>
    unfold bestOf at hchosen
    split_ifs at hchosen
    · obtain ⟨below, _, hchosen⟩ := Option.bind_eq_some_iff.mp hchosen
      cases below with
      | true => exact List.mem_cons_of_mem _ (ih hchosen)
      | false =>
        rcases List.mem_cons.mp (ih hchosen) with rfl | hmem
        · exact List.mem_cons_self
        · simp [hmem]
    · rcases List.mem_cons.mp (ih hchosen) with rfl | hmem
      · exact List.mem_cons_self
      · simp [hmem]

/-- The answer is one of the candidates, and all of them take the same parameters. -/
theorem mostSpecific_eq_some {cs : List Candidate} {found : ResolvedMethod}
    (hfound : h.mostSpecific cs = some found) :
    ∃ best ∈ cs, found = best.resolved ∧ ∀ c ∈ cs, c.params = best.params := by
  cases cs with
  | nil => simp [mostSpecific] at hfound
  | cons first rest =>
    rw [mostSpecific] at hfound
    split_ifs at hfound with hdiffer
    obtain ⟨best, hbest, hfound⟩ := Option.bind_eq_some_iff.mp hfound
    obtain ⟨below, _, hfound⟩ := Option.bind_eq_some_iff.mp hfound
    have hsame : ∀ c ∈ first :: rest, c.params = first.params := by
      intro c hc
      rcases List.mem_cons.mp hc with rfl | hc
      · rfl
      · simp only [List.any_eq_true, decide_eq_true_eq, not_exists, not_and, not_not] at hdiffer
        exact hdiffer c hc
    have hmem := bestOf_mem hbest
    cases below with
    | false => simp at hfound
    | true =>
      exact ⟨best, hmem, (Option.some.inj hfound).symm,
        fun c hc => (hsame c hc).trans (hsame best hmem).symm⟩

theorem mostSpecific_singleton (h : Hierarchy) (c : Candidate) :
    h.mostSpecific [c] = some c.resolved := by
  simp [mostSpecific, bestOf, returnsBelow, isAssignable_self]

/-- A look-up among public methods finds a public one of the name. -/
theorem resolve_public {className : String} {found : ResolvedMethod}
    (hfound : h.resolve className name params = some found) :
    found.isPublic = true ∧ found.name = name := by
  obtain ⟨cs, hcs, hfound⟩ := Option.bind_eq_some_iff.mp hfound
  obtain ⟨best, hbest, rfl, _⟩ := mostSpecific_eq_some hfound
  refine publicCandidates_forall (P := fun c => c.resolved.isPublic = true ∧ c.resolved.name = name)
    (fun header includeStatic m hm hmatch => ?_) hcs best hbest
  have hpublic := (List.mem_filter.mp hm).2
  rw [Bool.and_eq_true] at hpublic
  exact ⟨hpublic.1, (isMatch_eq_true hmatch).1⟩

/-- A look-up among declared methods finds one of the name. -/
theorem resolveDeclared_name {className : String} {found : ResolvedMethod}
    (hfound : h.resolveDeclared className name params = some found) : found.name = name := by
  obtain ⟨header, _, hfound⟩ := Option.bind_eq_some_iff.mp hfound
  obtain ⟨cs, hcs, hfound⟩ := Option.bind_eq_some_iff.mp hfound
  obtain ⟨best, hbest, rfl, _⟩ := mostSpecific_eq_some hfound
  exact (isMatch_eq_true ((mem_matching hcs).mp hbest).2.2).1

theorem resolve_of_single {className : String} {c : Candidate}
    (hcs : h.publicCandidates name params (lookupDepth + 1) true className = some [c]) :
    h.resolve className name params = some c.resolved := by
  exact Option.bind_eq_some_iff.mpr ⟨[c], hcs, mostSpecific_singleton h c⟩

/-! ## Exact parameters -/

/-- `declaring` is the class or a superclass of it; `nearer` are the classes on the way, from the
class itself on. All of them are known. -/
inductive SuperclassChain (h : Hierarchy) : String → List ClassHeader → ClassHeader → Prop
  | self {className : String} {header : ClassHeader} :
    h.class? className = some header → SuperclassChain h className [] header
  | above {className superName : String} {header declaring : ClassHeader}
    {nearer : List ClassHeader} :
    h.class? className = some header → header.superclass? = some superName →
      SuperclassChain h superName nearer declaring →
        SuperclassChain h className (header :: nearer) declaring

/-- No public method of the type takes the requested parameters. -/
def NoMatch (h : Hierarchy) (name : String) (params : List String) (header : ClassHeader) : Prop :=
  ∀ m ∈ header.methods, m.isPublic = true → h.isMatch name params m ≠ some true

theorem mem_visible {header : ClassHeader} {m : MethodHeader} :
    m ∈ visible true header ↔ m ∈ header.methods ∧ m.isPublic = true := by
  simp [visible]

/-- If the nearer classes have no match, a match keeps its signature on the way down. -/
theorem SuperclassChain.hasSignature {className : String} {nearer : List ClassHeader}
    {declaring : ClassHeader} (hchain : h.SuperclassChain className nearer declaring)
    {m : MethodHeader} (hm : m ∈ visible true declaring) (hmatch : h.isMatch name params m = some true)
    (hnearer : ∀ header ∈ nearer, h.NoMatch name params header) {depth : Nat} {cs : List Candidate}
    (hcs : h.publicCandidates name params depth true className = some cs) :
    HasSignature (Candidate.signature ⟨declaring, m⟩) cs := by
  induction hchain generalizing depth cs with
  | self hclass =>
    obtain ⟨depth, rfl⟩ : ∃ n, depth = n + 1 := by
      cases depth with
      | zero => simp [publicCandidates] at hcs
      | succ n => exact ⟨n, rfl⟩
    obtain ⟨header, found, hheader, hfound, hcases⟩ := publicCandidates_succ hcs
    obtain rfl := Option.some.inj (hclass.symm.trans hheader)
    have hmem := (mem_matching hfound (c := ⟨_, m⟩)).mpr ⟨rfl, hm, hmatch⟩
    rcases hcases with ⟨_, rfl⟩ | ⟨hempty, _⟩
    · exact ⟨_, hmem, rfl⟩
    · simp [hempty] at hmem
  | above hclass hsuper _ ih =>
    obtain ⟨depth, rfl⟩ : ∃ n, depth = n + 1 := by
      cases depth with
      | zero => simp [publicCandidates] at hcs
      | succ n => exact ⟨n, rfl⟩
    obtain ⟨header, found, hheader, hfound, hcases⟩ := publicCandidates_succ hcs
    obtain rfl := Option.some.inj (hclass.symm.trans hheader)
    rcases hcases with ⟨hsome, rfl⟩ | ⟨_, inherited, habove, _, hcs⟩
    · obtain ⟨c, hc⟩ := List.exists_mem_of_ne_nil cs hsome
      obtain ⟨_, hvisible, hmatched⟩ := (mem_matching hfound).mp hc
      obtain ⟨hmethod, hpublic⟩ := mem_visible.mp hvisible
      exact absurd hmatched (hnearer _ List.mem_cons_self c.method hmethod hpublic)
    · exact mergeInterfaces_hasSignature hcs (ih hm
        (fun header hmem => hnearer header (List.mem_cons_of_mem _ hmem)) (habove _ hsuper))

/-- A method that is looked up takes the requested parameters. If a class takes exactly these and no
class nearer to the one asked takes them at all, the method takes exactly these. -/
theorem resolve_exact {className : String} {nearer : List ClassHeader} {declaring : ClassHeader}
    (hchain : h.SuperclassChain className nearer declaring) {m : MethodHeader}
    (hm : m ∈ declaring.methods) (hpublic : m.isPublic = true) (hname : m.name = name)
    {parsed : MethodDescriptor} (hparsed : MethodDescriptor.parse m.descriptor = .ok parsed)
    (hexact : parsed.params = params) {found : ResolvedMethod}
    (hfound : h.resolve className name params = some found) :
    ∃ taken, MethodDescriptor.parse found.descriptor = .ok taken ∧ h.Takes taken.params params ∧
      ((∀ header ∈ nearer, h.NoMatch name params header) → taken.params = params) := by
  obtain ⟨cs, hcs, hfound⟩ := Option.bind_eq_some_iff.mp hfound
  obtain ⟨best, hbest, rfl, hsame⟩ := mostSpecific_eq_some hfound
  obtain ⟨_, hspecial, taken, htaken, htakes⟩ :=
    isMatch_eq_true (publicCandidates_allMatch hcs best hbest)
  refine ⟨taken, htaken, htakes, fun hnearer => ?_⟩
  have hmatch := isMatch_exact hname hspecial hparsed hexact (h := h)
  obtain ⟨c, hc, hsignature⟩ :=
    hchain.hasSignature (mem_visible.mpr ⟨hm, hpublic⟩) hmatch hnearer hcs
  have hparams : Candidate.params ⟨declaring, m⟩ = best.params := by
    rw [← hsame c hc, Candidate.params, Candidate.params, hsignature]
  rw [← Candidate.params_eq_of_signature hparams hparsed htaken, hexact]

/-! ## Two overloads on two levels -/

def objectMethod : MethodHeader := ⟨"f", "(Ljava/lang/Object;)V", 0x0001, []⟩

def stringMethod : MethodHeader := ⟨"f", "(Ljava/lang/String;)V", 0x0001, []⟩

def baseClass : ClassHeader := ⟨"a/Base", some objectClass, [], 0x0021, [objectMethod]⟩

/-- A subclass with a method of more specific parameters. -/
def overloadingClass : ClassHeader := ⟨"a/Overloading", some "a/Base", [], 0x0021, [stringMethod]⟩

/-- A subclass without methods. -/
def plainClass : ClassHeader := ⟨"a/Plain", some "a/Base", [], 0x0021, []⟩

def overloads : Hierarchy :=
  freeze ((((∅ : ClassTable).insert "a/Base" baseClass).insert "a/Overloading"
    overloadingClass).insert "a/Plain" plainClass)

theorem overloads_class? :
    overloads.class? "a/Base" = some baseClass ∧
      overloads.class? "a/Overloading" = some overloadingClass ∧
      overloads.class? "a/Plain" = some plainClass := by
  simp [overloads, class?, freeze, Std.HashMap.getElem_insert]

theorem isSubtype_object (h : Hierarchy) (source : String) :
    h.isSubtype objectClass source = some true := by
  simp [isSubtype, subtypeWithin]

theorem stringMethod_isMatch (h : Hierarchy) :
    h.isMatch "f" ["Ljava/lang/Object;"] stringMethod = some true := by
  have hname : stringMethod.name = "f" := rfl
  have hparse : MethodDescriptor.parse stringMethod.descriptor = .ok ⟨["Ljava/lang/String;"], "V"⟩ := by
    rfl
  have hassignable : h.isAssignable "Ljava/lang/Object;" "Ljava/lang/String;" = some true := by
    have hobject : Descriptor.className? "Ljava/lang/Object;" = some objectClass := by decide
    have hstring : Descriptor.className? "Ljava/lang/String;" = some "java/lang/String" := by decide
    have hprimitive : (Descriptor.isPrimitive "Ljava/lang/Object;" ||
        Descriptor.isPrimitive "Ljava/lang/String;") = false := by decide
    simp [isAssignable, assignableBy, hobject, hstring, hprimitive, isSubtype_object]
  simp [isMatch, hname, hparse, paramsMatch, hassignable]

theorem objectMethod_isMatch (h : Hierarchy) :
    h.isMatch "f" ["Ljava/lang/Object;"] objectMethod = some true := by
  have hparse : MethodDescriptor.parse objectMethod.descriptor = .ok ⟨["Ljava/lang/Object;"], "V"⟩ := by
    rfl
  exact isMatch_exact rfl (by simp) hparse rfl

/-- The subclass without methods leaves the answer to its superclass. -/
theorem resolve_exact_plain :
    ∃ found, overloads.resolve "a/Plain" "f" ["Ljava/lang/Object;"] = some found ∧
      ∃ taken, MethodDescriptor.parse found.descriptor = .ok taken ∧
        taken.params = ["Ljava/lang/Object;"] := by
  obtain ⟨hbase, _, hplain⟩ := overloads_class?
  have hnone : overloads.matching "f" ["Ljava/lang/Object;"] plainClass (visible true plainClass) =
      some [] := rfl
  have hfound : overloads.matching "f" ["Ljava/lang/Object;"] baseClass (visible true baseClass) =
      some [⟨baseClass, objectMethod⟩] := by
    have hvisible : visible true baseClass = [objectMethod] := by decide
    rw [hvisible]
    simp [matching, objectMethod_isMatch]
  have hresolve : overloads.resolve "a/Plain" "f" ["Ljava/lang/Object;"] =
      some (Candidate.resolved ⟨baseClass, objectMethod⟩) := by
    refine resolve_of_single ?_
    rw [publicCandidates_of_superclass hplain hnone rfl rfl, lookupDepth]
    exact publicCandidates_of_matching hbase hfound (List.cons_ne_nil _ _) 255
  have hchain : overloads.SuperclassChain "a/Plain" [plainClass] baseClass :=
    .above hplain rfl (.self hbase)
  have hparsed : MethodDescriptor.parse objectMethod.descriptor = .ok ⟨["Ljava/lang/Object;"], "V"⟩ := by
    rfl
  obtain ⟨taken, htaken, _, hexact⟩ :=
    resolve_exact hchain (by decide) (by decide) rfl hparsed rfl hresolve
  refine ⟨_, hresolve, taken, htaken, hexact fun header hmem m hm => ?_⟩
  obtain rfl := List.mem_singleton.mp hmem
  simp [plainClass] at hm

/-- The nearer overload answers for `Object`, although the superclass takes it exactly. -/
theorem overloads_hidden :
    overloads.resolve "a/Overloading" "f" ["Ljava/lang/Object;"] =
      some (Candidate.resolved ⟨overloadingClass, stringMethod⟩) := by
  have hfound : overloads.matching "f" ["Ljava/lang/Object;"] overloadingClass
      (visible true overloadingClass) = some [⟨overloadingClass, stringMethod⟩] := by
    have hvisible : visible true overloadingClass = [stringMethod] := by decide
    rw [hvisible]
    simp [matching, stringMethod_isMatch]
  exact resolve_of_single
    (publicCandidates_of_matching overloads_class?.2.1 hfound (List.cons_ne_nil _ _) lookupDepth)

/-- Not every exact method of a superclass is found. -/
theorem not_forall_resolve_exact :
    ¬ ∀ (h : Hierarchy) (className name : String) (params : List String)
      (nearer : List ClassHeader) (declaring : ClassHeader) (m : MethodHeader)
      (parsed : MethodDescriptor), h.SuperclassChain className nearer declaring →
        m ∈ declaring.methods → m.isPublic = true → m.name = name →
        MethodDescriptor.parse m.descriptor = .ok parsed → parsed.params = params →
          ∀ found, h.resolve className name params = some found →
            ∃ taken, MethodDescriptor.parse found.descriptor = .ok taken ∧ taken.params = params := by
  intro hclaim
  have hchain : overloads.SuperclassChain "a/Overloading" [overloadingClass] baseClass :=
    .above overloads_class?.2.1 (by decide) (.self overloads_class?.1)
  obtain ⟨taken, htaken, hparams⟩ := hclaim overloads "a/Overloading" "f" ["Ljava/lang/Object;"] _ _
    objectMethod ⟨["Ljava/lang/Object;"], "V"⟩ hchain (by decide) (by decide) (by decide) (by rfl)
    (by decide) _ overloads_hidden
  have hparse : MethodDescriptor.parse stringMethod.descriptor = .ok ⟨["Ljava/lang/String;"], "V"⟩ := by
    rfl
  rw [Candidate.resolved, hparse, Except.ok.injEq] at htaken
  subst htaken
  simp at hparams

end Hierarchy

end DirectCall
