import DirectCall.Proofs.Hierarchy.Lookup
import DirectCall.Proofs.Hierarchy.Subtype

/-!
# Candidates of a look-up

Which methods a look-up chooses from (`IsCandidate`), without an order in which they are met, and which of
them override others. A walk merges them one at a time into a list that keeps, of each signature, some
that are not overridden (`Merges`), so the list stands for all candidates (`publicCandidates_merges`).
-/

namespace DirectCall

open Classical

namespace Candidate

/-- The parameters of the method. -/
def Takes (k : Candidate) (params : List String) : Prop :=
  ∃ ret, MethodDescriptor.parse k.method.descriptor = .ok ⟨params, ret⟩

/-- The return type of the method. -/
def Returns (k : Candidate) (ret : String) : Prop :=
  ∃ params, MethodDescriptor.parse k.method.descriptor = .ok ⟨params, ret⟩

theorem Returns.unique {k : Candidate} {ret ret' : String} (h : k.Returns ret) (h' : k.Returns ret') :
    ret = ret' := by
  obtain ⟨_, hparsed⟩ := h
  obtain ⟨_, hparsed'⟩ := h'
  exact (MethodDescriptor.mk.inj (Except.ok.inj (hparsed.symm.trans hparsed'))).2

end Candidate

namespace ClassTable

/-! ## Meaning -/

section Meaning

variable (table : ClassTable) (name : String) (params : List String) (M : MethodHeader → Prop)

/-- The method has the name, takes as many arguments, and each requested type is the declared one or a
supertype of it. -/
def Matches (m : MethodHeader) : Prop :=
  m.name = name ∧ ∃ parsed, MethodDescriptor.parse m.descriptor = .ok parsed ∧
    List.Forall₂ (fun declared requested => table.Assignable requested declared) parsed.params params

/-- The method matches, and its name is not special. -/
def Accepts (m : MethodHeader) : Prop := name.startsWith "<" = false ∧ table.Matches name params m

/-- The type declares the method, and it is a public match; static ones count only if they are included. -/
def Offers (includeStatic : Bool) (header : ClassHeader) (m : MethodHeader) : Prop :=
  m ∈ header.methods ∧ m.isPublic = true ∧ (includeStatic = true ∨ m.isStatic = false) ∧ M m

/-- A candidate is a public match of the type itself or, if there is none, a candidate of its superclass or
of one of its interfaces. Static methods are left out once an interface was entered. -/
inductive IsCandidate : Bool → String → Candidate → Prop where
  | own {includeStatic : Bool} {className : String} {header : ClassHeader} {m : MethodHeader}
      (h : table[className]? = some header) (hm : Offers M includeStatic header m) :
      IsCandidate includeStatic className ⟨header, m⟩
  | inherited {includeStatic : Bool} {className above : String} {header : ClassHeader} {k : Candidate}
      (h : table[className]? = some header) (hnone : ∀ m, ¬ Offers M includeStatic header m)
      (hsuper : header.superclass? = some above) (hk : IsCandidate includeStatic above k) :
      IsCandidate includeStatic className k
  | interface {includeStatic : Bool} {className above : String} {header : ClassHeader} {k : Candidate}
      (h : table[className]? = some header) (hnone : ∀ m, ¬ Offers M includeStatic header m)
      (hmem : above ∈ header.interfaces) (hk : IsCandidate false above k) :
      IsCandidate includeStatic className k

/-- The first method is declared by a class and the second one by an interface, or both by types of one
kind, of which the first one is a proper subtype. They have one name and one descriptor. -/
def Overrides (k k' : Candidate) : Prop :=
  k.method.name = k'.method.name ∧ k.method.descriptor = k'.method.descriptor ∧
    (k.owner.isInterface = false ∧ k'.owner.isInterface = true ∨
      k.owner.isInterface = k'.owner.isInterface ∧ k.owner.name ≠ k'.owner.name ∧
        table.IsBelow k.owner.name k'.owner.name)

end Meaning

variable {table : ClassTable} {name : String} {params : List String}

/-- The candidate is declared by a known type and takes the requested types. -/
structure Proper (table : ClassTable) (name : String) (params : List String) (k : Candidate) : Prop where
  known : table[k.owner.name]? = some k.owner
  declared : k.method ∈ k.owner.methods
  accepts : table.Accepts name params k.method

theorem Proper.name_eq {k : Candidate} (hk : table.Proper name params k) : k.method.name = name :=
  hk.accepts.2.1

/-- A candidate is a method that a known type declares. -/
theorem IsCandidate.declared {M : MethodHeader → Prop} {includeStatic : Bool} {className : String}
    {k : Candidate} (hk : table.IsCandidate M includeStatic className k) :
    (∃ owner : String, table[owner]? = some k.owner) ∧ k.method ∈ k.owner.methods ∧ M k.method := by
  induction hk with
  | own hheader hm => exact ⟨⟨_, hheader⟩, hm.1, hm.2.2.2⟩
  | inherited _ _ _ _ ih => exact ih
  | interface _ _ _ _ ih => exact ih

theorem IsCandidate.proper (h : table.Regular) {includeStatic : Bool} {className : String} {k : Candidate}
    (hk : table.IsCandidate (table.Accepts name params) includeStatic className k) :
    table.Proper name params k := by
  obtain ⟨⟨owner, hknown⟩, hdeclared, haccepts⟩ := hk.declared
  exact ⟨by rw [h.named owner k.owner hknown]; exact hknown, hdeclared, haccepts⟩

/-! ## Signatures -/

/-- Behind its brackets a type text goes on with its element. -/
theorem element?_brackets {element : TypeText} (h : ∀ dimensions inner, element ≠ .array dimensions inner)
    (dimensions : Nat) :
    Descriptor.element? (String.ofList (List.replicate dimensions '[' ++ element.chars)) =
      Descriptor.className? element.text := by
  have hstart : ∀ rest, element.chars ≠ '[' :: rest := by
    intro rest
    have hne := MethodDescriptor.chars_ne_bracket h [] rest
    rwa [List.append_nil] at hne
  rw [Descriptor.element?, String.toList_ofList, (MethodDescriptor.readType_brackets dimensions hstart).2]
  rfl

theorem Regular.closing_of_element (h : table.Regular) {element : TypeText}
    (helement : ∀ dimensions inner, element ≠ .array dimensions inner)
    (hknown : ∀ c, Descriptor.className? element.text = some c → c ∈ table) : ')' ∉ element.chars := by
  cases element with
  | void => simp [TypeText.chars]
  | primitive p => cases p <;> simp [TypeText.chars, Primitive.letter]
  | object name =>
    have hname := h.closing (String.ofList name)
      (hknown _ (by simp [TypeText.text, TypeText.chars, Descriptor.className?]))
    rw [String.toList_ofList] at hname
    simpa [TypeText.chars] using hname
  | array dimensions inner => exact absurd rfl (helement dimensions inner)

/-- A type text over known classes has no closing parenthesis. -/
theorem Regular.closing_of_described (h : table.Regular) {t : TypeText} (hwf : t.WellFormed)
    (hdescribed : table.Described t.text) : ')' ∉ t.chars := by
  by_cases harray : ∃ dimensions element, t = .array dimensions element
  · obtain ⟨dimensions, element, rfl⟩ := harray
    obtain ⟨_, _, _, hinner⟩ := hwf
    have helement : ∀ dimensions inner, element ≠ .array dimensions inner := by
      rintro dimensions inner rfl
      exact hinner
    have hclosing := h.closing_of_element helement fun c hc =>
      hdescribed c ((element?_brackets helement dimensions).trans hc)
    rw [TypeText.chars, List.mem_append, not_or]
    exact ⟨fun hmem => absurd (List.eq_of_mem_replicate hmem) (by decide), hclosing⟩
  · have helement : ∀ dimensions inner, t ≠ .array dimensions inner :=
      fun dimensions inner heq => harray ⟨dimensions, inner, heq⟩
    exact h.closing_of_element helement fun c hc => hdescribed c ((element?_brackets helement 0).trans hc)

/-- The text is cut at the parenthesis behind the parameters. -/
theorem signature_eq {k : Candidate} {parsed : MethodDescriptor}
    (hparsed : MethodDescriptor.parse k.method.descriptor = .ok parsed) (hclosing : ')' ∉ parsed.ret.toList) :
    ∃ ts : List TypeText, parsed.params = ts.map (·.text) ∧
      k.method.descriptor.toList = '(' :: (MethodDescriptor.spelled ts ++ ')' :: parsed.ret.toList) ∧
      k.signature = ('(' :: MethodDescriptor.spelled ts, parsed.ret.toList) := by
  obtain ⟨ts, ret, _, _, htext, rfl⟩ := MethodDescriptor.parse_sound hparsed
  rw [← TypeText.toList_text] at htext
  obtain ⟨hbefore, hafter⟩ := MethodDescriptor.beforeLast?_append ('(' :: MethodDescriptor.spelled ts) hclosing
  rw [List.cons_append, ← htext] at hbefore hafter
  exact ⟨ts, rfl, htext, by simp only [Candidate.signature, hbefore, hafter]⟩

theorem signature_of_parsed {k : Candidate} {parsed : MethodDescriptor}
    (hparsed : MethodDescriptor.parse k.method.descriptor = .ok parsed) (hclosing : ')' ∉ parsed.ret.toList) :
    k.ret = parsed.ret ∧ k.method.descriptor.toList = k.params ++ ')' :: parsed.ret.toList ∧
      ∃ ts : List TypeText, k.params = '(' :: MethodDescriptor.spelled ts ∧
        parsed.params = ts.map (·.text) := by
  obtain ⟨ts, hparams, htext, hsignature⟩ := signature_eq hparsed hclosing
  refine ⟨?_, ?_, ts, ?_, hparams⟩
  · rw [Candidate.ret, hsignature, String.ofList_toList]
  · rw [Candidate.params, hsignature, htext]
    rfl
  · rw [Candidate.params, hsignature]

section Proper

variable (h : table.Regular)
include h

theorem Proper.described {k : Candidate} (hk : table.Proper name params k) {parsed : MethodDescriptor}
    (hparsed : MethodDescriptor.parse k.method.descriptor = .ok parsed) {d : String}
    (hd : d ∈ parsed.ret :: parsed.params) : table.Described d :=
  h.described _ _ hk.known _ hk.declared parsed hparsed d hd

theorem Proper.signature {k : Candidate} (hk : table.Proper name params k) {parsed : MethodDescriptor}
    (hparsed : MethodDescriptor.parse k.method.descriptor = .ok parsed) :
    k.ret = parsed.ret ∧ k.method.descriptor.toList = k.params ++ ')' :: parsed.ret.toList ∧
      ∃ ts : List TypeText, k.params = '(' :: MethodDescriptor.spelled ts ∧
        parsed.params = ts.map (·.text) := by
  refine signature_of_parsed hparsed ?_
  obtain ⟨ts, ret, _, hwf, _, rfl⟩ := MethodDescriptor.parse_sound hparsed
  have hclosing := h.closing_of_described hwf (hk.described h hparsed List.mem_cons_self)
  simpa only [TypeText.toList_text] using hclosing

/-- Candidates have one signature exactly if they have one descriptor. -/
theorem Proper.signature_eq_iff {k k' : Candidate} (hk : table.Proper name params k)
    (hk' : table.Proper name params k') :
    k.signature = k'.signature ↔ k.method.descriptor = k'.method.descriptor := by
  obtain ⟨_, _, parsed, hparsed, _⟩ := hk.accepts
  obtain ⟨_, _, parsed', hparsed', _⟩ := hk'.accepts
  obtain ⟨hret, htext, _⟩ := hk.signature h hparsed
  obtain ⟨hret', htext', _⟩ := hk'.signature h hparsed'
  constructor
  · intro heq
    have hparams : k.params = k'.params := congrArg Prod.fst heq
    have hsame : k.ret = k'.ret := by rw [Candidate.ret, Candidate.ret, heq]
    rw [← String.toList_inj, htext, htext', hparams, ← hret, ← hret', hsame]
  · intro heq
    rw [Candidate.signature, Candidate.signature, heq]

/-- Candidates have one text ahead of the return type exactly if they take the same parameters. -/
theorem Proper.params_eq_iff {k k' : Candidate} (hk : table.Proper name params k)
    (hk' : table.Proper name params k') {parsed parsed' : MethodDescriptor}
    (hparsed : MethodDescriptor.parse k.method.descriptor = .ok parsed)
    (hparsed' : MethodDescriptor.parse k'.method.descriptor = .ok parsed') :
    k.params = k'.params ↔ parsed.params = parsed'.params := by
  obtain ⟨_, _, ts, hparams, hts⟩ := hk.signature h hparsed
  obtain ⟨_, _, ts', hparams', hts'⟩ := hk'.signature h hparsed'
  have hspelled : ∀ ts : List TypeText,
      MethodDescriptor.spelled ts = (ts.map (·.text)).flatMap String.toList := by
    intro ts
    rw [List.flatMap_map]
    exact List.flatMap_congr fun t _ => (String.toList_ofList).symm
  constructor
  · exact fun heq => Candidate.params_eq_of_signature heq hparsed hparsed'
  · intro heq
    rw [hparams, hparams', hspelled, hspelled, ← hts, ← hts', heq]

end Proper

/-! ## Overriding -/

/-- The first candidate stands for the second one: it is of the same type or overrides it. -/
def Covers (table : ClassTable) (k k' : Candidate) : Prop :=
  k.method.descriptor = k'.method.descriptor ∧ (k.owner = k'.owner ∨ table.Overrides k k')

theorem Covers.refl (k : Candidate) : table.Covers k k := ⟨rfl, .inl rfl⟩

/-- Of two candidates of one descriptor the first one stands for the second one if it is declared by a class
and the second one by an interface, or by a subtype of the same kind. -/
theorem covers_iff {a b : Candidate} (ha : table.Proper name params a) (hb : table.Proper name params b)
    (hdescriptor : a.method.descriptor = b.method.descriptor) :
    table.Covers a b ↔ a.owner.isInterface = false ∧ b.owner.isInterface = true ∨
      a.owner.isInterface = b.owner.isInterface ∧ table.IsBelow a.owner.name b.owner.name := by
  have hname : a.method.name = b.method.name := ha.name_eq.trans hb.name_eq.symm
  constructor
  · rintro ⟨_, howner | ⟨_, _, hover⟩⟩
    · rw [howner]
      exact .inr ⟨rfl, .reached .refl⟩
    · exact hover.imp_right fun ⟨hkind, _, hbelow⟩ => ⟨hkind, hbelow⟩
  · rintro (hkinds | ⟨hkind, hbelow⟩)
    · exact ⟨hdescriptor, .inr ⟨hname, hdescriptor, .inl hkinds⟩⟩
    · refine ⟨hdescriptor, ?_⟩
      by_cases hsame : a.owner.name = b.owner.name
      · exact .inl (Option.some.inj (ha.known.symm.trans (hsame ▸ hb.known)))
      · exact .inr ⟨hname, hdescriptor, .inr ⟨hkind, hsame, hbelow⟩⟩

theorem Overrides.covers {a b : Candidate} (h : table.Overrides a b) : table.Covers a b :=
  ⟨h.2.1, .inr h⟩

theorem not_overrides_self {k k' : Candidate} (h : k.owner = k'.owner) : ¬ table.Overrides k k' := by
  rintro ⟨_, _, ⟨hclass, hinterface⟩ | ⟨_, hne, _⟩⟩
  · rw [h, hinterface] at hclass
    cases hclass
  · exact hne (h ▸ rfl)

section Order

variable (h : table.Regular) (harrays : table.NoArrays)
include h harrays

theorem Overrides.trans {a b c : Candidate} (ha : table.Proper name params a)
    (hb : table.Proper name params b) (hc : table.Proper name params c) (hab : table.Overrides a b)
    (hbc : table.Overrides b c) : table.Overrides a c := by
  obtain ⟨hname, hdescriptor, hab⟩ := hab
  obtain ⟨hname', hdescriptor', hbc⟩ := hbc
  refine ⟨hname.trans hname', hdescriptor.trans hdescriptor', ?_⟩
  have hmema := mem_of_getElem? ha.known
  have hmemb := mem_of_getElem? hb.known
  have hmemc := mem_of_getElem? hc.known
  rcases hab with ⟨hclass, hinterface⟩ | ⟨hkind, hne, hbelow⟩
  · rcases hbc with ⟨hclass', _⟩ | ⟨hkind', _, _⟩
    · rw [hinterface] at hclass'
      cases hclass'
    · exact .inl ⟨hclass, hkind' ▸ hinterface⟩
  · rcases hbc with ⟨hclass', hinterface'⟩ | ⟨hkind', _, hbelow'⟩
    · exact .inl ⟨hkind ▸ hclass', hinterface'⟩
    · refine .inr ⟨hkind.trans hkind', fun heq => hne ?_, hbelow.trans h harrays hmema hmemb hbelow'⟩
      rw [← heq] at hbelow'
      exact hbelow.antisymm h harrays hbelow' (.inl hmema) (.inl hmemb)

theorem Covers.trans {a b c : Candidate} (ha : table.Proper name params a)
    (hb : table.Proper name params b) (hc : table.Proper name params c) (hab : table.Covers a b)
    (hbc : table.Covers b c) : table.Covers a c := by
  obtain ⟨hdescriptor, hab⟩ := hab
  obtain ⟨hdescriptor', hbc⟩ := hbc
  have hnames : ∀ {k k' : Candidate}, table.Proper name params k → table.Proper name params k' →
      k.method.name = k'.method.name := fun hk hk' => hk.name_eq.trans hk'.name_eq.symm
  refine ⟨hdescriptor.trans hdescriptor', ?_⟩
  rcases hab with howner | hab
  · rcases hbc with howner' | ⟨_, _, hbc⟩
    · exact .inl (howner.trans howner')
    · exact .inr ⟨hnames ha hc, hdescriptor.trans hdescriptor', howner ▸ hbc⟩
  · rcases hbc with howner' | hbc
    · exact .inr ⟨hnames ha hc, hdescriptor.trans hdescriptor', howner' ▸ hab.2.2⟩
    · exact .inr (hab.trans h harrays ha hb hc hbc)

end Order

/-- What a list of candidates stands for: all in it are some of these, each of these is there or has
another one in its stead, and none in it overrides another one. -/
structure Merges (table : ClassTable) (C : Candidate → Prop) (cs : List Candidate) : Prop where
  sound : ∀ k ∈ cs, C k
  covers : ∀ k, C k → ∃ k' ∈ cs, table.Covers k' k
  apart : ∀ k ∈ cs, ∀ k' ∈ cs, ¬ table.Overrides k k'

theorem Merges.congr {C C' : Candidate → Prop} {cs : List Candidate} (h : table.Merges C cs)
    (hiff : ∀ k, C k ↔ C' k) : table.Merges C' cs where
  sound k hk := (hiff k).mp (h.sound k hk)
  covers k hk := h.covers k ((hiff k).mpr hk)
  apart := h.apart

theorem merges_nil : table.Merges (fun _ => False) [] := ⟨by simp, by simp, by simp⟩

theorem merges_singleton (k : Candidate) : table.Merges (· = k) [k] where
  sound := by simp
  covers := by
    rintro _ rfl
    exact ⟨_, List.mem_singleton_self _, .refl _⟩
  apart := by
    intro a ha b hb
    obtain rfl := List.mem_singleton.mp ha
    obtain rfl := List.mem_singleton.mp hb
    exact not_overrides_self rfl

theorem Merges.tail {current : Candidate} {rest : List Candidate}
    (h : table.Merges (· ∈ current :: rest) (current :: rest)) : table.Merges (· ∈ rest) rest where
  sound _ hk := hk
  covers k hk := ⟨k, hk, .refl k⟩
  apart k hk k' hk' := h.apart k (List.mem_cons_of_mem _ hk) k' (List.mem_cons_of_mem _ hk')

/-- A list in which none overrides another one stands for itself. -/
theorem Merges.self {C : Candidate → Prop} {cs : List Candidate} (h : table.Merges C cs) :
    table.Merges (· ∈ cs) cs where
  sound _ hk := hk
  covers k hk := ⟨k, hk, .refl k⟩
  apart := h.apart

/-! ## Merging -/

/-- A covered candidate adds nothing. -/
theorem Merges.covered {k : Candidate} {cs : List Candidate} (hcs : table.Merges (· ∈ cs) cs)
    (hk : ∃ k' ∈ cs, table.Covers k' k) : table.Merges (fun x => x = k ∨ x ∈ cs) cs where
  sound x hx := .inr hx
  covers := by
    rintro x (rfl | hx)
    · exact hk
    · exact ⟨x, hx, .refl x⟩
  apart := hcs.apart

/-- A candidate that has nothing to do with the new one stays. -/
theorem Merges.passed {k current : Candidate} {rest out : List Candidate}
    (hcs : table.Merges (· ∈ current :: rest) (current :: rest))
    (hout : table.Merges (fun x => x = k ∨ x ∈ rest) out) (hover : ¬ table.Overrides current k)
    (hunder : ¬ table.Overrides k current) :
    table.Merges (fun x => x = k ∨ x ∈ current :: rest) (current :: out) where
  sound x hx := by
    rcases List.mem_cons.mp hx with rfl | hx
    · exact .inr List.mem_cons_self
    · exact (hout.sound x hx).imp_right (List.mem_cons_of_mem _)
  covers := by
    rintro x hx
    have hx' : x = current ∨ x = k ∨ x ∈ rest := by
      rcases hx with hx | hx
      · exact .inr (.inl hx)
      · exact (List.mem_cons.mp hx).imp_right .inr
    rcases hx' with rfl | hx'
    · exact ⟨x, List.mem_cons_self, .refl x⟩
    · obtain ⟨k', hk', hcovers⟩ := hout.covers x hx'
      exact ⟨k', List.mem_cons_of_mem _ hk', hcovers⟩
  apart := by
    intro a ha b hb
    rcases List.mem_cons.mp ha with heq | ha <;> rcases List.mem_cons.mp hb with heq' | hb
    · exact not_overrides_self (by rw [heq, heq'])
    · rw [heq]
      rcases hout.sound b hb with rfl | hmem
      · exact hover
      · exact hcs.apart _ List.mem_cons_self b (List.mem_cons_of_mem _ hmem)
    · rw [heq']
      rcases hout.sound a ha with rfl | hmem
      · exact hunder
      · exact hcs.apart a (List.mem_cons_of_mem _ hmem) _ List.mem_cons_self
    · exact hout.apart a ha b hb

section Merging

variable (h : table.Regular) (harrays : table.NoArrays)
include h harrays

/-- A candidate that the new one covers is not needed. -/
theorem Merges.displaced {k current : Candidate} {rest out : List Candidate}
    (hk : table.Proper name params k) (hproper : ∀ x ∈ current :: rest, table.Proper name params x)
    (hout : table.Merges (fun x => x = k ∨ x ∈ rest) out) (hcurrent : table.Covers k current) :
    table.Merges (fun x => x = k ∨ x ∈ current :: rest) out where
  sound x hx := (hout.sound x hx).imp_right (List.mem_cons_of_mem _)
  covers := by
    rintro x (rfl | hx)
    · exact hout.covers x (.inl rfl)
    · rcases List.mem_cons.mp hx with rfl | hx
      · obtain ⟨k', hk', hcovers⟩ := hout.covers k (.inl rfl)
        have hproper' : table.Proper name params k' := by
          rcases hout.sound k' hk' with rfl | hmem
          · exact hk
          · exact hproper _ (List.mem_cons_of_mem _ hmem)
        exact ⟨k', hk', hcovers.trans h harrays hproper' hk (hproper x List.mem_cons_self) hcurrent⟩
      · exact hout.covers x (.inr hx)
  apart := hout.apart

/-- Where all types are known, a candidate is met by one that covers it, displaces those that it covers,
and passes by the others. -/
theorem addCandidate_cons_eq {k current : Candidate} (rest : List Candidate)
    (hk : table.Proper name params k) (hcurrent : table.Proper name params current) :
    (Hierarchy.freeze table).addCandidate k (current :: rest) =
      if table.Covers current k then some (current :: rest)
      else if table.Covers k current then (Hierarchy.freeze table).addCandidate k rest
      else ((Hierarchy.freeze table).addCandidate k rest).map (current :: ·) := by
  rw [Hierarchy.addCandidate]
  by_cases hdescriptor : current.method.descriptor = k.method.descriptor
  · rw [if_neg (not_not.mpr ((hcurrent.signature_eq_iff h hk).mpr hdescriptor))]
    simp only [covers_iff hcurrent hk hdescriptor, covers_iff hk hcurrent hdescriptor.symm]
    have hkcurrent := isSubtype_eq h harrays k.owner.name (.inl (mem_of_getElem? hcurrent.known))
    have hcurrentk := isSubtype_eq h harrays current.owner.name (.inl (mem_of_getElem? hk.known))
    cases hkind : current.owner.isInterface <;> cases hkind' : k.owner.isInterface
    · simp [hkcurrent, hcurrentk]
    · simp
    · simp
    · simp [hkcurrent, hcurrentk]
  · rw [if_pos fun hsignature => hdescriptor ((hcurrent.signature_eq_iff h hk).mp hsignature),
      if_neg fun hcovers => hdescriptor hcovers.1, if_neg fun hcovers => hdescriptor hcovers.1.symm]

/-- Adding a candidate is never open, and the list stands for one more. -/
theorem addCandidate_merges {k : Candidate} {cs : List Candidate} (hk : table.Proper name params k)
    (hproper : ∀ x ∈ cs, table.Proper name params x) (hcs : table.Merges (· ∈ cs) cs) :
    ∃ out, (Hierarchy.freeze table).addCandidate k cs = some out ∧
      table.Merges (fun x => x = k ∨ x ∈ cs) out := by
  induction cs with
  | nil => exact ⟨[k], rfl, (merges_singleton k).congr fun x => by simp⟩
  | cons current rest ih =>
    obtain ⟨hcurrent, hrest⟩ := List.forall_mem_cons.mp hproper
    obtain ⟨out, hout, hmerges⟩ := ih hrest hcs.tail
    rw [addCandidate_cons_eq h harrays rest hk hcurrent, hout]
    split_ifs with hcovers hcovers'
    · exact ⟨_, rfl, hcs.covered ⟨current, List.mem_cons_self, hcovers⟩⟩
    · exact ⟨out, rfl, hmerges.displaced h harrays hk hproper hcovers'⟩
    · exact ⟨current :: out, rfl, hcs.passed hmerges (fun hover => hcovers hover.covers)
        fun hunder => hcovers' hunder.covers⟩

/-- A list of candidates may be looked at in place of what it stands for. -/
theorem Merges.trans {C D : Candidate → Prop} {cs out : List Candidate}
    (hproper : ∀ x, C x ∨ D x → table.Proper name params x) (hcs : table.Merges C cs)
    (hout : table.Merges (fun x => x ∈ cs ∨ D x) out) : table.Merges (fun x => C x ∨ D x) out where
  sound x hx := (hout.sound x hx).imp_left (hcs.sound x)
  covers := by
    rintro x (hx | hx)
    · obtain ⟨y, hy, hcovers⟩ := hcs.covers x hx
      obtain ⟨z, hz, hcovers'⟩ := hout.covers y (.inl hy)
      have hz' := hproper z ((hout.sound z hz).imp_left (hcs.sound z))
      exact ⟨z, hz, hcovers'.trans h harrays hz' (hproper y (.inl (hcs.sound y hy))) (hproper x (.inl hx))
        hcovers⟩
    · exact hout.covers x (.inr hx)
  apart := hout.apart

theorem addCandidates_merges {C : Candidate → Prop} {existing added : List Candidate}
    (hproper : ∀ x, C x ∨ x ∈ added → table.Proper name params x) (hcs : table.Merges C existing) :
    ∃ out, (Hierarchy.freeze table).addCandidates existing added = some out ∧
      table.Merges (fun x => C x ∨ x ∈ added) out := by
  induction added generalizing C existing with
  | nil => exact ⟨existing, rfl, hcs.congr fun x => by simp⟩
  | cons k rest ih =>
    obtain ⟨next, hnext, hmerges⟩ := addCandidate_merges h harrays (hproper k (.inr List.mem_cons_self))
      (fun x hx => hproper x (.inl (hcs.sound x hx))) hcs.self
    have hone : ∀ x, C x ∨ x = k → table.Proper name params x := fun x hx =>
      hproper x (hx.imp_right (by rintro rfl; exact List.mem_cons_self))
    have hnext' : table.Merges (fun x => C x ∨ x = k) next :=
      hcs.trans h harrays hone (hmerges.congr fun x => or_comm)
    obtain ⟨out, hout, hmerges'⟩ := ih (C := fun x => C x ∨ x = k)
      (fun x hx => hproper x (by simpa [or_assoc] using hx)) hnext'
    refine ⟨out, ?_, hmerges'.congr fun x => by simp [or_assoc]⟩
    rw [Hierarchy.addCandidates, hnext]
    exact hout

/-! ## Matches -/

theorem paramsMatch_eq {declared requested : List String}
    (hdeclared : ∀ d ∈ declared, table.Described d) (hlength : declared.length = requested.length) :
    (Hierarchy.freeze table).paramsMatch declared requested =
      some (decide (List.Forall₂ (fun d r => table.Assignable r d) declared requested)) := by
  induction declared generalizing requested with
  | nil =>
    obtain rfl := List.eq_nil_of_length_eq_zero hlength.symm
    simp [Hierarchy.paramsMatch]
  | cons d ds ih =>
    cases requested with
    | nil => simp at hlength
    | cons r rs =>
      obtain ⟨hd, hds⟩ := List.forall_mem_cons.mp hdeclared
      rw [Hierarchy.paramsMatch, isAssignable_eq h harrays r hd, ih hds (Nat.succ.inj hlength)]
      by_cases hassignable : table.Assignable r d <;> simp [hassignable]

/-- Whether a method of a known type matches is never open. -/
theorem isMatch_eq {className : String} {header : ClassHeader} (hheader : table[className]? = some header)
    {m : MethodHeader} (hm : m ∈ header.methods) :
    (Hierarchy.freeze table).isMatch name params m = some (decide (table.Accepts name params m)) := by
  unfold Hierarchy.isMatch Accepts Matches
  split_ifs with hname
  · rw [Bool.or_eq_true, decide_eq_true_iff] at hname
    rw [eq_comm, Option.some.injEq, decide_eq_false_iff_not]
    rintro ⟨hspecial, hsame, _⟩
    rcases hname with hname | hname
    · exact hname hsame
    · rw [hspecial] at hname
      cases hname
  · rw [Bool.or_eq_true, decide_eq_true_iff, not_or, not_not, Bool.not_eq_true] at hname
    simp only [hname, true_and]
    cases hparse : MethodDescriptor.parse m.descriptor with
    | error cause => simp
    | ok parsed =>
      dsimp only
      by_cases hlength : parsed.params.length = params.length
      · rw [if_neg (not_not.mpr hlength), paramsMatch_eq h harrays ?_ hlength]
        · simp
        · exact fun d hd => h.described _ _ hheader m hm parsed hparse d (List.mem_cons_of_mem _ hd)
      · rw [if_pos hlength, eq_comm, Option.some.injEq, decide_eq_false_iff_not]
        rintro ⟨parsed', heq, htakes⟩
        obtain rfl := Except.ok.inj heq
        exact hlength htakes.length_eq

theorem exists_matching {className : String} {header : ClassHeader}
    (hheader : table[className]? = some header) {ms : List MethodHeader} (hms : ms ⊆ header.methods) :
    ∃ found, (Hierarchy.freeze table).matching name params header ms = some found := by
  induction ms with
  | nil => exact ⟨[], rfl⟩
  | cons m rest ih =>
    obtain ⟨hm, hrest⟩ := List.cons_subset.mp hms
    obtain ⟨others, hothers⟩ := ih hrest
    rw [Hierarchy.matching, isMatch_eq h harrays hheader hm, hothers]
    exact ⟨_, rfl⟩

/-- What a type offers is found among its methods. -/
theorem exists_offers (name : String) (params : List String) (includeStatic : Bool) {className : String}
    {header : ClassHeader} (hheader : table[className]? = some header) :
    ∃ found, (Hierarchy.freeze table).matching name params header
        (Hierarchy.visible includeStatic header) = some found ∧
      ∀ k, k ∈ found ↔ k.owner = header ∧ Offers (table.Accepts name params) includeStatic header k.method := by
  have hvisible : Hierarchy.visible includeStatic header ⊆ header.methods := List.filter_subset_self _
  obtain ⟨found, hfound⟩ := exists_matching h harrays hheader hvisible
  refine ⟨found, hfound, fun k => ?_⟩
  rw [Hierarchy.mem_matching hfound]
  refine and_congr_right fun _ => ?_
  rw [Hierarchy.visible, List.mem_filter, Offers, Bool.and_eq_true, Bool.or_eq_true, Bool.not_eq_true']
  constructor
  · rintro ⟨⟨hmem, hpublic, hstatic⟩, hmatch⟩
    rw [isMatch_eq h harrays hheader hmem, Option.some.injEq, decide_eq_true_iff] at hmatch
    exact ⟨hmem, hpublic, hstatic, hmatch⟩
  · rintro ⟨hmem, hpublic, hstatic, haccepts⟩
    refine ⟨⟨hmem, hpublic, hstatic⟩, ?_⟩
    rw [isMatch_eq h harrays hheader hmem, Option.some.injEq, decide_eq_true_iff]
    exact haccepts

end Merging

/-! ## The walk -/

/-- Without a match of its own, a type passes on what its superclass and its interfaces have. -/
theorem publicCandidates_of_no_match {H : Hierarchy} {depth : Nat} {includeStatic : Bool}
    {className : String} {header : ClassHeader} (hclass : H.class? className = some header)
    (hfound : H.matching name params header (Hierarchy.visible includeStatic header) = some []) :
    H.publicCandidates name params (depth + 1) includeStatic className =
      (match header.superclass? with
        | some above => H.publicCandidates name params depth includeStatic above
        | none => some []) >>= fun inherited =>
          H.mergeInterfaces name params depth inherited header.interfaces := by
  rw [Hierarchy.visible] at hfound
  simp only [Hierarchy.publicCandidates, hclass, hfound, bind, Option.bind, ne_eq, not_true_eq_false,
    if_false]
  cases header.superclass? <;> rfl

theorem IsCandidate.of_offers {includeStatic : Bool} {className : String} {header : ClassHeader}
    {m : MethodHeader} {k : Candidate} (hk : table.IsCandidate (table.Accepts name params) includeStatic className k)
    (hheader : table[className]? = some header) (hm : Offers (table.Accepts name params) includeStatic header m) :
    k.owner = header ∧ Offers (table.Accepts name params) includeStatic header k.method := by
  cases hk with
  | own hheader' hm' =>
    obtain rfl := Option.some.inj (hheader.symm.trans hheader')
    exact ⟨rfl, hm'⟩
  | inherited hheader' hnone _ _ =>
    obtain rfl := Option.some.inj (hheader.symm.trans hheader')
    exact absurd hm (hnone m)
  | interface hheader' hnone _ _ =>
    obtain rfl := Option.some.inj (hheader.symm.trans hheader')
    exact absurd hm (hnone m)

theorem isCandidate_iff_of_none {includeStatic : Bool} {className : String} {header : ClassHeader}
    {k : Candidate} (hheader : table[className]? = some header)
    (hnone : ∀ m, ¬ Offers (table.Accepts name params) includeStatic header m) :
    table.IsCandidate (table.Accepts name params) includeStatic className k ↔
      (∃ above, header.superclass? = some above ∧ table.IsCandidate (table.Accepts name params) includeStatic above k) ∨
        ∃ i ∈ header.interfaces, table.IsCandidate (table.Accepts name params) false i k := by
  constructor
  · intro hk
    cases hk with
    | own hheader' hm =>
      obtain rfl := Option.some.inj (hheader.symm.trans hheader')
      exact absurd hm (hnone _)
    | inherited hheader' _ hsuper hk =>
      obtain rfl := Option.some.inj (hheader.symm.trans hheader')
      exact .inl ⟨_, hsuper, hk⟩
    | interface hheader' _ hmem hk =>
      obtain rfl := Option.some.inj (hheader.symm.trans hheader')
      exact .inr ⟨_, hmem, hk⟩
  · rintro (⟨above, hsuper, hk⟩ | ⟨i, hmem, hk⟩)
    · exact .inherited hheader hnone hsuper hk
    · exact .interface hheader hnone hmem hk

/-- Own methods on offer stand for all candidates. -/
theorem merges_own {includeStatic : Bool} {className : String} {header : ClassHeader}
    (hheader : table[className]? = some header) {found : List Candidate} (hfound : found ≠ [])
    (hoffers : ∀ k, k ∈ found ↔
      k.owner = header ∧ Offers (table.Accepts name params) includeStatic header k.method) :
    table.Merges (table.IsCandidate (table.Accepts name params) includeStatic className) found := by
  obtain ⟨first, hfirst⟩ := List.exists_mem_of_ne_nil found hfound
  have hoffered := (hoffers first).mp hfirst
  refine ⟨?_, ?_, ?_⟩
  · rintro ⟨owner, m⟩ hk
    obtain ⟨rfl, hm⟩ := (hoffers _).mp hk
    exact .own hheader hm
  · exact fun k hk => ⟨k, (hoffers k).mpr (hk.of_offers hheader hoffered.2), .refl k⟩
  · intro k hk k' hk'
    exact not_overrides_self (((hoffers k).mp hk).1.trans ((hoffers k').mp hk').1.symm)

/-- No chain of supertypes from the type on has as many links. -/
def Shallow (table : ClassTable) (depth : Nat) (name : String) : Prop :=
  ∀ chain, (name :: chain).IsChain table.Link → chain.length < depth

theorem Shallow.step {depth : Nat} {className above : String} (hdepth : table.Shallow (depth + 1) className)
    (hlink : table.Link className above) : table.Shallow depth above := by
  intro chain hchain
  have hlonger := hdepth (above :: chain) (.cons_cons hlink hchain)
  rw [List.length_cons] at hlonger
  omega

section Walk

variable (h : table.Regular) (harrays : table.NoArrays)
include h harrays

/-- Candidates of interfaces join those that are there. -/
theorem mergeInterfaces_merges {depth : Nat} {interfaces : List String} {C : Candidate → Prop}
    {existing : List Candidate} (hproper : ∀ x, C x → table.Proper name params x)
    (hcs : table.Merges C existing)
    (hinterfaces : ∀ i ∈ interfaces, ∃ cs,
      (Hierarchy.freeze table).publicCandidates name params depth false i = some cs ∧
        table.Merges (table.IsCandidate (table.Accepts name params) false i) cs) :
    ∃ out, (Hierarchy.freeze table).mergeInterfaces name params depth existing interfaces = some out ∧
      table.Merges (fun x => C x ∨ ∃ i ∈ interfaces, table.IsCandidate (table.Accepts name params) false i x) out := by
  induction interfaces generalizing C existing with
  | nil => exact ⟨existing, rfl, hcs.congr fun x => by simp⟩
  | cons i rest ih =>
    obtain ⟨⟨added, hadded, hmerges⟩, hrest⟩ := List.forall_mem_cons.mp hinterfaces
    have hproper' : ∀ x, C x ∨ table.IsCandidate (table.Accepts name params) false i x → table.Proper name params x :=
      fun x hx => hx.elim (hproper x) (·.proper h)
    obtain ⟨next, hnext, hmerges'⟩ := addCandidates_merges h harrays
      (fun x hx => hproper' x (hx.imp_right (hmerges.sound x))) hcs
    have hboth : table.Merges (fun x => C x ∨ table.IsCandidate (table.Accepts name params) false i x) next := by
      refine Merges.congr (hmerges.trans h harrays (fun x hx => hproper' x hx.symm) ?_) fun x => or_comm
      exact hmerges'.congr fun x => or_comm
    obtain ⟨out, hout, hmerges''⟩ := ih hproper' hboth hrest
    refine ⟨out, ?_, hmerges''.congr fun x => by simp [or_assoc]⟩
    rw [Hierarchy.mergeInterfaces, List.foldlM_cons, hadded]
    show ((Hierarchy.freeze table).addCandidates existing added >>= _) = _
    rw [hnext]
    exact hout

/-- In a regular hierarchy the walk comes to an end with a list that stands for all candidates. -/
theorem publicCandidates_merges {depth : Nat} {includeStatic : Bool} {className : String}
    (hknown : className ∈ table) (hdepth : table.Shallow depth className) :
    ∃ cs, (Hierarchy.freeze table).publicCandidates name params depth includeStatic className = some cs ∧
      table.Merges (table.IsCandidate (table.Accepts name params) includeStatic className) cs := by
  induction depth generalizing includeStatic className with
  | zero =>
    have hnone := hdepth [] (.singleton className)
    omega
  | succ depth ih =>
    obtain ⟨header, hheader⟩ := Option.isSome_iff_exists.mp
      (Std.HashMap.mem_iff_isSome_getElem?.mp hknown)
    obtain ⟨found, hfound, hoffers⟩ := exists_offers h harrays name params includeStatic hheader
    have hclass : (Hierarchy.freeze table).class? className = some header := hheader
    by_cases hempty : found = []
    · subst hempty
      have hnone : ∀ m, ¬ Offers (table.Accepts name params) includeStatic header m := fun m hm =>
        List.not_mem_nil ((hoffers ⟨header, m⟩).mpr ⟨rfl, hm⟩)
      have habove : ∀ above, table.Link className above → above ∈ table ∧ table.Shallow depth above :=
        fun above hlink => ⟨h.closed _ _ hlink, hdepth.step hlink⟩
      obtain ⟨inherited, hinherited, hmerges⟩ : ∃ inherited, (match header.superclass? with
            | some above => (Hierarchy.freeze table).publicCandidates name params depth includeStatic above
            | none => some []) = some inherited ∧
          table.Merges (fun k => ∃ above, header.superclass? = some above ∧
            table.IsCandidate (table.Accepts name params) includeStatic above k) inherited := by
        cases hsuper : header.superclass? with
        | none => exact ⟨[], rfl, merges_nil.congr fun k => by simp⟩
        | some above =>
          obtain ⟨hmem, hshallow⟩ := habove above (.inl ⟨header, hheader, hsuper⟩)
          obtain ⟨cs, hcs, hmerges⟩ := @ih includeStatic above hmem hshallow
          exact ⟨cs, hcs, hmerges.congr fun k => by simp⟩
      obtain ⟨out, hout, hmerges'⟩ := mergeInterfaces_merges h harrays
        (fun k ⟨_, _, hk⟩ => hk.proper h) hmerges fun i hi =>
          ih (habove i (.inr ⟨header, hheader, hi⟩)).1 (habove i (.inr ⟨header, hheader, hi⟩)).2
      refine ⟨out, ?_, hmerges'.congr fun k => (isCandidate_iff_of_none hheader hnone).symm⟩
      rw [publicCandidates_of_no_match hclass hfound, hinherited]
      exact hout
    · exact ⟨found, Hierarchy.publicCandidates_of_matching hclass hfound hempty depth,
        merges_own hheader hempty hoffers⟩

end Walk

end ClassTable

end DirectCall
