import DirectCall.Proofs.Hierarchy.Found

/-!
# Order of the declared methods

A look-up among the declared methods compares the return types of its candidates one after another and gives
up at the first comparison that is open. So a candidate whose return type is assignable to that of every
other one may be missed. It is found for every order of the methods exactly if no comparison is open and what
is more specific than such a candidate is one as well (`findsMostSpecific_iff`).
-/

namespace DirectCall

/-- The return type; empty if the descriptor is not one of a method. -/
def MethodHeader.returnType (m : MethodHeader) : String :=
  match MethodDescriptor.parse m.descriptor with
  | .ok parsed => parsed.ret
  | .error _ => ""

namespace Hierarchy

variable {h : Hierarchy} {name : String} {params : List String}

/-! ## The scan -/

/-- The return type of the candidate is assignable to that of each candidate. -/
def Least (h : Hierarchy) (cs : List Candidate) (k : Candidate) : Prop :=
  k ∈ cs ∧ ∀ other ∈ cs, h.isAssignable other.ret k.ret = some true

theorem returnsBelow_eq_true {ret : String} {cs : List Candidate} :
    h.returnsBelow ret cs = some true ↔ ∀ k ∈ cs, h.isAssignable k.ret ret = some true := by
  induction cs with
  | nil => simp [returnsBelow]
  | cons k rest ih =>
    rw [List.forall_mem_cons, ← ih, returnsBelow]
    rcases h.isAssignable k.ret ret with _ | _ | _ <;> simp

/-- The answer is where the scan ends, if nothing is below it. -/
theorem mostSpecific_cons {first : Candidate} {rest : List Candidate} {found : ResolvedMethod}
    (hfound : h.mostSpecific (first :: rest) = some found) :
    ∃ best, h.bestOf first rest = some best ∧ found = best.resolved ∧ h.Least (first :: rest) best := by
  rw [mostSpecific] at hfound
  split_ifs at hfound with hdiffer
  obtain ⟨best, hbest, hfound⟩ := Option.bind_eq_some_iff.mp hfound
  obtain ⟨below, hbelow, hfound⟩ := Option.bind_eq_some_iff.mp hfound
  cases below with
  | false => simp at hfound
  | true =>
    exact ⟨best, hbest, (Option.some.inj hfound).symm, bestOf_mem hbest, returnsBelow_eq_true.mp hbelow⟩

theorem bestOf_append (best : Candidate) (cs cs' : List Candidate) :
    h.bestOf best (cs ++ cs') = (h.bestOf best cs).bind fun next => h.bestOf next cs' := by
  induction cs generalizing best with
  | nil => rfl
  | cons k rest ih =>
    rw [List.cons_append, bestOf, bestOf, ih k, ih best]
    split_ifs
    · rcases h.isAssignable best.ret k.ret with _ | _ | _ <;> rfl
    · rfl

/-- A candidate of another return type takes the place of the best one if it is more specific. -/
theorem bestOf_cons {best k : Candidate} {rest : List Candidate} (hother : k.ret ≠ best.ret) {below : Bool}
    (hbelow : h.isAssignable best.ret k.ret = some below) :
    h.bestOf best (k :: rest) = h.bestOf (if below then k else best) rest := by
  rw [bestOf, if_pos hother, hbelow]
  cases below <;> rfl

/-- All candidates compare. -/
def Comparable (h : Hierarchy) (all : List Candidate) : Prop :=
  ∀ k ∈ all, ∀ k' ∈ all, h.isAssignable k.ret k'.ret ≠ none

/-- If all candidates compare, the scan comes to an end. -/
theorem exists_bestOf {all cs : List Candidate} (hcomparable : h.Comparable all) {best : Candidate}
    (hbest : best ∈ all) (hcs : cs ⊆ all) : ∃ chosen ∈ all, h.bestOf best cs = some chosen := by
  induction cs generalizing best with
  | nil => exact ⟨best, hbest, rfl⟩
  | cons k rest ih =>
    obtain ⟨hk, hrest⟩ := List.cons_subset.mp hcs
    by_cases hsame : k.ret = best.ret
    · rw [bestOf, if_neg (not_not.mpr hsame)]
      exact ih hbest hrest
    · obtain ⟨below, hbelow⟩ := Option.ne_none_iff_exists'.mp (hcomparable best hbest k hk)
      rw [bestOf_cons hsame hbelow]
      cases below with
      | true => exact ih hk hrest
      | false => exact ih hbest hrest

/-- What is more specific than a least candidate is least itself. -/
def Closed (h : Hierarchy) (all : List Candidate) : Prop :=
  ∀ k, h.Least all k → ∀ k' ∈ all, h.isAssignable k.ret k'.ret = some true → h.Least all k'

theorem Least.of_ret_eq {all : List Candidate} {k k' : Candidate} (hk : h.Least all k) (hk' : k' ∈ all)
    (hsame : k'.ret = k.ret) : h.Least all k' :=
  ⟨hk', by rw [hsame]; exact hk.2⟩

/-- Once the scan has come to a least candidate it stays at one. -/
theorem bestOf_least {all cs : List Candidate} (hcomparable : h.Comparable all) (hclosed : h.Closed all)
    {best : Candidate} (hbest : best ∈ all) (hcs : cs ⊆ all)
    (hleast : ∃ k ∈ best :: cs, h.Least all k) :
    ∃ chosen, h.bestOf best cs = some chosen ∧ h.Least all chosen := by
  induction cs generalizing best with
  | nil =>
    obtain ⟨k, hk, hleast⟩ := hleast
    obtain rfl := List.mem_singleton.mp hk
    exact ⟨k, rfl, hleast⟩
  | cons k rest ih =>
    obtain ⟨hk, hrest⟩ := List.cons_subset.mp hcs
    obtain ⟨least, hmem, hleast⟩ := hleast
    by_cases hsame : k.ret = best.ret
    · rw [bestOf, if_neg (not_not.mpr hsame)]
      refine ih hbest hrest ?_
      rcases List.mem_cons.mp hmem with rfl | hmem
      · exact ⟨least, List.mem_cons_self, hleast⟩
      · rcases List.mem_cons.mp hmem with rfl | hmem
        · exact ⟨best, List.mem_cons_self, hleast.of_ret_eq hbest hsame.symm⟩
        · exact ⟨least, List.mem_cons_of_mem _ hmem, hleast⟩
    · obtain ⟨below, hbelow⟩ := Option.ne_none_iff_exists'.mp (hcomparable best hbest k hk)
      rw [bestOf_cons hsame hbelow]
      cases below with
      | true =>
        refine ih hk hrest ?_
        rcases List.mem_cons.mp hmem with rfl | hmem
        · exact ⟨k, List.mem_cons_self, hclosed least hleast k hk hbelow⟩
        · exact ⟨least, hmem, hleast⟩
      | false =>
        refine ih hbest hrest ?_
        rcases List.mem_cons.mp hmem with rfl | hmem
        · exact ⟨least, List.mem_cons_self, hleast⟩
        · rcases List.mem_cons.mp hmem with rfl | hmem
          · -- A least candidate is below whatever the scan holds.
            have hbelow' := hleast.2 best hbest
            rw [hbelow] at hbelow'
            cases hbelow'
          · exact ⟨least, List.mem_cons_of_mem _ hmem, hleast⟩

/-- If all take the same parameters and the scan ends at a least candidate, that is the answer. -/
theorem mostSpecific_of_least {cs : List Candidate} (hcomparable : h.Comparable cs) (hclosed : h.Closed cs)
    (hparams : ∀ k ∈ cs, ∀ k' ∈ cs, k.params = k'.params) (hleast : ∃ k, h.Least cs k) :
    ∃ chosen, h.Least cs chosen ∧ h.mostSpecific cs = some chosen.resolved := by
  obtain ⟨least, hleast⟩ := hleast
  cases cs with
  | nil => exact absurd hleast.1 List.not_mem_nil
  | cons first rest =>
    obtain ⟨chosen, hchosen, hchosenLeast⟩ := bestOf_least hcomparable hclosed List.mem_cons_self
      (List.subset_cons_self first rest) ⟨least, hleast.1, hleast⟩
    have hsame : ¬ rest.any (fun k => decide (k.params ≠ first.params)) = true := by
      simp only [List.any_eq_true, decide_eq_true_eq, not_exists, not_and, not_not]
      exact fun k hk => hparams k (List.mem_cons_of_mem _ hk) first List.mem_cons_self
    refine ⟨chosen, hchosenLeast, ?_⟩
    rw [mostSpecific, if_neg hsame, hchosen]
    show (h.returnsBelow chosen.ret (first :: rest) >>= _) = _
    rw [returnsBelow_eq_true.mpr hchosenLeast.2]
    rfl

/-! ## Orders that fail -/

/-- The scan gives up at two candidates that do not compare. -/
theorem mostSpecific_of_incomparable {k k' : Candidate} (hopen : h.isAssignable k.ret k'.ret = none)
    (rest : List Candidate) : h.mostSpecific (k :: k' :: rest) = none := by
  have hother : k'.ret ≠ k.ret := by
    intro hsame
    rw [hsame, isAssignable_self] at hopen
    cases hopen
  by_contra hsome
  obtain ⟨found, hfound⟩ := Option.ne_none_iff_exists'.mp hsome
  obtain ⟨best, hbest, _⟩ := mostSpecific_cons hfound
  rw [bestOf, if_pos hother, hopen] at hbest
  cases hbest

/-- If a candidate that is more specific than a least one comes last, right behind it, it is where the scan
ends. -/
theorem least_of_last {others : List Candidate} {k k' : Candidate}
    (hcomparable : h.Comparable (others ++ [k, k'])) (hleast : h.Least (others ++ [k, k']) k)
    (hother : k'.ret ≠ k.ret) (hbelow : h.isAssignable k.ret k'.ret = some true) {found : ResolvedMethod}
    (hfound : h.mostSpecific (others ++ [k, k']) = some found) : h.Least (others ++ [k, k']) k' := by
  have hend : h.bestOf k [k'] = some k' := bestOf_cons hother hbelow
  cases others with
  | nil =>
    obtain ⟨best, hbest, _, hbestLeast⟩ := mostSpecific_cons hfound
    obtain rfl := Option.some.inj (hend.symm.trans hbest)
    exact hbestLeast
  | cons first rest =>
    obtain ⟨best, hbest, _, hbestLeast⟩ := mostSpecific_cons hfound
    obtain ⟨next, hnext, hscan⟩ := exists_bestOf hcomparable List.mem_cons_self
      (List.subset_cons_of_subset first (List.subset_append_left rest [k, k']))
    rw [show rest.append [k, k'] = rest ++ [k, k'] from rfl, bestOf_append, hscan, Option.bind_some] at hbest
    have hbehind : h.bestOf next [k, k'] = some k' := by
      by_cases hsame : k.ret = next.ret
      · rw [bestOf, if_neg (not_not.mpr hsame)]
        exact bestOf_cons (hsame ▸ hother) (hsame ▸ hbelow)
      · rw [bestOf_cons hsame (hleast.2 next hnext)]
        exact hend
    obtain rfl := Option.some.inj (hbehind.symm.trans hbest)
    exact hbestLeast

/-! ## Hierarchies that agree on subtypes -/

section Congruence

variable {h' : Hierarchy} (heq : h'.isSubtype = h.isSubtype)
include heq

theorem isAssignable_congr : h'.isAssignable = h.isAssignable := by
  funext target source
  rw [isAssignable, isAssignable, heq]

theorem paramsMatch_congr (declared requested : List String) :
    h'.paramsMatch declared requested = h.paramsMatch declared requested := by
  induction declared generalizing requested with
  | nil => rfl
  | cons d ds ih =>
    cases requested with
    | nil => rfl
    | cons r rs => rw [paramsMatch, paramsMatch, isAssignable_congr heq, ih]

theorem isMatch_congr (m : MethodHeader) : h'.isMatch name params m = h.isMatch name params m := by
  simp only [isMatch, paramsMatch_congr heq]

end Congruence

/-- The candidates among methods of which it is settled whether they match. -/
theorem matching_of_determined {owner : ClassHeader} {ms : List MethodHeader}
    (hdetermined : ∀ m ∈ ms, h.isMatch name params m ≠ none) :
    h.matching name params owner ms =
      some ((ms.filter fun m => h.isMatch name params m = some true).map (⟨owner, ·⟩)) := by
  induction ms with
  | nil => rfl
  | cons m rest ih =>
    obtain ⟨hm, hrest⟩ := List.forall_mem_cons.mp hdetermined
    obtain ⟨found, hfound⟩ := Option.ne_none_iff_exists'.mp hm
    rw [matching, hfound, ih hrest]
    cases found <;> simp [hfound]

end Hierarchy

namespace ClassTable

variable {table : ClassTable} {className name : String} {params : List String} {header : ClassHeader}

/-! ## Tables that differ in the order of methods -/

/-- The second table has the methods of the class in the given order, and is the first one otherwise. -/
structure Reorders (table : ClassTable) (className : String) (header : ClassHeader)
    (order : List MethodHeader) (table' : ClassTable) : Prop where
  perm : order.Perm header.methods
  reordered : table'[className]? = some { header with methods := order }
  others : ∀ other : String, other ≠ className → table'[other]? = table[other]?

section Reorders

variable {order : List MethodHeader} {table' : ClassTable}

theorem reorders_insert (h : order.Perm header.methods) :
    table.Reorders className header order (table.insert className { header with methods := order }) where
  perm := h
  reordered := Std.HashMap.getElem?_insert_self
  others other hother := by
    rw [Std.HashMap.getElem?_insert, if_neg (by simpa using hother.symm)]

variable (h : table.Reorders className header order table') (hheader : table[className]? = some header)
include h hheader

/-- Where the one table has a header, the other one has one with the same supertypes. -/
theorem Reorders.header_cases (name : String) :
    (table'[name]? = none ∧ table[name]? = none) ∨ ∃ new old, table'[name]? = some new ∧
      table[name]? = some old ∧ new.superclass? = old.superclass? ∧ new.interfaces = old.interfaces := by
  by_cases hname : name = className
  · subst hname
    exact .inr ⟨_, _, h.reordered, hheader, rfl, rfl⟩
  · rw [h.others name hname]
    cases hold : table[name]? with
    | none => exact .inl ⟨rfl, rfl⟩
    | some old => exact .inr ⟨old, old, rfl, rfl, rfl, rfl⟩

theorem Reorders.mem_iff (name : String) : name ∈ table' ↔ name ∈ table := by
  rw [Std.HashMap.mem_iff_isSome_getElem?, Std.HashMap.mem_iff_isSome_getElem?]
  rcases h.header_cases hheader name with ⟨hnew, hold⟩ | ⟨_, _, hnew, hold, _⟩ <;> simp [hnew, hold]

theorem Reorders.reaches_iff (name above : String) : table'.Reaches name above ↔ table.Reaches name above := by
  have hextends : table'.Extends = table.Extends := by
    funext name above
    rcases h.header_cases hheader name with ⟨hnew, hold⟩ | ⟨_, _, hnew, hold, hsuper, _⟩
    · simp [Extends, hnew, hold]
    · simp [Extends, hnew, hold, hsuper]
  have himplements : table'.Implements = table.Implements := by
    funext name above
    rcases h.header_cases hheader name with ⟨hnew, hold⟩ | ⟨_, _, hnew, hold, _, hinterfaces⟩
    · simp [Implements, hnew, hold]
    · simp [Implements, hnew, hold, hinterfaces]
  rw [Reaches, Reaches, hextends, himplements]

theorem Reorders.contains_eq {source target : String} (hother : target ≠ source) :
    (table'.closure source).contains target = (table.closure source).contains target := by
  rw [Bool.eq_iff_iff, contains_closure hother, contains_closure hother, h.reaches_iff hheader]

theorem Reorders.complete_eq (source : String) :
    (table'.closure source).complete = (table.closure source).complete := by
  rw [Bool.eq_iff_iff, closure_complete, closure_complete]
  simp only [h.reaches_iff hheader, h.mem_iff hheader]

/-- Methods say nothing about subtypes. -/
theorem Reorders.isSubtype : (Hierarchy.freeze table').isSubtype = (Hierarchy.freeze table).isSubtype := by
  have hwithin : ∀ depth, (Hierarchy.freeze table').subtypeWithin depth =
      (Hierarchy.freeze table).subtypeWithin depth := by
    intro depth
    induction depth with
    | zero => rfl
    | succ depth ih =>
      funext target source
      rw [Hierarchy.subtypeWithin, Hierarchy.subtypeWithin, ih]
      by_cases hsame : target = source ∨ target = objectClass
      · rw [if_pos hsame, if_pos hsame]
      · rw [if_neg hsame, if_neg hsame]
        have hother : target ≠ source := fun heq => hsame (.inl heq)
        by_cases hsource : source ∈ table
        · simp only [Hierarchy.freeze_closure?, h.mem_iff hheader, hsource, if_true,
            h.contains_eq hheader hother, h.complete_eq hheader]
        · simp only [Hierarchy.freeze_closure?, h.mem_iff hheader, hsource, if_false]
  funext target source
  rw [Hierarchy.isSubtype, Hierarchy.isSubtype, hwithin]

end Reorders

/-! ## The most specific method -/

/-- The method is one of the class, and it matches. -/
def Choice (table : ClassTable) (name : String) (params : List String) (header : ClassHeader)
    (m : MethodHeader) : Prop :=
  m ∈ header.methods ∧ table.Taken name params m

/-- The method matches, and its return type is assignable to that of each method that matches. -/
def MostSpecific (table : ClassTable) (name : String) (params : List String) (header : ClassHeader)
    (m : MethodHeader) : Prop :=
  table.Choice name params header m ∧ ∀ m', table.Choice name params header m' →
    (Hierarchy.freeze table).isAssignable m'.returnType m.returnType = some true

/-- It is settled which methods of the class match. These take the same parameters, and there is a most
specific one. -/
structure Settled (table : ClassTable) (name : String) (params : List String) (header : ClassHeader) :
    Prop where
  determined : ∀ m ∈ header.methods, (Hierarchy.freeze table).isMatch name params m ≠ none
  shared : ∃ taken, ∀ m, table.Choice name params header m →
    ∃ ret, MethodDescriptor.parse m.descriptor = .ok ⟨taken, ret⟩
  /-- So the return type begins behind the last parenthesis. -/
  closing : ∀ m, table.Choice name params header m → ')' ∉ m.returnType.toList
  exists_mostSpecific : ∃ m, table.MostSpecific name params header m

/-- Whatever the order of the methods is, a most specific one is found. -/
def FindsMostSpecific (table : ClassTable) (className name : String) (params : List String)
    (header : ClassHeader) : Prop :=
  ∀ order table', table.Reorders className header order table' →
    ∃ m, table.MostSpecific name params header m ∧
      (Hierarchy.freeze table').resolveDeclared className name params = some (Candidate.resolved ⟨header, m⟩)

/-- The return types of any two matches compare, and what is more specific than a most specific method is
one, too. -/
structure Ordered (table : ClassTable) (name : String) (params : List String) (header : ClassHeader) :
    Prop where
  comparable : ∀ m m', table.Choice name params header m → table.Choice name params header m' →
    (Hierarchy.freeze table).isAssignable m.returnType m'.returnType ≠ none
  closed : ∀ m m', table.MostSpecific name params header m → table.Choice name params header m' →
    (Hierarchy.freeze table).isAssignable m.returnType m'.returnType = some true →
      table.MostSpecific name params header m'

/-- The candidates among methods of a class, in their order. -/
def candidatesAmong (table : ClassTable) (name : String) (params : List String) (owner : ClassHeader)
    (ms : List MethodHeader) : List Candidate :=
  (ms.filter fun m => (Hierarchy.freeze table).isMatch name params m = some true).map (⟨owner, ·⟩)

theorem mem_candidatesAmong {owner : ClassHeader} {ms : List MethodHeader} {k : Candidate} :
    k ∈ table.candidatesAmong name params owner ms ↔
      k.owner = owner ∧ k.method ∈ ms ∧ table.Taken name params k.method := by
  simp only [candidatesAmong, List.mem_map, List.mem_filter, decide_eq_true_eq]
  constructor
  · rintro ⟨m, hm, rfl⟩
    exact ⟨rfl, hm⟩
  · rintro ⟨rfl, hm⟩
    exact ⟨k.method, hm, rfl⟩

theorem candidatesAmong_cons {owner : ClassHeader} {m : MethodHeader} (hm : table.Taken name params m)
    (rest : List MethodHeader) : table.candidatesAmong name params owner (m :: rest) =
      ⟨owner, m⟩ :: table.candidatesAmong name params owner rest := by
  rw [Taken] at hm
  rw [candidatesAmong, List.filter_cons_of_pos (by simpa using hm)]
  rfl

theorem candidatesAmong_append {owner : ClassHeader} (ms ms' : List MethodHeader) :
    table.candidatesAmong name params owner (ms ++ ms') =
      table.candidatesAmong name params owner ms ++ table.candidatesAmong name params owner ms' := by
  rw [candidatesAmong, List.filter_append, List.map_append]
  rfl

section Settled

variable (hs : table.Settled name params header)
include hs

theorem Settled.parse {m : MethodHeader} (hm : table.Choice name params header m) :
    ∃ parsed, MethodDescriptor.parse m.descriptor = .ok parsed ∧ parsed.ret = m.returnType ∧
      ')' ∉ parsed.ret.toList := by
  obtain ⟨taken, hshared⟩ := hs.shared
  obtain ⟨ret, hparsed⟩ := hshared m hm
  have hret : ret = m.returnType := by rw [MethodHeader.returnType, hparsed]
  exact ⟨_, hparsed, hret, by rw [hret]; exact hs.closing m hm⟩

theorem Settled.ret_eq {m : MethodHeader} (hm : table.Choice name params header m) (owner : ClassHeader) :
    Candidate.ret ⟨owner, m⟩ = m.returnType := by
  obtain ⟨parsed, hparsed, hret, hclosing⟩ := hs.parse hm
  exact (signature_of_parsed (k := ⟨owner, m⟩) hparsed hclosing).1.trans hret

/-- All matches have the same text up to the last parenthesis. -/
theorem Settled.params_eq {m m' : MethodHeader} (hm : table.Choice name params header m)
    (hm' : table.Choice name params header m') (owner : ClassHeader) :
    Candidate.params ⟨owner, m⟩ = Candidate.params ⟨owner, m'⟩ := by
  obtain ⟨taken, hshared⟩ := hs.shared
  obtain ⟨ret, hparsed⟩ := hshared m hm
  obtain ⟨ret', hparsed'⟩ := hshared m' hm'
  have hclosing : ∀ {m ret}, table.Choice name params header m →
      MethodDescriptor.parse m.descriptor = .ok ⟨taken, ret⟩ → ')' ∉ ret.toList := by
    intro m ret hm hparsed
    have hret := hs.closing m hm
    rwa [MethodHeader.returnType, hparsed] at hret
  obtain ⟨_, _, ts, htext, hts⟩ := signature_of_parsed (k := ⟨owner, m⟩) hparsed (hclosing hm hparsed)
  obtain ⟨_, _, ts', htext', hts'⟩ := signature_of_parsed (k := ⟨owner, m'⟩) hparsed' (hclosing hm' hparsed')
  have hspelled : ∀ ts : List TypeText,
      MethodDescriptor.spelled ts = (ts.map (·.text)).flatMap String.toList := by
    intro ts
    simp [MethodDescriptor.spelled, List.flatMap_map, TypeText.text]
  rw [htext, htext', hspelled, hspelled, ← hts, ← hts']

variable {order : List MethodHeader} {table' : ClassTable}
  (h : table.Reorders className header order table') (hheader : table[className]? = some header)
include h hheader

theorem Settled.resolveDeclared_eq : (Hierarchy.freeze table').resolveDeclared className name params =
    (Hierarchy.freeze table').mostSpecific
      (table.candidatesAmong name params { header with methods := order } order) := by
  have hmatch : (Hierarchy.freeze table').isMatch name params =
      (Hierarchy.freeze table).isMatch name params :=
    funext (Hierarchy.isMatch_congr (h.isSubtype hheader))
  have hclass : (Hierarchy.freeze table').class? className = some { header with methods := order } :=
    h.reordered
  have hdetermined : ∀ m ∈ order, (Hierarchy.freeze table').isMatch name params m ≠ none := fun m hm =>
    hmatch ▸ hs.determined m (h.perm.mem_iff.mp hm)
  rw [Hierarchy.resolveDeclared, hclass]
  show ((Hierarchy.freeze table').matching name params _ order >>= _) = _
  rw [Hierarchy.matching_of_determined hdetermined, hmatch]
  rfl

omit hs hheader in
theorem Reorders.choice {k : Candidate}
    (hk : k ∈ table.candidatesAmong name params { header with methods := order } order) :
    k = ⟨{ header with methods := order }, k.method⟩ ∧ table.Choice name params header k.method := by
  obtain ⟨howner, hm, htaken⟩ := mem_candidatesAmong.mp hk
  exact ⟨by rw [← howner], h.perm.mem_iff.mp hm, htaken⟩

/-- Comparing candidates of either table is comparing return types. -/
theorem Settled.isAssignable_eq {k k' : Candidate}
    (hk : k ∈ table.candidatesAmong name params { header with methods := order } order)
    (hk' : k' ∈ table.candidatesAmong name params { header with methods := order } order) :
    (Hierarchy.freeze table').isAssignable k.ret k'.ret =
      (Hierarchy.freeze table).isAssignable k.method.returnType k'.method.returnType := by
  obtain ⟨heq, hm⟩ := h.choice hk
  obtain ⟨heq', hm'⟩ := h.choice hk'
  rw [Hierarchy.isAssignable_congr (h.isSubtype hheader), heq, heq', hs.ret_eq hm, hs.ret_eq hm']

theorem Settled.least_iff {k : Candidate}
    (hk : k ∈ table.candidatesAmong name params { header with methods := order } order) :
    (Hierarchy.freeze table').Least
        (table.candidatesAmong name params { header with methods := order } order) k ↔
      table.MostSpecific name params header k.method := by
  constructor
  · rintro ⟨_, hall⟩
    refine ⟨(h.choice hk).2, fun m' hm' => ?_⟩
    have hk' : (⟨{ header with methods := order }, m'⟩ : Candidate) ∈
        table.candidatesAmong name params { header with methods := order } order :=
      mem_candidatesAmong.mpr ⟨rfl, h.perm.mem_iff.mpr hm'.1, hm'.2⟩
    rw [← hs.isAssignable_eq h hheader hk' hk]
    exact hall _ hk'
  · rintro ⟨_, hall⟩
    refine ⟨hk, fun other hother => ?_⟩
    rw [hs.isAssignable_eq h hheader hother hk]
    exact hall _ (h.choice hother).2

theorem Settled.comparable (hcomparable : ∀ m m', table.Choice name params header m →
    table.Choice name params header m' →
      (Hierarchy.freeze table).isAssignable m.returnType m'.returnType ≠ none) :
    (Hierarchy.freeze table').Comparable
      (table.candidatesAmong name params { header with methods := order } order) := by
  intro k hk k' hk'
  rw [hs.isAssignable_eq h hheader hk hk']
  exact hcomparable _ _ (h.choice hk).2 (h.choice hk').2

/-- If all matches compare and nothing is below a most specific one, one is found. -/
theorem Settled.finds (ho : table.Ordered name params header) : ∃ m, table.MostSpecific name params header m ∧
    (Hierarchy.freeze table').resolveDeclared className name params =
      some (Candidate.resolved ⟨header, m⟩) := by
  have hclosed : (Hierarchy.freeze table').Closed
      (table.candidatesAmong name params { header with methods := order } order) := by
    intro k hk k' hk' hbelow
    rw [hs.isAssignable_eq h hheader hk.1 hk'] at hbelow
    exact (hs.least_iff h hheader hk').mpr
      (ho.closed _ _ ((hs.least_iff h hheader hk.1).mp hk) (h.choice hk').2 hbelow)
  have hparams : ∀ k ∈ table.candidatesAmong name params { header with methods := order } order,
      ∀ k' ∈ table.candidatesAmong name params { header with methods := order } order,
        k.params = k'.params := by
    intro k hk k' hk'
    obtain ⟨heq, hm⟩ := h.choice hk
    obtain ⟨heq', hm'⟩ := h.choice hk'
    rw [heq, heq']
    exact hs.params_eq hm hm' _
  obtain ⟨m, hm⟩ := hs.exists_mostSpecific
  have hmem : (⟨{ header with methods := order }, m⟩ : Candidate) ∈
      table.candidatesAmong name params { header with methods := order } order :=
    mem_candidatesAmong.mpr ⟨rfl, h.perm.mem_iff.mpr hm.1.1, hm.1.2⟩
  obtain ⟨chosen, hchosen, hfound⟩ := Hierarchy.mostSpecific_of_least
    (hs.comparable h hheader ho.comparable) hclosed hparams
    ⟨_, (hs.least_iff h hheader hmem).mpr hm⟩
  refine ⟨chosen.method, (hs.least_iff h hheader hchosen.1).mp hchosen, ?_⟩
  rw [hs.resolveDeclared_eq h hheader, hfound, (h.choice hchosen.1).1]
  rfl

end Settled

/-! ## Any order -/

section FindsMostSpecific

variable (hs : table.Settled name params header) (hheader : table[className]? = some header)
  (hfinds : table.FindsMostSpecific className name params header)
include hs hheader hfinds

/-- Two methods that do not compare may stand first. -/
theorem FindsMostSpecific.comparable {m m' : MethodHeader} (hm : table.Choice name params header m)
    (hm' : table.Choice name params header m') :
    (Hierarchy.freeze table).isAssignable m.returnType m'.returnType ≠ none := by
  intro hopen
  have hother : m' ≠ m := by
    rintro rfl
    rw [Hierarchy.isAssignable_self] at hopen
    cases hopen
  have hperm : (m :: m' :: (header.methods.erase m).erase m').Perm header.methods :=
    ((List.perm_cons_erase ((List.mem_erase_of_ne hother).mpr hm'.1)).symm.cons m).trans
      (List.perm_cons_erase hm.1).symm
  have hreorders : table.Reorders className header _ _ := reorders_insert hperm
  obtain ⟨_, _, hfound⟩ := hfinds _ _ hreorders
  rw [hs.resolveDeclared_eq hreorders hheader, candidatesAmong_cons hm.2, candidatesAmong_cons hm'.2,
    Hierarchy.mostSpecific_of_incomparable] at hfound
  · cases hfound
  · rw [Hierarchy.isAssignable_congr (hreorders.isSubtype hheader), hs.ret_eq hm, hs.ret_eq hm']
    exact hopen

/-- A most specific method and one below it may stand last. -/
theorem FindsMostSpecific.closed {m m' : MethodHeader} (hm : table.MostSpecific name params header m)
    (hm' : table.Choice name params header m')
    (hbelow : (Hierarchy.freeze table).isAssignable m.returnType m'.returnType = some true) :
    table.MostSpecific name params header m' := by
  by_cases hsame : m'.returnType = m.returnType
  · exact ⟨hm', fun other hother => by rw [hsame]; exact hm.2 other hother⟩
  · have hother : m' ≠ m := fun heq => hsame (by rw [heq])
    have hperm : ((header.methods.erase m).erase m' ++ [m, m']).Perm header.methods := by
      refine List.perm_append_comm.trans ?_
      exact ((List.perm_cons_erase ((List.mem_erase_of_ne hother).mpr hm'.1)).symm.cons m).trans
        (List.perm_cons_erase hm.1.1).symm
    have hreorders : table.Reorders className header _ _ := reorders_insert hperm
    obtain ⟨_, _, hfound⟩ := hfinds _ _ hreorders
    rw [hs.resolveDeclared_eq hreorders hheader] at hfound
    have hsplit : ∀ owner, table.candidatesAmong name params owner
        ((header.methods.erase m).erase m' ++ [m, m']) =
          table.candidatesAmong name params owner ((header.methods.erase m).erase m') ++
            [⟨owner, m⟩, ⟨owner, m'⟩] := by
      intro owner
      rw [candidatesAmong_append, candidatesAmong_cons hm.1.2, candidatesAmong_cons hm'.2]
      rfl
    have hmem : ∀ {m}, table.Choice name params header m → ∀ {order},
        order.Perm header.methods → (⟨{ header with methods := order }, m⟩ : Candidate) ∈
          table.candidatesAmong name params { header with methods := order } order :=
      fun hm _ hperm => mem_candidatesAmong.mpr ⟨rfl, hperm.mem_iff.mpr hm.1, hm.2⟩
    have hleast := (hs.least_iff hreorders hheader (hmem hm.1 hperm)).mpr hm
    have hcomparable := hs.comparable hreorders hheader fun _ _ => hfinds.comparable hs hheader
    refine (hs.least_iff hreorders hheader (hmem hm' hperm)).mp ?_
    rw [hsplit] at hfound hleast hcomparable ⊢
    refine Hierarchy.least_of_last hcomparable hleast ?_ ?_ hfound
    · rwa [hs.ret_eq hm.1, hs.ret_eq hm']
    · rwa [Hierarchy.isAssignable_congr (hreorders.isSubtype hheader), hs.ret_eq hm.1, hs.ret_eq hm']

end FindsMostSpecific

/-- A most specific method is found for every order of the methods exactly if all matches compare and none
that is not most specific is below one that is. -/
theorem findsMostSpecific_iff (hheader : table[className]? = some header)
    (hs : table.Settled name params header) :
    table.FindsMostSpecific className name params header ↔ table.Ordered name params header :=
  ⟨fun hfinds => ⟨fun _ _ => hfinds.comparable hs hheader, fun _ _ => hfinds.closed hs hheader⟩,
    fun ho _ _ h => hs.finds h hheader ho⟩

/-! ## Two orders of two methods -/

/-- A class whose superclass is not known. -/
def orphanHeader : ClassHeader := ⟨"a/Orphan", some "a/Lost", [], 0x0021, []⟩

def orphanGetter : MethodHeader := ⟨"f", "()La/Orphan;", 0x0001, []⟩

def lostGetter : MethodHeader := ⟨"f", "()La/Lost;", 0x0001, []⟩

/-- A class with two methods that differ in their return types. -/
def gettersHeader : ClassHeader := ⟨"a/Getters", none, [], 0x0021, [orphanGetter, lostGetter]⟩

def getters : ClassTable := ofHeaders [orphanHeader, gettersHeader]

theorem getters_headers :
    getters["a/Orphan"]? = some orphanHeader ∧ getters["a/Getters"]? = some gettersHeader ∧
      getters["a/Lost"]? = none := by
  simp only [getters, getElem?_ofHeaders]
  decide

theorem getter_isMatch (h : Hierarchy) {m : MethodHeader} (hm : m ∈ gettersHeader.methods) :
    h.isMatch "f" [] m = some true := by
  have horphan : MethodDescriptor.parse orphanGetter.descriptor = .ok ⟨[], "La/Orphan;"⟩ := by rfl
  have hlost : MethodDescriptor.parse lostGetter.descriptor = .ok ⟨[], "La/Lost;"⟩ := by rfl
  simp only [gettersHeader, List.mem_cons, List.not_mem_nil, or_false] at hm
  rcases hm with rfl | rfl
  · exact Hierarchy.isMatch_exact rfl (by simp) horphan rfl
  · exact Hierarchy.isMatch_exact rfl (by simp) hlost rfl

theorem getters_choice {m : MethodHeader} :
    getters.Choice "f" [] gettersHeader m ↔ m = orphanGetter ∨ m = lostGetter := by
  rw [Choice, and_iff_left_of_imp (b := getters.Taken "f" [] m) (getter_isMatch _)]
  simp [gettersHeader]

theorem getter_returnTypes :
    orphanGetter.returnType = "La/Orphan;" ∧ lostGetter.returnType = "La/Lost;" := ⟨by rfl, by rfl⟩

/-- Going up from the known class its superclass is met; of the unknown class nothing can be said. -/
theorem getters_isAssignable :
    (Hierarchy.freeze getters).isAssignable "La/Lost;" "La/Orphan;" = some true ∧
      (Hierarchy.freeze getters).isAssignable "La/Orphan;" "La/Lost;" = none := by
  obtain ⟨horphan, _, hlost⟩ := getters_headers
  have hclass : Descriptor.className? "La/Orphan;" = some "a/Orphan" ∧
      Descriptor.className? "La/Lost;" = some "a/Lost" := by decide
  have hcomponent : Hierarchy.component? "a/Orphan" = none ∧ Hierarchy.component? "a/Lost" = none := by decide
  have harray : Descriptor.isArray "a/Orphan" = false ∧ Descriptor.isArray "a/Lost" = false := by
    simp [Descriptor.isArray_eq, hcomponent]
  have hreach : (getters.closure "a/Orphan").contains "a/Lost" = true :=
    (contains_closure (by decide)).mpr (.inl (.single ⟨_, horphan, rfl⟩))
  have hmem : "a/Orphan" ∈ getters ∧ "a/Lost" ∉ getters := by
    rw [Std.HashMap.mem_iff_isSome_getElem?, Std.HashMap.mem_iff_isSome_getElem?, horphan, hlost]
    decide
  constructor
  · rw [Hierarchy.isAssignable, Hierarchy.assignableBy, if_neg (by decide), if_neg (by decide), hclass.1,
      hclass.2]
    simp [Hierarchy.isSubtype, Hierarchy.subtypeWithin, hcomponent, harray,
      Hierarchy.freeze_closure?, hmem, hreach]
  · rw [Hierarchy.isAssignable, Hierarchy.assignableBy, if_neg (by decide), if_neg (by decide), hclass.1,
      hclass.2]
    simp [Hierarchy.isSubtype, Hierarchy.subtypeWithin, hcomponent, harray,
      Hierarchy.freeze_closure?, hmem, objectClass]

theorem getters_mostSpecific : getters.MostSpecific "f" [] gettersHeader orphanGetter := by
  obtain ⟨horphan, hlost⟩ := getter_returnTypes
  refine ⟨getters_choice.mpr (.inl rfl), fun m hm => ?_⟩
  rcases getters_choice.mp hm with rfl | rfl
  · exact Hierarchy.isAssignable_self _ _
  · rw [horphan, hlost]
    exact getters_isAssignable.1

theorem getters_settled : getters.Settled "f" [] gettersHeader where
  determined m hm := by rw [getter_isMatch _ hm]; exact Option.some_ne_none true
  shared := by
    refine ⟨[], fun m hm => ?_⟩
    rcases getters_choice.mp hm with rfl | rfl
    · exact ⟨"La/Orphan;", by rfl⟩
    · exact ⟨"La/Lost;", by rfl⟩
  closing m hm := by
    obtain ⟨horphan, hlost⟩ := getter_returnTypes
    rcases getters_choice.mp hm with rfl | rfl
    · rw [horphan]
      decide
    · rw [hlost]
      decide
  exists_mostSpecific := ⟨_, getters_mostSpecific⟩

/-- In this order the first comparison is open. -/
theorem getters_resolveDeclared :
    (Hierarchy.freeze getters).resolveDeclared "a/Getters" "f" [] = none := by
  have hreorders : getters.Reorders "a/Getters" gettersHeader gettersHeader.methods getters :=
    ⟨.refl _, getters_headers.2.1, fun _ _ => rfl⟩
  obtain ⟨horphan, hlost⟩ := getter_returnTypes
  rw [getters_settled.resolveDeclared_eq hreorders getters_headers.2.1]
  have htaken : ∀ m ∈ gettersHeader.methods, getters.Taken "f" [] m := fun _ hm => getter_isMatch _ hm
  have hcandidates : ∀ owner, getters.candidatesAmong "f" [] owner gettersHeader.methods =
      [⟨owner, orphanGetter⟩, ⟨owner, lostGetter⟩] := fun owner => by
    have hfirst : getters.candidatesAmong "f" [] owner _ = _ :=
      candidatesAmong_cons (htaken orphanGetter (by decide)) [lostGetter]
    rw [candidatesAmong_cons (htaken lostGetter (by decide))] at hfirst
    exact hfirst
  rw [hcandidates]
  refine Hierarchy.mostSpecific_of_incomparable ?_ []
  rw [getters_settled.ret_eq (getters_choice.mpr (.inl rfl)),
    getters_settled.ret_eq (getters_choice.mpr (.inr rfl)), horphan, hlost]
  exact getters_isAssignable.2

/-- For these methods it hangs on their order whether one is found. -/
theorem findsMostSpecific_iff_getters :
    getters.FindsMostSpecific "a/Getters" "f" [] gettersHeader ↔ getters.Ordered "f" [] gettersHeader :=
  findsMostSpecific_iff getters_headers.2.1 getters_settled

/-- A most specific method may be missed. -/
theorem not_forall_findsMostSpecific :
    ¬ ∀ (table : ClassTable) (className name : String) (params : List String) (header : ClassHeader),
      table[className]? = some header → table.Settled name params header →
        ∃ m, table.MostSpecific name params header m ∧
          (Hierarchy.freeze table).resolveDeclared className name params =
            some (Candidate.resolved ⟨header, m⟩) := by
  intro hclaim
  obtain ⟨m, _, hfound⟩ := hclaim getters "a/Getters" "f" [] gettersHeader getters_headers.2.1 getters_settled
  rw [getters_resolveDeclared] at hfound
  cases hfound

end ClassTable

end DirectCall
