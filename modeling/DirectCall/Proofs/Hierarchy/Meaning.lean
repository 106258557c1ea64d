import DirectCall.Proofs.Hierarchy.Candidates
import DirectCall.Proofs.Hierarchy.Regular

/-!
# What a look-up means

In a regular hierarchy a look-up has an answer exactly if there are candidates, all take the same
parameters, and one of them has a return type that can be used for those of all others. The answer is then
such a candidate, and none overrides it (`resolve_means`).
-/

namespace DirectCall

open Classical

namespace ClassTable

variable {table : ClassTable} {name : String} {params : List String}

/-- All candidates take the same parameters. -/
def AgreeOnParams (C : Candidate → Prop) : Prop := ∃ params, ∀ k, C k → k.Takes params

/-- The return type of the candidate can be used for that of any candidate. -/
def IsMostSpecific (table : ClassTable) (C : Candidate → Prop) (k : Candidate) : Prop :=
  C k ∧ ∃ ret, k.Returns ret ∧ ∀ k', C k' → ∃ ret', k'.Returns ret' ∧ table.Assignable ret' ret

/-- The answers of a look-up, told by its candidates. -/
structure Means (table : ClassTable) (C : Candidate → Prop) (answer : Option ResolvedMethod) : Prop where
  isSome_iff : answer.isSome = true ↔
    (∃ k, C k) ∧ AgreeOnParams C ∧ ∃ k, table.IsMostSpecific C k
  chosen : ∀ found, answer = some found → ∃ k, table.IsMostSpecific C k ∧ found = k.resolved ∧
    ∀ k', C k' → ¬ table.Overrides k' k

theorem means_none {C : Candidate → Prop}
    (h : ¬ ((∃ k, C k) ∧ AgreeOnParams C ∧ ∃ k, table.IsMostSpecific C k)) : table.Means C none where
  isSome_iff := ⟨fun hsome => by simp at hsome, fun hall => absurd hall h⟩
  chosen := by simp

theorem means_some {C : Candidate → Prop} {k : Candidate} (hagree : AgreeOnParams C)
    (hspecific : table.IsMostSpecific C k) (hlast : ∀ k', C k' → ¬ table.Overrides k' k) :
    table.Means C (some k.resolved) where
  isSome_iff := ⟨fun _ => ⟨⟨k, hspecific.1⟩, hagree, k, hspecific⟩, fun _ => rfl⟩
  chosen _ hfound := ⟨k, hspecific, (Option.some.inj hfound).symm, hlast⟩

/-! ## The choice -/

section Choice

variable (h : table.Regular) (harrays : table.NoArrays)
include h

theorem Proper.described_returns {k : Candidate} (hk : table.Proper name params k) {ret : String}
    (hret : k.Returns ret) : table.Described ret := by
  obtain ⟨_, hparsed⟩ := hret
  exact hk.described h hparsed List.mem_cons_self

theorem Proper.returns_iff {k : Candidate} (hk : table.Proper name params k) {ret : String} :
    k.Returns ret ↔ ret = k.ret := by
  constructor
  · rintro ⟨_, hparsed⟩
    exact (hk.signature h hparsed).1.symm
  · rintro rfl
    obtain ⟨_, _, parsed, hparsed, _⟩ := hk.accepts
    rw [(hk.signature h hparsed).1]
    exact ⟨parsed.params, hparsed⟩

theorem Proper.returns {k : Candidate} (hk : table.Proper name params k) : k.Returns k.ret :=
  (hk.returns_iff h).mpr rfl

theorem Proper.ret_described {k : Candidate} (hk : table.Proper name params k) : table.Described k.ret :=
  hk.described_returns h (hk.returns h)

include harrays

/-- The scan ends at the return type that can be used for all others, if there is one. -/
theorem bestOf_least {best : Candidate} {cs : List Candidate}
    (hproper : ∀ k ∈ best :: cs, table.Proper name params k) :
    ∃ chosen, (Hierarchy.freeze table).bestOf best cs = some chosen ∧
      ∀ least ∈ best :: cs, (∀ k ∈ best :: cs, table.Assignable k.ret least.ret) →
        chosen.ret = least.ret := by
  induction cs generalizing best with
  | nil =>
    refine ⟨best, rfl, fun least hleast _ => ?_⟩
    rw [List.mem_singleton.mp hleast]
  | cons c rest ih =>
    obtain ⟨hbest, hc, hrest⟩ : table.Proper name params best ∧ table.Proper name params c ∧
        ∀ k ∈ rest, table.Proper name params k :=
      ⟨hproper best (by simp), hproper c (by simp), fun k hk => hproper k (by simp [hk])⟩
    have hnext : ∀ {next : Candidate}, table.Proper name params next →
        (∀ least ∈ best :: c :: rest, (∀ k ∈ best :: c :: rest, table.Assignable k.ret least.ret) →
          ∃ least' ∈ next :: rest, least'.ret = least.ret) → (next = best ∨ next = c) →
        ∃ chosen, (Hierarchy.freeze table).bestOf next rest = some chosen ∧
          ∀ least ∈ best :: c :: rest, (∀ k ∈ best :: c :: rest, table.Assignable k.ret least.ret) →
            chosen.ret = least.ret := by
      intro next hproper' hkept hplace
      obtain ⟨chosen, hchosen, hleast⟩ := ih (List.forall_mem_cons.mpr ⟨hproper', hrest⟩)
      refine ⟨chosen, hchosen, fun least hmem hall => ?_⟩
      obtain ⟨least', hmem', heq⟩ := hkept least hmem hall
      refine (hleast least' hmem' fun k hk => ?_).trans heq
      rw [heq]
      refine hall k ?_
      rcases List.mem_cons.mp hk with rfl | hk
      · rcases hplace with rfl | rfl <;> simp
      · simp [hk]
    rw [Hierarchy.bestOf]
    by_cases hsame : c.ret = best.ret
    · rw [if_neg (not_not.mpr hsame)]
      refine hnext hbest (fun least hmem _ => ?_) (.inl rfl)
      rcases List.mem_cons.mp hmem with rfl | hmem
      · exact ⟨least, List.mem_cons_self, rfl⟩
      · rcases List.mem_cons.mp hmem with rfl | hmem
        · exact ⟨best, List.mem_cons_self, hsame.symm⟩
        · exact ⟨least, List.mem_cons_of_mem _ hmem, rfl⟩
    · rw [if_pos hsame, isAssignable_eq h harrays best.ret (hc.ret_described h)]
      by_cases hbelow : table.Assignable best.ret c.ret
      · simp only [hbelow, decide_true, Option.bind_eq_bind, Option.bind_some, if_true]
        refine hnext hc (fun least hmem hall => ?_) (.inr rfl)
        rcases List.mem_cons.mp hmem with rfl | hmem
        · have hback := hall c (by simp)
          exact absurd (hback.antisymm h harrays (hc.ret_described h) (hbest.ret_described h) hbelow)
            hsame
        · exact ⟨least, hmem, rfl⟩
      · simp only [hbelow, decide_false, Option.bind_eq_bind, Option.bind_some, Bool.false_eq_true,
          if_false]
        refine hnext hbest (fun least hmem hall => ?_) (.inl rfl)
        rcases List.mem_cons.mp hmem with rfl | hmem
        · exact ⟨least, List.mem_cons_self, rfl⟩
        · rcases List.mem_cons.mp hmem with rfl | hmem
          · exact absurd (hall best (by simp)) hbelow
          · exact ⟨least, List.mem_cons_of_mem _ hmem, rfl⟩

theorem returnsBelow_eq {ret : String} (hret : table.Described ret) (cs : List Candidate) :
    (Hierarchy.freeze table).returnsBelow ret cs =
      some (decide (∀ k ∈ cs, table.Assignable k.ret ret)) := by
  induction cs with
  | nil => simp [Hierarchy.returnsBelow]
  | cons k rest ih =>
    rw [Hierarchy.returnsBelow, isAssignable_eq h harrays k.ret hret, ih]
    by_cases hbelow : table.Assignable k.ret ret <;> simp [hbelow]

/-- A candidate that stands for one that overrides another one overrides that as well. -/
theorem Covers.overrides {a b c : Candidate} (ha : table.Proper name params a)
    (hb : table.Proper name params b) (hc : table.Proper name params c) (hab : table.Covers a b)
    (hbc : table.Overrides b c) : table.Overrides a c := by
  rcases hab.2 with howner | hab'
  · exact ⟨ha.name_eq.trans hc.name_eq.symm, hab.1.trans hbc.2.1, howner ▸ hbc.2.2⟩
  · exact hab'.trans h harrays ha hb hc hbc

omit h harrays in
theorem Covers.ret_eq {k k' : Candidate} (hcovers : table.Covers k k') : k.ret = k'.ret := by
  rw [Candidate.ret, Candidate.ret, Candidate.signature, Candidate.signature, hcovers.1]

omit harrays in
/-- It is enough to look at a list that stands for all candidates. -/
theorem isMostSpecific_iff {C : Candidate → Prop} {cs : List Candidate}
    (hproper : ∀ k, C k → table.Proper name params k) (hcs : table.Merges C cs) {k : Candidate} :
    table.IsMostSpecific C k ↔ C k ∧ ∀ k' ∈ cs, table.Assignable k'.ret k.ret := by
  refine and_congr_right fun hk => ⟨?_, fun hall => ?_⟩
  · rintro ⟨ret, hret, hall⟩ k' hk'
    obtain ⟨ret', hret', hassignable⟩ := hall k' (hcs.sound k' hk')
    rw [((hproper k hk).returns_iff h).mp hret,
      ((hproper k' (hcs.sound k' hk')).returns_iff h).mp hret'] at hassignable
    exact hassignable
  · refine ⟨k.ret, (hproper k hk).returns h, fun k' hk' => ?_⟩
    obtain ⟨k'', hmem, hcovers⟩ := hcs.covers k' hk'
    exact ⟨k'.ret, (hproper k' hk').returns h, hcovers.ret_eq ▸ hall k'' hmem⟩

omit harrays in
theorem agreeOnParams_iff {C : Candidate → Prop} {first : Candidate} {rest : List Candidate}
    (hproper : ∀ k, C k → table.Proper name params k) (hcs : table.Merges C (first :: rest)) :
    AgreeOnParams C ↔ ∀ k ∈ rest, k.params = first.params := by
  have hfirst := hproper first (hcs.sound first List.mem_cons_self)
  constructor
  · rintro ⟨ps, hall⟩ k hk
    have hk' := hcs.sound k (List.mem_cons_of_mem _ hk)
    obtain ⟨ret, hparsed⟩ := hall k hk'
    obtain ⟨ret', hparsed'⟩ := hall first (hcs.sound first List.mem_cons_self)
    exact ((hproper k hk').params_eq_iff h hfirst hparsed hparsed').mpr rfl
  · intro hall
    obtain ⟨_, _, parsed, hparsed, _⟩ := hfirst.accepts
    refine ⟨parsed.params, fun k hk => ?_⟩
    obtain ⟨k', hmem, hcovers⟩ := hcs.covers k hk
    have hk' := hproper k' (hcs.sound k' hmem)
    obtain ⟨_, _, parsed', hparsed', _⟩ := hk'.accepts
    have hsame : k'.params = first.params := by
      rcases List.mem_cons.mp hmem with rfl | hmem
      · rfl
      · exact hall k' hmem
    refine ⟨parsed'.ret, ?_⟩
    rw [← hcovers.1, hparsed', ← (hk'.params_eq_iff h hfirst hparsed' hparsed).mp hsame]

/-- The choice from a list is as good as one from all candidates that the list stands for. -/
theorem mostSpecific_means {C : Candidate → Prop} {cs : List Candidate}
    (hproper : ∀ k, C k → table.Proper name params k) (hcs : table.Merges C cs) :
    table.Means C ((Hierarchy.freeze table).mostSpecific cs) := by
  cases cs with
  | nil =>
    refine means_none ?_
    rintro ⟨⟨k, hk⟩, _⟩
    obtain ⟨_, hmem, _⟩ := hcs.covers k hk
    simp at hmem
  | cons first rest =>
    have hmem : ∀ k ∈ first :: rest, table.Proper name params k := fun k hk => hproper k (hcs.sound k hk)
    obtain ⟨best, hbest, hleast⟩ := bestOf_least h harrays hmem
    have hin : best ∈ first :: rest := Hierarchy.bestOf_mem hbest
    rw [Hierarchy.mostSpecific, hbest]
    by_cases hagree : ∀ k ∈ rest, k.params = first.params
    · rw [if_neg (by simpa using hagree)]
      simp only [Option.bind_eq_bind, Option.bind_some,
        returnsBelow_eq h harrays ((hmem best hin).ret_described h)]
      by_cases hall : ∀ k ∈ first :: rest, table.Assignable k.ret best.ret
      · rw [decide_eq_true hall, if_pos rfl]
        refine means_some ((agreeOnParams_iff h hproper hcs).mpr hagree)
          ((isMostSpecific_iff h hproper hcs).mpr ⟨hcs.sound best hin, hall⟩) fun k hk hover => ?_
        obtain ⟨k', hk', hcovers⟩ := hcs.covers k hk
        exact hcs.apart k' hk' best hin
          (hcovers.overrides h harrays (hmem k' hk') (hproper k hk) (hmem best hin) hover)
      · rw [decide_eq_false hall, if_neg Bool.false_ne_true]
        refine means_none ?_
        rintro ⟨_, _, k, hk⟩
        obtain ⟨hC, hbelow⟩ := (isMostSpecific_iff h hproper hcs).mp hk
        obtain ⟨least, hleastMem, hcovers⟩ := hcs.covers k hC
        rw [← hcovers.ret_eq] at hbelow
        rw [hleast least hleastMem hbelow] at hall
        exact absurd hbelow hall
    · rw [if_pos (by simpa using hagree)]
      exact means_none fun hmeans => hagree ((agreeOnParams_iff h hproper hcs).mp hmeans.2.1)

end Choice

/-- A look-up in a regular hierarchy means what its candidates say. -/
theorem resolve_means (table : ClassTable) (h : table.Regular) (harrays : table.NoArrays)
    (className name : String) (params : List String) :
    table.Means (table.IsCandidate (table.Accepts name params) true className)
      ((Hierarchy.freeze table).resolve className name params) := by
  by_cases hknown : className ∈ table
  · have hdepth : table.Shallow (lookupDepth + 1) className := by
      intro chain hchain
      have hbound := h.shallow _ hchain
      rw [List.length_cons] at hbound
      omega
    obtain ⟨cs, hcs, hmerges⟩ := publicCandidates_merges h harrays hknown hdepth
    rw [Hierarchy.resolve, hcs]
    exact mostSpecific_means h harrays (fun k hk => hk.proper h) hmerges
  · have hnone : table[className]? = none := by
      rwa [Std.HashMap.mem_iff_isSome_getElem?, Option.not_isSome_iff_eq_none] at hknown
    have hresolve : (Hierarchy.freeze table).resolve className name params = none := by
      rw [Hierarchy.resolve, Hierarchy.publicCandidates, Hierarchy.freeze_class?, hnone]
      rfl
    rw [hresolve]
    refine means_none ?_
    rintro ⟨⟨k, hk⟩, _⟩
    cases hk with
    | own hheader _ => simp [hnone] at hheader
    | inherited hheader _ _ _ => simp [hnone] at hheader
    | interface hheader _ _ _ => simp [hnone] at hheader

/-! ## A more specific return type in an interface -/

def objectHeader : ClassHeader := ⟨objectClass, none, [], 0x0021, []⟩

def shapeMethod : MethodHeader := ⟨"f", "()La/Shape;", 0x0401, []⟩

def shapeHeader : ClassHeader := ⟨"a/Shape", some objectClass, [], 0x0601, [shapeMethod]⟩

def initMethod : MethodHeader := ⟨"<init>", "()V", 0x0001, []⟩

def plainMethod : MethodHeader := ⟨"f", "()Ljava/lang/Object;", 0x0001, []⟩

def baseHeader : ClassHeader := ⟨"a/Base", some objectClass, [], 0x0021, [initMethod, plainMethod]⟩

/-- A class with two candidates: one of its superclass, one of its interface. -/
def roundHeader : ClassHeader := ⟨"a/Round", some "a/Base", ["a/Shape"], 0x0021, []⟩

def shapes : ClassTable := ofHeaders [objectHeader, shapeHeader, baseHeader, roundHeader]

theorem shapes_regular : shapes.Regular := by
  refine regular_ofHeaders
    (fun name => if name = "a/Round" then 2 else if name = objectClass then 0 else 1) ?_
  decide

theorem shapes_noArrays : shapes.NoArrays := noArrays_ofHeaders (by decide)

theorem shapes_headers :
    shapes[objectClass]? = some objectHeader ∧ shapes["a/Shape"]? = some shapeHeader ∧
      shapes["a/Base"]? = some baseHeader ∧ shapes["a/Round"]? = some roundHeader := by
  simp only [shapes, getElem?_ofHeaders]
  decide

theorem special_iff (text : String) : text.startsWith "<" = true ↔ text.toList.head? = some '<' := by
  rw [String.startsWith_string_iff]
  show ['<'] <+: _ ↔ _
  cases text.toList <;> simp [eq_comm]

/-- Methods are found in three of the four headers. -/
theorem shapes_candidates {M : MethodHeader → Prop} {includeStatic : Bool} {className : String}
    {k : Candidate} (hk : shapes.IsCandidate M includeStatic className k) :
    M k.method ∧ (k = ⟨shapeHeader, shapeMethod⟩ ∨ k = ⟨baseHeader, initMethod⟩ ∨
      k = ⟨baseHeader, plainMethod⟩) := by
  obtain ⟨⟨_, hheader⟩, hmethod, hmatch⟩ := hk.declared
  obtain ⟨owner, m⟩ := k
  have howner := (of_getElem?_ofHeaders hheader).1
  refine ⟨hmatch, ?_⟩
  simp only [List.mem_cons, List.not_mem_nil, or_false] at howner
  rcases howner with rfl | rfl | rfl | rfl
  · simp [objectHeader] at hmethod
  · obtain rfl : m = shapeMethod := by simpa [shapeHeader] using hmethod
    exact .inl rfl
  · obtain rfl | rfl : m = initMethod ∨ m = plainMethod := by simpa [baseHeader] using hmethod
    · exact .inr (.inl rfl)
    · exact .inr (.inr rfl)
  · simp [roundHeader] at hmethod

/-- The two methods of the name. -/
theorem shapes_candidates_f {includeStatic : Bool} {className : String} {k : Candidate}
    (hk : shapes.IsCandidate (shapes.Accepts "f" []) includeStatic className k) :
    k = ⟨shapeHeader, shapeMethod⟩ ∨ k = ⟨baseHeader, plainMethod⟩ := by
  obtain ⟨hmatch, heq | rfl | heq⟩ := shapes_candidates hk
  · exact .inl heq
  · exact absurd hmatch.2.1 (by decide)
  · exact .inr heq

theorem shapes_accepts {m : MethodHeader} (hm : m = shapeMethod ∨ m = plainMethod) :
    shapes.Accepts "f" [] m := by
  refine ⟨Bool.eq_false_iff.mpr (mt (special_iff "f").mp (by decide)), ?_⟩
  rcases hm with rfl | rfl
  · exact ⟨rfl, ⟨[], "La/Shape;"⟩, by rfl, .nil⟩
  · exact ⟨rfl, ⟨[], "Ljava/lang/Object;"⟩, by rfl, .nil⟩

/-- The method of the interface is found, since its return type is more specific than that of the
superclass. -/
theorem resolve_means_shapes :
    shapes.Regular ∧ shapes.NoArrays ∧ (Hierarchy.freeze shapes).resolve "a/Round" "f" [] =
      some (Candidate.resolved ⟨shapeHeader, shapeMethod⟩) := by
  obtain ⟨_, hshape, hbase, hround⟩ := shapes_headers
  refine ⟨shapes_regular, shapes_noArrays, ?_⟩
  have hmeans := resolve_means shapes shapes_regular shapes_noArrays "a/Round" "f" []
  have hreturns : Candidate.Returns ⟨shapeHeader, shapeMethod⟩ "La/Shape;" := ⟨[], by rfl⟩
  have hreturns' : Candidate.Returns ⟨baseHeader, plainMethod⟩ "Ljava/lang/Object;" := ⟨[], by rfl⟩
  have hnone : ∀ m, ¬ Offers (shapes.Accepts "f" []) true roundHeader m := by
    rintro m ⟨hm, _⟩
    simp [roundHeader] at hm
  have hshapeMethod : shapes.IsCandidate (shapes.Accepts "f" []) true "a/Round"
      ⟨shapeHeader, shapeMethod⟩ := by
    have hown : shapes.IsCandidate (shapes.Accepts "f" []) false "a/Shape" ⟨shapeHeader, shapeMethod⟩ :=
      .own hshape ⟨by decide, by decide, by decide, shapes_accepts (.inl rfl)⟩
    exact .interface hround hnone (by decide) hown
  have hless : shapes.Assignable "Ljava/lang/Object;" "La/Shape;" :=
    .inr ⟨objectClass, "a/Shape", by decide, by decide, .object _⟩
  have hspecific : shapes.IsMostSpecific (shapes.IsCandidate (shapes.Accepts "f" []) true "a/Round")
      ⟨shapeHeader, shapeMethod⟩ := by
    refine ⟨hshapeMethod, _, hreturns, fun k hk => ?_⟩
    rcases shapes_candidates_f hk with rfl | rfl
    · exact ⟨_, hreturns, .inl rfl⟩
    · exact ⟨_, hreturns', hless⟩
  have hagree : AgreeOnParams (shapes.IsCandidate (shapes.Accepts "f" []) true "a/Round") := by
    refine ⟨[], fun k hk => ?_⟩
    rcases shapes_candidates_f hk with rfl | rfl
    · exact ⟨_, by rfl⟩
    · exact ⟨_, by rfl⟩
  obtain ⟨found, hfound⟩ := Option.isSome_iff_exists.mp
    (hmeans.isSome_iff.mpr ⟨⟨_, hshapeMethod⟩, hagree, _, hspecific⟩)
  obtain ⟨k, ⟨hk, ret, hret, hall⟩, rfl, _⟩ := hmeans.chosen found hfound
  rw [hfound]
  rcases shapes_candidates_f hk with rfl | rfl
  · rfl
  · obtain ⟨ret', hret', hassignable⟩ := hall _ hshapeMethod
    rw [hreturns.unique hret', hreturns'.unique hret] at hless
    have hdescribed := hk.proper shapes_regular |>.described_returns shapes_regular hret
    have hdescribed' := hshapeMethod.proper shapes_regular |>.described_returns shapes_regular hret'
    have heq := hless.antisymm shapes_regular shapes_noArrays hdescribed hdescribed' hassignable
    rw [← heq] at hret'
    exact absurd (hreturns.unique hret') (by rw [← hreturns'.unique hret]; decide)

/-! ## Names that break the rule -/

/-- Special names are never found. -/
theorem resolve_special {H : Hierarchy} {className name : String} {params : List String}
    (hname : name.startsWith "<" = true) : H.resolve className name params = none := by
  rw [Option.eq_none_iff_forall_ne_some]
  intro found hfound
  obtain ⟨cs, hcs, hfound⟩ := Option.bind_eq_some_iff.mp hfound
  obtain ⟨best, hbest, _⟩ := Hierarchy.mostSpecific_eq_some hfound
  exact (Hierarchy.isMatch_eq_true (Hierarchy.publicCandidates_allMatch hcs best hbest)).2.1 hname

/-- A constructor is a candidate, but no look-up finds it. -/
theorem shapes_not_means :
    ¬ shapes.Means (shapes.IsCandidate (shapes.Matches "<init>" []) true "a/Base")
      ((Hierarchy.freeze shapes).resolve "a/Base" "<init>" []) := by
  intro hmeans
  have hreturns : Candidate.Returns ⟨baseHeader, initMethod⟩ "V" := ⟨[], by rfl⟩
  have hinit : shapes.IsCandidate (shapes.Matches "<init>" []) true "a/Base" ⟨baseHeader, initMethod⟩ :=
    .own shapes_headers.2.2.1 ⟨by decide, by decide, by decide, rfl, ⟨[], "V"⟩, by rfl, .nil⟩
  have hall : ∀ k, shapes.IsCandidate (shapes.Matches "<init>" []) true "a/Base" k →
      k = ⟨baseHeader, initMethod⟩ := by
    intro k hk
    obtain ⟨hmatch, rfl | heq | rfl⟩ := shapes_candidates hk
    · exact absurd hmatch.1 (by decide)
    · exact heq
    · exact absurd hmatch.1 (by decide)
  have hsome := hmeans.isSome_iff.mpr ⟨⟨_, hinit⟩, ⟨[], fun k hk => hall k hk ▸ ⟨"V", by rfl⟩⟩,
    _, hinit, "V", hreturns, fun k hk => ⟨"V", hall k hk ▸ hreturns, .inl rfl⟩⟩
  rw [resolve_special ((special_iff _).mpr (by decide))] at hsome
  cases hsome

def voidMethod : MethodHeader := ⟨"f", "()V", 0x0401, []⟩

/-- An interface with the name of an array type over an unknown class. -/
def strangeHeader : ClassHeader := ⟨"[La/Unknown;", some objectClass, [], 0x0601, [voidMethod]⟩

def oddHeader : ClassHeader := ⟨"[La/Odd;", some objectClass, [], 0x0601, [voidMethod]⟩

def bothHeader : ClassHeader :=
  ⟨"a/Both", some objectClass, ["[La/Unknown;", "[La/Odd;"], 0x0021, []⟩

def oddities : ClassTable := ofHeaders [objectHeader, strangeHeader, oddHeader, bothHeader]

theorem oddities_regular : oddities.Regular := by
  refine regular_ofHeaders
    (fun name => if name = "a/Both" then 2 else if name = objectClass then 0 else 1) ?_
  decide

theorem oddities_headers :
    oddities[objectClass]? = some objectHeader ∧ oddities["[La/Unknown;"]? = some strangeHeader ∧
      oddities["[La/Odd;"]? = some oddHeader ∧ oddities["a/Both"]? = some bothHeader ∧
      oddities["a/Unknown"]? = none := by
  simp only [oddities, getElem?_ofHeaders]
  decide

/-- As array types, the two interfaces cannot be compared. -/
theorem oddities_isSubtype :
    (Hierarchy.freeze oddities).isSubtype "[La/Odd;" "[La/Unknown;" = none := by
  have hunknown : (Hierarchy.freeze oddities).closure? "a/Unknown" = none := by
    rw [Hierarchy.freeze_closure?, if_neg]
    rw [Std.HashMap.mem_iff_isSome_getElem?, oddities_headers.2.2.2.2]
    exact Bool.false_ne_true
  have hcomponents : Hierarchy.component? "[La/Odd;" = some "La/Odd;" ∧
      Hierarchy.component? "[La/Unknown;" = some "La/Unknown;" ∧
      Hierarchy.component? "a/Unknown" = none ∧ Hierarchy.component? "a/Odd" = none := by decide
  have harray : Descriptor.isArray "a/Odd" = false := by
    rw [Descriptor.isArray_eq, hcomponents.2.2.2]
    rfl
  have hinner : (Hierarchy.freeze oddities).subtypeWithin 12 "a/Odd" "a/Unknown" = none := by
    rw [Hierarchy.subtypeWithin, if_neg (by decide), hcomponents.2.2.1]
    dsimp only
    rw [harray, if_neg Bool.false_ne_true, hunknown]
  have hassignable : Hierarchy.assignableBy ((Hierarchy.freeze oddities).subtypeWithin 12) "La/Odd;"
      "La/Unknown;" = (Hierarchy.freeze oddities).subtypeWithin 12 "a/Odd" "a/Unknown" := by
    have hclass : Descriptor.className? "La/Odd;" = some "a/Odd" ∧
        Descriptor.className? "La/Unknown;" = some "a/Unknown" := by decide
    rw [Hierarchy.assignableBy, if_neg (by decide), if_neg (by decide), hclass.1, hclass.2]
  have hlength : "[La/Unknown;".length = 12 := by decide
  rw [Hierarchy.isSubtype, hlength, Hierarchy.subtypeWithin, if_neg (by decide), hcomponents.2.1]
  dsimp only
  rw [if_neg (by decide), hcomponents.1]
  exact hassignable.trans hinner

theorem oddities_resolve : (Hierarchy.freeze oddities).resolve "a/Both" "f" [] = none := by
  obtain ⟨hobject, hstrange, hodd, hboth, _⟩ := oddities_headers
  have hparsed : MethodDescriptor.parse voidMethod.descriptor = .ok ⟨[], "V"⟩ := by rfl
  have hmatch : (Hierarchy.freeze oddities).isMatch "f" [] voidMethod = some true :=
    Hierarchy.isMatch_exact rfl (mt (special_iff _).mp (by decide)) hparsed rfl
  have hinterface : ∀ {className : String} {header : ClassHeader}, header.methods = [voidMethod] →
      (Hierarchy.freeze oddities).class? className = some header →
      (Hierarchy.freeze oddities).publicCandidates "f" [] 256 false className =
        some [⟨header, voidMethod⟩] := by
    intro className header hmethods hheader
    refine Hierarchy.publicCandidates_of_matching hheader ?_ (List.cons_ne_nil _ _) 255
    have hvisible : Hierarchy.visible false header = [voidMethod] := by
      rw [Hierarchy.visible, hmethods]
      decide
    rw [hvisible]
    simp [Hierarchy.matching, hmatch]
  have habove : (Hierarchy.freeze oddities).publicCandidates "f" [] 256 true objectClass = some [] := by
    rw [publicCandidates_of_no_match (H := Hierarchy.freeze oddities) hobject rfl]
    rfl
  have hopen : (Hierarchy.freeze oddities).addCandidate ⟨oddHeader, voidMethod⟩
      [⟨strangeHeader, voidMethod⟩] = none := by
    rw [Hierarchy.addCandidate, if_neg (by decide)]
    show (Hierarchy.isSubtype _ "[La/Odd;" "[La/Unknown;" >>= _) = none
    rw [oddities_isSubtype]
    rfl
  have hmerge : (Hierarchy.freeze oddities).mergeInterfaces "f" [] 256 [] bothHeader.interfaces = none := by
    have hfirst : (Hierarchy.freeze oddities).addCandidate ⟨strangeHeader, voidMethod⟩ [] =
      some [⟨strangeHeader, voidMethod⟩] := rfl
    simp [Hierarchy.mergeInterfaces, bothHeader, hinterface rfl hstrange, hinterface rfl hodd,
      Hierarchy.addCandidates, hfirst, hopen]
  rw [Hierarchy.resolve, lookupDepth, publicCandidates_of_no_match (H := Hierarchy.freeze oddities) hboth rfl]
  show (((Hierarchy.freeze oddities).publicCandidates "f" [] 256 true objectClass >>= _) >>= _) = none
  rw [habove]
  show ((Hierarchy.freeze oddities).mergeInterfaces "f" [] 256 [] bothHeader.interfaces >>= _) = none
  rw [hmerge]
  rfl

/-- Both interfaces have a candidate, and either would do, but the look-up stays open. -/
theorem oddities_not_means :
    ¬ oddities.Means (oddities.IsCandidate (oddities.Matches "f" []) true "a/Both")
      ((Hierarchy.freeze oddities).resolve "a/Both" "f" []) := by
  intro hmeans
  obtain ⟨_, hstrange, _, hboth, _⟩ := oddities_headers
  have hall : ∀ k, oddities.IsCandidate (oddities.Matches "f" []) true "a/Both" k →
      k.method = voidMethod := by
    intro k hk
    obtain ⟨⟨_, hheader⟩, hmethod, _⟩ := hk.declared
    have howner := (of_getElem?_ofHeaders hheader).1
    simp only [List.mem_cons, List.not_mem_nil, or_false] at howner
    rcases howner with heq | heq | heq | heq <;> rw [heq] at hmethod
    · simp [objectHeader] at hmethod
    · simpa [strangeHeader] using hmethod
    · simpa [oddHeader] using hmethod
    · simp [bothHeader] at hmethod
  have hreturns : ∀ k, oddities.IsCandidate (oddities.Matches "f" []) true "a/Both" k →
      MethodDescriptor.parse k.method.descriptor = .ok ⟨[], "V"⟩ := by
    intro k hk
    rw [hall k hk]
    rfl
  have hown : oddities.IsCandidate (oddities.Matches "f" []) false "[La/Unknown;"
      ⟨strangeHeader, voidMethod⟩ :=
    .own hstrange ⟨by decide, by decide, by decide, rfl, ⟨[], "V"⟩, by rfl, .nil⟩
  have hnone : ∀ m, ¬ Offers (oddities.Matches "f" []) true bothHeader m := by
    rintro m ⟨hm, _⟩
    simp [bothHeader] at hm
  have hcandidate : oddities.IsCandidate (oddities.Matches "f" []) true "a/Both"
      ⟨strangeHeader, voidMethod⟩ := .interface hboth hnone (by decide) hown
  have hsome := hmeans.isSome_iff.mpr ⟨⟨_, hcandidate⟩, ⟨[], fun k hk => ⟨"V", hreturns k hk⟩⟩,
    _, hcandidate, "V", ⟨[], hreturns _ hcandidate⟩, fun k hk => ⟨"V", ⟨[], hreturns k hk⟩, .inl rfl⟩⟩
  rw [oddities_resolve] at hsome
  cases hsome

/-- A look-up does not mean what its candidates say if special names may match, not even if no type has
the name of an array type; nor if types may have such names. -/
theorem not_forall_resolve_means :
    (¬ ∀ table : ClassTable, table.Regular → table.NoArrays → ∀ className name params,
      table.Means (table.IsCandidate (table.Matches name params) true className)
        ((Hierarchy.freeze table).resolve className name params)) ∧
    ¬ ∀ table : ClassTable, table.Regular → ∀ className name params, name.startsWith "<" = false →
      table.Means (table.IsCandidate (table.Matches name params) true className)
        ((Hierarchy.freeze table).resolve className name params) := by
  refine ⟨fun hclaim => ?_, fun hclaim => ?_⟩
  · exact shapes_not_means (hclaim shapes shapes_regular shapes_noArrays "a/Base" "<init>" [])
  · have hplain : "f".startsWith "<" = false := Bool.eq_false_iff.mpr (mt (special_iff _).mp (by decide))
    exact oddities_not_means (hclaim oddities oddities_regular "a/Both" "f" [] hplain)

end ClassTable

end DirectCall
