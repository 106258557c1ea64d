import DirectCall.CallSite.Plan
import DirectCall.Proofs.Hierarchy.Closure
import DirectCall.Proofs.Hierarchy.Lookup
import DirectCall.Proofs.Hierarchy.Regular
import DirectCall.Transformation

/-!
# More classes

An answer of the hierarchy is open when a class that is not known could decide it. So a class that is
added can settle an open answer, but it cannot change one that is settled (`settled_answers_stay`): what
a complete closure reaches is closed, and every look-up fails as a whole at the first open question.
-/

namespace DirectCall

/-! ## Answers that stay -/

/-- The second answer is the first one, if that is settled. -/
def Stays {α : Type} (old new : Option α) : Prop := ∀ a, old = some a → new = some a

namespace Stays

variable {α β : Type} {old new : Option α}

theorem refl (answer : Option α) : Stays answer answer :=
  fun _ h => h

theorem bind {next next' : α → Option β} (h : Stays old new) (hnext : ∀ a, Stays (next a) (next' a)) :
    Stays (old >>= next) (new >>= next') := by
  intro b hb
  obtain ⟨a, ha, hb⟩ := Option.bind_eq_some_iff.mp hb
  exact Option.bind_eq_some_iff.mpr ⟨a, h a ha, hnext a b hb⟩

theorem map {f : α → β} (h : Stays old new) : Stays (old.map f) (new.map f) := by
  intro b hb
  obtain ⟨a, ha, rfl⟩ := Option.map_eq_some_iff.mp hb
  rw [h a ha, Option.map_some]

theorem ite {c : Prop} [Decidable c] {other other' : Option α} (h : Stays old new)
    (h' : Stays other other') : Stays (if c then old else other) (if c then new else other') := by
  split_ifs
  · exact h
  · exact h'

theorem foldlM {f g : β → α → Option β} (h : ∀ b a, Stays (f b a) (g b a)) (start : β) (items : List α) :
    Stays (items.foldlM f start) (items.foldlM g start) := by
  induction items generalizing start with
  | nil => exact refl _
  | cons a rest ih =>
    rw [List.foldlM_cons, List.foldlM_cons]
    exact (h start a).bind ih

end Stays

/-! ## Tables with more classes -/

namespace ClassTable

open Relation

/-- The second table has every class of the first one, with the header that it has there. -/
def Within (table table' : ClassTable) : Prop :=
  ∀ (name : String) (header : ClassHeader), table[name]? = some header → table'[name]? = some header

section

variable {table table' : ClassTable}

theorem Within.mem (h : table.Within table') {name : String} (hname : name ∈ table) : name ∈ table' := by
  obtain ⟨header, hheader⟩ := Option.isSome_iff_exists.mp (Std.HashMap.mem_iff_isSome_getElem?.mp hname)
  exact mem_of_getElem? (h name header hheader)

theorem Within.extends (h : table.Within table') {name above : String} (hstep : table.Extends name above) :
    table'.Extends name above := by
  obtain ⟨header, hheader, hsuper⟩ := hstep
  exact ⟨header, h name header hheader, hsuper⟩

theorem Within.implements (h : table.Within table') {name interface : String}
    (hstep : table.Implements name interface) : table'.Implements name interface := by
  obtain ⟨header, hheader, hmem⟩ := hstep
  exact ⟨header, h name header hheader, hmem⟩

/-- A type that is known takes the same steps in both tables. -/
theorem Within.header_eq (h : table.Within table') {name : String} (hname : name ∈ table) :
    table'[name]? = table[name]? := by
  obtain ⟨header, hheader⟩ := Option.isSome_iff_exists.mp (Std.HashMap.mem_iff_isSome_getElem?.mp hname)
  rw [hheader, h name header hheader]

theorem Within.reaches (h : table.Within table') {name above : String} (hreach : table.Reaches name above) :
    table'.Reaches name above := by
  rcases hreach with hclass | ⟨below, hclass, hinterface⟩
  · exact .inl (ReflTransGen.mono (fun _ _ => h.extends) _ _ hclass)
  · exact .inr ⟨below, ReflTransGen.mono (fun _ _ => h.extends) _ _ hclass,
      TransGen.mono (fun _ _ => h.implements) _ _ hinterface⟩

/-- From a type whose supertypes are all known nothing more is reached. -/
theorem Within.reaches_iff (h : table.Within table') {name above : String}
    (hclosed : ∀ x, table.Reaches name x → x ∈ table) :
    table'.Reaches name above ↔ table.Reaches name above := by
  have hclass : ∀ {x}, ReflTransGen table'.Extends name x → ReflTransGen table.Extends name x := by
    intro x hx
    induction hx with
    | refl => exact .refl
    | tail _ hstep ih =>
      obtain ⟨header, hheader, hsuper⟩ := hstep
      rw [h.header_eq (hclosed _ (.inl ih))] at hheader
      exact ih.tail ⟨header, hheader, hsuper⟩
  constructor
  · rintro (hx | ⟨below, hbelow, hinterface⟩)
    · exact .inl (hclass hx)
    · have hold := hclass hbelow
      refine .inr ⟨below, hold, ?_⟩
      induction hinterface with
      | single hstep =>
        obtain ⟨header, hheader, hmem⟩ := hstep
        rw [h.header_eq (hclosed _ (.inl hold))] at hheader
        exact .single ⟨header, hheader, hmem⟩
      | tail _ hstep ih =>
        obtain ⟨header, hheader, hmem⟩ := hstep
        rw [h.header_eq (hclosed _ (.inr ⟨below, hold, ih⟩))] at hheader
        exact ih.tail ⟨header, hheader, hmem⟩
  · exact h.reaches

end

end ClassTable

namespace Hierarchy

open ClassTable

/-- Whether a closure holds a type, as far as that is known. -/
theorem closure_stays {table table' : ClassTable} (h : table.Within table') {target source : String}
    (hother : target ≠ source) :
    Stays
      (if (table.closure source).contains target then some true
        else if (table.closure source).complete then some false else none)
      (if (table'.closure source).contains target then some true
        else if (table'.closure source).complete then some false else none) := by
  intro answer hanswer
  split_ifs at hanswer with hcontains hcomplete
  · have hreach := h.reaches ((contains_closure hother).mp hcontains)
    rw [if_pos ((contains_closure hother).mpr hreach)]
    exact hanswer
  · -- Everything reached is known, so the larger table reaches the same types and knows them too.
    have hclosed := closure_complete.mp hcomplete
    have hcontains' : ¬ (table'.closure source).contains target = true := by
      rw [contains_closure hother, h.reaches_iff hclosed, ← contains_closure hother]
      exact hcontains
    have hcomplete' : (table'.closure source).complete = true := by
      rw [closure_complete]
      intro x hx
      exact h.mem (hclosed x ((h.reaches_iff hclosed).mp hx))
    rw [if_neg hcontains', if_pos hcomplete']
    exact hanswer

theorem assignableBy_stays {subtype subtype' : String → String → Option Bool}
    (h : ∀ target source, Stays (subtype target source) (subtype' target source))
    (target source : String) : Stays (assignableBy subtype target source) (assignableBy subtype' target source) := by
  unfold assignableBy
  refine (Stays.refl _).ite ((Stays.refl _).ite ?_)
  split
  · exact h _ _
  · exact Stays.refl _

theorem subtypeWithin_stays {table table' : ClassTable} (h : table.Within table') (depth : Nat)
    (target source : String) :
    Stays ((freeze table).subtypeWithin depth target source)
      ((freeze table').subtypeWithin depth target source) := by
  induction depth generalizing target source with
  | zero => exact Stays.refl _
  | succ depth ih =>
    unfold subtypeWithin
    by_cases hsame : target = source ∨ target = objectClass
    · rw [if_pos hsame, if_pos hsame]
      exact Stays.refl _
    · rw [if_neg hsame, if_neg hsame]
      split
      · -- Arrays ask for their components.
        refine (Stays.refl _).ite ?_
        split
        · exact assignableBy_stays ih _ _
        · exact Stays.refl _
      · refine (Stays.refl _).ite ?_
        rw [freeze_closure?, freeze_closure?]
        by_cases hsource : source ∈ table
        · rw [if_pos hsource, if_pos (h.mem hsource)]
          exact closure_stays h (fun heq => hsame (.inl heq))
        · intro answer hanswer
          rw [if_neg hsource] at hanswer
          cases hanswer

/-! ## Look-ups -/

/-- All classes of the first hierarchy are in the second one, and what it knows of subtyping is so
there. -/
structure Upheld (h h' : Hierarchy) : Prop where
  class? : ∀ name, Stays (h.class? name) (h'.class? name)
  isSubtype : ∀ target source, Stays (h.isSubtype target source) (h'.isSubtype target source)

theorem upheld_of_within {table table' : ClassTable} (h : table.Within table') :
    (freeze table).Upheld (freeze table') where
  class? name := h name
  isSubtype target source := subtypeWithin_stays h _ target source

namespace Upheld

variable {h h' : Hierarchy} (hold : h.Upheld h') {name : String} {params : List String}

include hold

theorem isAssignable (target source : String) :
    Stays (h.isAssignable target source) (h'.isAssignable target source) :=
  assignableBy_stays hold.isSubtype target source

theorem paramsMatch (declared requested : List String) :
    Stays (h.paramsMatch declared requested) (h'.paramsMatch declared requested) := by
  induction declared generalizing requested with
  | nil => exact Stays.refl _
  | cons d ds ih =>
    cases requested with
    | nil => exact Stays.refl _
    | cons r rs =>
      refine (hold.isAssignable r d).bind fun below => ?_
      exact (ih rs).ite (Stays.refl _)

theorem isMatch (m : MethodHeader) : Stays (h.isMatch name params m) (h'.isMatch name params m) := by
  unfold Hierarchy.isMatch
  refine (Stays.refl _).ite ?_
  split
  · exact Stays.refl _
  · exact (Stays.refl _).ite (hold.paramsMatch _ _)

theorem matching (owner : ClassHeader) (ms : List MethodHeader) :
    Stays (h.matching name params owner ms) (h'.matching name params owner ms) := by
  induction ms with
  | nil => exact Stays.refl _
  | cons m rest ih =>
    refine (hold.isMatch m).bind fun found => ?_
    exact ih.bind fun others => Stays.refl _

theorem addCandidate (candidate : Candidate) (existing : List Candidate) :
    Stays (h.addCandidate candidate existing) (h'.addCandidate candidate existing) := by
  induction existing with
  | nil => exact Stays.refl _
  | cons current rest ih =>
    have hsubtypes : Stays
        (do
          if ← h.isSubtype candidate.owner.name current.owner.name then return current :: rest
          if ← h.isSubtype current.owner.name candidate.owner.name then h.addCandidate candidate rest
          else (h.addCandidate candidate rest).map (current :: ·))
        (do
          if ← h'.isSubtype candidate.owner.name current.owner.name then return current :: rest
          if ← h'.isSubtype current.owner.name candidate.owner.name then h'.addCandidate candidate rest
          else (h'.addCandidate candidate rest).map (current :: ·)) := by
      refine (hold.isSubtype _ _).bind fun below => (Stays.refl _).ite ?_
      exact (hold.isSubtype _ _).bind fun above => ih.ite ih.map
    unfold Hierarchy.addCandidate
    refine ih.map.ite ?_
    split
    · exact Stays.refl _
    · exact ih
    · exact hsubtypes

theorem addCandidates (existing added : List Candidate) :
    Stays (h.addCandidates existing added) (h'.addCandidates existing added) := by
  induction added generalizing existing with
  | nil => exact Stays.refl _
  | cons candidate rest ih => exact (hold.addCandidate candidate existing).bind ih

theorem publicCandidates (depth : Nat) (includeStatic : Bool) (className : String) :
    Stays (h.publicCandidates name params depth includeStatic className)
      (h'.publicCandidates name params depth includeStatic className) := by
  induction depth generalizing includeStatic className with
  | zero => exact Stays.refl _
  | succ depth ih =>
    unfold Hierarchy.publicCandidates
    refine (hold.class? className).bind fun header => ?_
    refine (hold.matching header _).bind fun found => (Stays.refl _).ite ?_
    have hinterfaces : ∀ inherited, Stays
        (header.interfaces.foldlM (fun existing interface => do
          h.addCandidates existing (← h.publicCandidates name params depth false interface)) inherited)
        (header.interfaces.foldlM (fun existing interface => do
          h'.addCandidates existing (← h'.publicCandidates name params depth false interface)) inherited) := by
      intro inherited
      refine Stays.foldlM (fun existing interface => ?_) inherited header.interfaces
      exact (ih false interface).bind fun cs => hold.addCandidates existing cs
    dsimp only
    split
    · exact (ih includeStatic _).bind hinterfaces
    · exact hinterfaces []

theorem bestOf (best : Candidate) (cs : List Candidate) : Stays (h.bestOf best cs) (h'.bestOf best cs) := by
  induction cs generalizing best with
  | nil => exact Stays.refl _
  | cons c rest ih =>
    refine Stays.ite ?_ (ih best)
    exact (hold.isAssignable _ _).bind fun below => (ih c).ite (ih best)

theorem returnsBelow (ret : String) (cs : List Candidate) :
    Stays (h.returnsBelow ret cs) (h'.returnsBelow ret cs) := by
  induction cs with
  | nil => exact Stays.refl _
  | cons c rest ih => exact (hold.isAssignable _ _).bind fun below => ih.ite (Stays.refl _)

theorem mostSpecific (cs : List Candidate) : Stays (h.mostSpecific cs) (h'.mostSpecific cs) := by
  cases cs with
  | nil => exact Stays.refl _
  | cons first rest =>
    refine (Stays.refl _).ite ((hold.bestOf first rest).bind fun best => ?_)
    exact (hold.returnsBelow best.ret (first :: rest)).bind fun below => Stays.refl _

theorem resolve (className name : String) (params : List String) :
    Stays (h.resolve className name params) (h'.resolve className name params) :=
  (hold.publicCandidates _ true className).bind hold.mostSpecific

theorem resolveDeclared (className name : String) (params : List String) :
    Stays (h.resolveDeclared className name params) (h'.resolveDeclared className name params) := by
  refine (hold.class? className).bind fun header => ?_
  exact (hold.matching header header.methods).bind hold.mostSpecific

end Upheld

/-- Whatever is asked of the first hierarchy, a settled answer is the answer of the second one too, and a
call site that has a method keeps it. -/
structure KeepsAnswers (h h' : Hierarchy) : Prop where
  isSubtype : ∀ target source, Stays (h.isSubtype target source) (h'.isSubtype target source)
  isAssignable : ∀ target source, Stays (h.isAssignable target source) (h'.isAssignable target source)
  resolve : ∀ className name params,
    Stays (h.resolve className name params) (h'.resolve className name params)
  resolveDeclared : ∀ className name params,
    Stays (h.resolveDeclared className name params) (h'.resolveDeclared className name params)
  site : ∀ (ctx : MethodContext) (m : MethodLookup) (resolved : ResolvedMethod),
    { ctx with hierarchy := h }.resolve m = .ok resolved →
      { ctx with hierarchy := h' }.resolve m = .ok resolved

theorem resolve_site_eq_ok {ctx : MethodContext} {m : MethodLookup} {resolved : ResolvedMethod} :
    ctx.resolve m = .ok resolved ↔
      if m.declaredOnly then
        ctx.hierarchy.resolveDeclared m.className m.methodName m.params = some resolved ∧
          resolved.isPublic = true
      else ctx.hierarchy.resolve m.className m.methodName m.params = some resolved := by
  unfold MethodContext.resolve isDeclaredOnly
  cases m.declaredOnly with
  | false =>
    simp only [Bool.false_and, Bool.false_eq_true, if_false]
    split
    · rename_i found hfound
      rw [hfound, Except.ok.injEq, Option.some.injEq]
    · rename_i hfound
      simp [hfound]
  | true =>
    simp only [Bool.true_and, if_true]
    cases ctx.hierarchy.resolveDeclared m.className m.methodName m.params with
    | none => simp
    | some found =>
      cases hpublic : found.isPublic with
      | true =>
        simp only [hpublic, Bool.not_true, Bool.false_eq_true, if_false, Except.ok.injEq, Option.some.injEq]
        constructor
        · rintro rfl
          exact ⟨rfl, hpublic⟩
        · exact And.left
      | false =>
        simp only [hpublic, Bool.not_false, if_true, Option.some.injEq]
        constructor
        · intro herror
          cases herror
        · rintro ⟨rfl, hpublic'⟩
          rw [hpublic] at hpublic'
          cases hpublic'

theorem Upheld.keepsAnswers {h h' : Hierarchy} (hold : h.Upheld h') : h.KeepsAnswers h' where
  isSubtype := hold.isSubtype
  isAssignable := hold.isAssignable
  resolve := hold.resolve
  resolveDeclared := hold.resolveDeclared
  site ctx m resolved hresolved := by
    rw [resolve_site_eq_ok] at hresolved ⊢
    cases hdeclared : m.declaredOnly with
    | false =>
      rw [hdeclared, if_neg Bool.false_ne_true] at hresolved
      exact hold.resolve _ _ _ _ hresolved
    | true =>
      rw [hdeclared, if_pos rfl] at hresolved
      exact ⟨hold.resolveDeclared _ _ _ _ hresolved.1, hresolved.2⟩

end Hierarchy

namespace ClassTable

/-- Classes that are added behind others leave those as they are. -/
theorem ofHeaders_within (headers added : List ClassHeader) :
    (ofHeaders headers).Within (ofHeaders (headers ++ added)) := by
  intro name header hheader
  rw [getElem?_ofHeaders] at hheader ⊢
  rw [List.find?_append, hheader, Option.some_or]

/-- More classes never change a settled answer: a hierarchy with all classes of another one keeps the
answers of that, and so does the hierarchy of a pool with more modules behind the ones it has. -/
theorem settled_answers_stay :
    (∀ table table' : ClassTable, table.Within table' →
      (Hierarchy.freeze table).KeepsAnswers (Hierarchy.freeze table')) ∧
    ∀ (pool : ResourcePool) (modules : List ResourceModule) (entries : List ResourceEntry),
      pool.hierarchy.KeepsAnswers
        (ResourcePool.mk (pool.modules ++ modules) (pool.entries ++ entries)).hierarchy := by
  refine ⟨fun table table' h => (Hierarchy.upheld_of_within h).keepsAnswers, ?_⟩
  intro pool modules entries
  have hwithin := ofHeaders_within (pool.entries.filterMap (·.header?)) (entries.filterMap (·.header?))
  rw [← List.filterMap_append] at hwithin
  exact (Hierarchy.upheld_of_within hwithin).keepsAnswers

/-! ## A superclass that is added -/

def ownMethod : MethodHeader := ⟨"f", "()V", 0x0001, []⟩

def inheritedMethod : MethodHeader := ⟨"g", "()V", 0x0001, []⟩

/-- A class with a method of its own, and a superclass. -/
def lowerClass : ClassHeader := ⟨"a/Lower", some "a/Upper", [], 0x0021, [ownMethod]⟩

def upperClass : ClassHeader := ⟨"a/Upper", none, [], 0x0021, [inheritedMethod]⟩

/-- The superclass is missing. -/
def lowerOnly : ClassTable := ofHeaders [lowerClass]

def lowerAndUpper : ClassTable := ofHeaders [lowerClass, upperClass]

theorem lowerOnly_headers :
    (Hierarchy.freeze lowerOnly).class? "a/Lower" = some lowerClass ∧
    (Hierarchy.freeze lowerOnly).class? "a/Upper" = none := by
  rw [Hierarchy.freeze_class?, Hierarchy.freeze_class?, lowerOnly, getElem?_ofHeaders, getElem?_ofHeaders]
  decide

theorem lowerAndUpper_headers :
    (Hierarchy.freeze lowerAndUpper).class? "a/Lower" = some lowerClass ∧
    (Hierarchy.freeze lowerAndUpper).class? "a/Upper" = some upperClass := by
  rw [Hierarchy.freeze_class?, Hierarchy.freeze_class?, lowerAndUpper, getElem?_ofHeaders,
    getElem?_ofHeaders]
  decide

theorem lowerAndUpper_matches (h : Hierarchy) :
    h.matching "f" [] lowerClass (Hierarchy.visible true lowerClass) = some [⟨lowerClass, ownMethod⟩] ∧
    h.matching "g" [] lowerClass (Hierarchy.visible true lowerClass) = some [] ∧
    h.matching "g" [] upperClass (Hierarchy.visible true upperClass) =
      some [⟨upperClass, inheritedMethod⟩] := by
  have hparsed : MethodDescriptor.parse "()V" = .ok ⟨[], "V"⟩ := by rfl
  have hown : h.isMatch "f" [] ownMethod = some true :=
    Hierarchy.isMatch_exact rfl (by simp) hparsed rfl
  have hother : h.isMatch "g" [] ownMethod = some false := rfl
  have hinherited : h.isMatch "g" [] inheritedMethod = some true :=
    Hierarchy.isMatch_exact rfl (by simp) hparsed rfl
  have hlower : Hierarchy.visible true lowerClass = [ownMethod] := by decide
  have hupper : Hierarchy.visible true upperClass = [inheritedMethod] := by decide
  rw [hlower, hupper]
  simp [Hierarchy.matching, hown, hother, hinherited]

/-- The method of the class itself stays its answer; the inherited one is found when the superclass is
there. -/
theorem settled_answers_stay_lower :
    lowerOnly.Within lowerAndUpper ∧
    (Hierarchy.freeze lowerOnly).resolve "a/Lower" "f" [] =
      some (Candidate.resolved ⟨lowerClass, ownMethod⟩) ∧
    (Hierarchy.freeze lowerAndUpper).resolve "a/Lower" "f" [] =
      some (Candidate.resolved ⟨lowerClass, ownMethod⟩) ∧
    (Hierarchy.freeze lowerOnly).resolve "a/Lower" "g" [] = none ∧
    (Hierarchy.freeze lowerAndUpper).resolve "a/Lower" "g" [] =
      some (Candidate.resolved ⟨upperClass, inheritedMethod⟩) := by
  have hwithin : lowerOnly.Within lowerAndUpper := ofHeaders_within [lowerClass] [upperClass]
  have hmatches := lowerAndUpper_matches (Hierarchy.freeze lowerOnly)
  have hmatches' := lowerAndUpper_matches (Hierarchy.freeze lowerAndUpper)
  have hown : (Hierarchy.freeze lowerOnly).resolve "a/Lower" "f" [] =
      some (Candidate.resolved ⟨lowerClass, ownMethod⟩) :=
    Hierarchy.resolve_of_single <| Hierarchy.publicCandidates_of_matching lowerOnly_headers.1 hmatches.1
      (List.cons_ne_nil _ _) _
  have hopen : (Hierarchy.freeze lowerOnly).resolve "a/Lower" "g" [] = none := by
    have habove : (Hierarchy.freeze lowerOnly).publicCandidates "g" [] 256 true "a/Upper" = none := by
      show ((Hierarchy.freeze lowerOnly).class? "a/Upper" >>= _) = none
      rw [lowerOnly_headers.2]
      rfl
    rw [Hierarchy.resolve, lookupDepth,
      Hierarchy.publicCandidates_of_superclass lowerOnly_headers.1 hmatches.2.1 rfl rfl, habove]
    rfl
  have hfound : (Hierarchy.freeze lowerAndUpper).resolve "a/Lower" "g" [] =
      some (Candidate.resolved ⟨upperClass, inheritedMethod⟩) := by
    apply Hierarchy.resolve_of_single
    rw [lookupDepth,
      Hierarchy.publicCandidates_of_superclass lowerAndUpper_headers.1 hmatches'.2.1 rfl rfl]
    exact Hierarchy.publicCandidates_of_matching lowerAndUpper_headers.2 hmatches'.2.2
      (List.cons_ne_nil _ _) 255
  exact ⟨hwithin, hown, (settled_answers_stay.1 _ _ hwithin).resolve _ _ _ _ hown, hopen, hfound⟩

end ClassTable

end DirectCall
