import DirectCall.Proofs.Hierarchy.Regular
import DirectCall.Proofs.Verification.Join
import Mathlib.Data.List.Chain

/-!
# What a subtype question is answered

For two names that are not those of array types the answer is yes, no or open: yes for the supertypes that links
lead to, no if none of the types on the way is missing (`isSubtype_answers`). Nothing is assumed of the classes for
that. Where types that are implemented are interfaces, and the root class and the interfaces of arrays have no
supertypes of their own, the answer yes is transitive, array types included (`isSubtype_trans`).
-/

namespace DirectCall

open Relation

namespace ClassTable

variable {table : ClassTable}

/-! ## The chain of superclasses -/

/-- The superclass chain of a type: each name is the superclass of the one before it, none comes twice, and the
last one has no superclass that is not in the chain. A type that is missing is the last one, for it has none. -/
structure IsSuperChain (table : ClassTable) (start : String) (chain : List String) : Prop where
  linked : (start :: chain).IsChain table.Extends
  nodup : (start :: chain).Nodup
  ended : ∀ above, table.Extends ((start :: chain).getLast (List.cons_ne_nil _ _)) above → above ∈ start :: chain

theorem superChain_linked (steps : Nat) (name : String) (older : List String) (hnodup : (name :: older).Nodup) :
    (name :: (table.superChain steps (name :: older) name).1).IsChain table.Extends ∧
      (name :: (table.superChain steps (name :: older) name).1 ++ older).Nodup := by
  have hstop : ([name] : List String).IsChain table.Extends ∧ ([name] ++ older).Nodup :=
    ⟨.singleton name, hnodup⟩
  induction steps generalizing name older with
  | zero => exact hstop
  | succ steps ih =>
    unfold superChain
    split
    · exact hstop
    · rename_i header hheader
      split
      · exact hstop
      · rename_i above hsuper
        split_ifs with hseen
        · exact hstop
        · have hfresh : above ∉ name :: older := fun hmem => hseen (List.contains_iff_mem.mpr hmem)
          have hnodup' : (above :: name :: older).Nodup := List.nodup_cons.mpr ⟨hfresh, hnodup⟩
          obtain ⟨hlinked, hdistinct⟩ := ih above (name :: older) hnodup' ⟨.singleton above, hnodup'⟩
          refine ⟨.cons_cons ⟨header, hheader, hsuper⟩ hlinked, ?_⟩
          exact List.nodup_middle.mp hdistinct

theorem superclasses_isSuperChain (start : String) : table.IsSuperChain start (table.superclasses start).1 := by
  obtain ⟨hlinked, hnodup⟩ := table.superChain_linked (table.size + 1) start [] (List.nodup_singleton start)
  rw [List.append_nil] at hnodup
  refine ⟨hlinked, hnodup, fun above hextends => ?_⟩
  rcases (table.superclasses_climbs start).closed _ (List.getLast_mem _) above hextends with hmem | hmem
  · exact List.mem_cons.mpr (.inl (List.mem_singleton.mp hmem))
  · exact List.mem_cons_of_mem _ hmem

theorem Extends.unique {name above above' : String} (h : table.Extends name above)
    (h' : table.Extends name above') : above = above' := by
  obtain ⟨header, hheader, hsuper⟩ := h
  obtain ⟨header', hheader', hsuper'⟩ := h'
  obtain rfl := Option.some.inj (hheader.symm.trans hheader')
  exact Option.some.inj (hsuper.symm.trans hsuper')

theorem extends_of_linked {start x : String} {chain : List String}
    (hlinked : (start :: chain).IsChain table.Extends) (hx : x ∈ start :: chain) :
    ReflTransGen table.Extends start x := by
  induction chain generalizing start with
  | nil =>
    rw [List.mem_singleton.mp hx]
  | cons above chain ih =>
    obtain ⟨hstep, hrest⟩ := List.isChain_cons_cons.mp hlinked
    rcases List.mem_cons.mp hx with rfl | hx
    · exact .refl
    · exact .head hstep (ih hrest hx)

/-- The chain is nothing but the superclasses. -/
theorem IsSuperChain.mem_iff {start x : String} {chain : List String} (h : table.IsSuperChain start chain) :
    x ∈ start :: chain ↔ ReflTransGen table.Extends start x := by
  refine ⟨extends_of_linked h.linked, fun hreach => ?_⟩
  induction hreach with
  | refl => exact List.mem_cons_self
  | @tail below above _ hstep ih =>
    obtain ⟨front, rest, hsplit⟩ := List.append_of_mem ih
    cases rest with
    | nil =>
      refine h.ended above ?_
      simpa only [hsplit, List.getLast_append_singleton] using hstep
    | cons next rest =>
      have hnext : table.Extends below next := (List.isChain_append_cons_cons.mp (hsplit ▸ h.linked)).2.1
      rw [hsplit, hstep.unique hnext]
      simp

/-- A supertype that is met by way of the chain: it is on the chain, or links between interfaces lead to it. -/
def Above (table : ClassTable) (start : String) (chain : List String) (x : String) : Prop :=
  x ∈ chain ∨ ∃ below ∈ start :: chain, TransGen table.Implements below x

theorem IsSuperChain.reaches_iff {start x : String} {chain : List String} (h : table.IsSuperChain start chain) :
    table.Reaches start x ↔ x = start ∨ table.Above start chain x := by
  rw [Reaches, Above, ← h.mem_iff, List.mem_cons, or_assoc]
  simp only [← h.mem_iff]

/-! ## Names that are not those of array types -/

/-- One of three answers: yes, no, or open because too little is known. -/
structure Answers (answer : Option Bool) (yes known : Prop) : Prop where
  isTrue : answer = some true ↔ yes
  isFalse : answer = some false ↔ ¬ yes ∧ known
  isOpen : answer = none ↔ ¬ yes ∧ ¬ known

theorem isSubtype_answers {target source : String} (htarget : Descriptor.isArray target = false)
    (hsource : Descriptor.isArray source = false) :
    Answers ((Hierarchy.freeze table).isSubtype target source)
      (target = source ∨ target = objectClass ∨ source ∈ table ∧ table.Reaches source target)
      (∀ x, table.Reaches source x → x ∈ table) := by
  by_cases hsame : target = source ∨ target = objectClass
  · have hyes : target = source ∨ target = objectClass ∨ source ∈ table ∧ table.Reaches source target :=
      hsame.imp_right .inl
    rw [Hierarchy.isSubtype, VerificationType.subtypeWithin_same hsame]
    exact ⟨iff_of_true rfl hyes, iff_of_false nofun fun h => h.1 hyes, iff_of_false nofun fun h => h.1 hyes⟩
  · obtain ⟨hne, hobject⟩ := not_or.mp hsame
    rw [Descriptor.isArray_eq, Option.isSome_eq_false_iff, Option.isNone_iff_eq_none] at hsource
    have hmem : (∀ x, table.Reaches source x → x ∈ table) → source ∈ table := fun hall => hall source (.inl .refl)
    rw [Hierarchy.isSubtype, subtypeWithin_plain hsource hne hobject, htarget, if_neg Bool.false_ne_true]
    rw [← closure_complete] at hmem ⊢
    simp only [hne, hobject, false_or]
    split_ifs with hknown hreach hcomplete
    · exact ⟨iff_of_true rfl ⟨hknown, hreach⟩, iff_of_false nofun fun h => h.1 ⟨hknown, hreach⟩,
        iff_of_false nofun fun h => h.1 ⟨hknown, hreach⟩⟩
    · exact ⟨iff_of_false nofun fun h => hreach h.2, iff_of_true rfl ⟨fun h => hreach h.2, hcomplete⟩,
        iff_of_false nofun fun h => h.2 hcomplete⟩
    · exact ⟨iff_of_false nofun fun h => hreach h.2, iff_of_false nofun fun h => hcomplete h.2,
        iff_of_true rfl ⟨fun h => hreach h.2, hcomplete⟩⟩
    · exact ⟨iff_of_false nofun fun h => hknown h.1, iff_of_false nofun fun h => hknown (hmem h.2),
        iff_of_true rfl ⟨fun h => hknown h.1, fun h => hknown (hmem h)⟩⟩

end ClassTable

/-! ## Array types -/

namespace Hierarchy

variable {h : Hierarchy}

theorem assignableBy_congr {subtype subtype' : String → String → Option Bool} {target source : String}
    (heq : ∀ above below, Descriptor.className? target = some above →
      Descriptor.className? source = some below → subtype above below = subtype' above below) :
    assignableBy subtype target source = assignableBy subtype' target source := by
  unfold assignableBy
  split_ifs
  · rfl
  · rfl
  · split
    · rename_i above below habove hbelow
      exact heq above below habove hbelow
    · rfl

/-- It is enough to look as deep as the name has characters. -/
theorem subtypeWithin_eq_isSubtype {depth : Nat} {source : String} (target : String)
    (hdepth : source.length < depth) : h.subtypeWithin depth target source = h.isSubtype target source := by
  have hdeeper : ∀ (depth depth' : Nat) (target source : String), source.length < depth →
      source.length < depth' → h.subtypeWithin depth target source = h.subtypeWithin depth' target source := by
    intro depth
    induction depth with
    | zero => exact fun _ _ _ hdepth => absurd hdepth (Nat.not_lt_zero _)
    | succ depth ih =>
      intro depth' target source hdepth hdepth'
      obtain ⟨depth', rfl⟩ := Nat.exists_eq_succ_of_ne_zero (Nat.ne_zero_of_lt hdepth')
      rw [subtypeWithin, Nat.succ_eq_add_one, subtypeWithin]
      cases hcomponent : component? source with
      | none => rfl
      | some component =>
        have hlength := Descriptor.length_component? hcomponent
        have hinner : ∀ component', assignableBy (h.subtypeWithin depth) component' component =
            assignableBy (h.subtypeWithin depth') component' component := by
          refine fun component' => assignableBy_congr fun above below _ hbelow => ?_
          have hless := Descriptor.length_className?_le hbelow
          exact ih depth' above below (by omega) (by omega)
        simp only [hinner]
  exact hdeeper depth _ target source hdepth (Nat.lt_succ_self _)

theorem isAssignable_eq_true {target source : String} : h.isAssignable target source = some true ↔
    target = source ∨ ∃ above below, Descriptor.className? target = some above ∧
      Descriptor.className? source = some below ∧ h.isSubtype above below = some true := by
  have hprimitive : ∀ {d name : String}, Descriptor.className? d = some name →
      ¬ Descriptor.isPrimitive d = true := by
    intro d name hname hd
    rw [Descriptor.className?_of_isPrimitive hd] at hname
    cases hname
  unfold isAssignable assignableBy
  constructor
  · intro htrue
    split_ifs at htrue with heq hreference
    · exact .inl heq
    · cases htrue
    · split at htrue
      · rename_i above below habove hbelow
        exact .inr ⟨above, below, habove, hbelow, htrue⟩
      · cases htrue
  · rintro (heq | ⟨above, below, habove, hbelow, htrue⟩)
    · rw [if_pos heq]
    · rw [if_neg (by simp [hprimitive habove, hprimitive hbelow] : ¬ (_ || _) = true), habove, hbelow]
      split_ifs
      · rfl
      · exact htrue

end Hierarchy

namespace ClassTable

open Hierarchy (freeze component? isArrayInterface)

variable {table : ClassTable}

/-- A value of the one type can be used for the other one, all told: the types are one, or the other is the root
class; or a class reaches it; or it is an interface of arrays, or the components are assignable. -/
theorem isSubtype_eq_true {target source : String} : (freeze table).isSubtype target source = some true ↔
    target = source ∨ target = objectClass ∨
      (component? source = none ∧ component? target = none ∧ table.Reaches source target) ∨
      ∃ component, component? source = some component ∧ (isArrayInterface target = true ∨
        ∃ component', component? target = some component' ∧
          (freeze table).isAssignable component' component = some true) := by
  by_cases hsame : target = source ∨ target = objectClass
  · exact iff_of_true (VerificationType.subtypeWithin_same hsame _) (hsame.imp_right .inl)
  · obtain ⟨hne, hobject⟩ := not_or.mp hsame
    cases hcomponent : component? source with
    | none =>
      rw [Hierarchy.isSubtype, VerificationType.subtypeWithin_eq_true hcomponent hsame]
      simp [hne, hobject]
    | some component =>
      have hinner : ∀ component', Hierarchy.assignableBy ((freeze table).subtypeWithin source.length) component'
          component = (freeze table).isAssignable component' component := by
        refine fun component' => Hierarchy.assignableBy_congr fun above below _ hbelow => ?_
        have hlength := Descriptor.length_component? hcomponent
        have hless := Descriptor.length_className?_le hbelow
        exact Hierarchy.subtypeWithin_eq_isSubtype above (by omega)
      rw [Hierarchy.isSubtype, Hierarchy.subtypeWithin, if_neg hsame, hcomponent]
      dsimp only
      simp only [hinner]
      split_ifs with hinterface
      · exact iff_of_true rfl (.inr (.inr (.inr ⟨component, rfl, .inl hinterface⟩)))
      · cases htarget : component? target with
        | none => simp [hne, hobject, hinterface]
        | some component' => simp [hne, hobject, hinterface]

/-! ## Transitivity -/

/-- The root class and the interfaces of arrays name no supertypes but the root class. -/
def RootsPlain (table : ClassTable) : Prop :=
  ∀ name above, name = objectClass ∨ isArrayInterface name = true → table.Link name above → above = objectClass

theorem RootsPlain.of_reached (hroots : table.RootsPlain) {name above : String}
    (hname : name = objectClass ∨ isArrayInterface name = true) (hreach : ReflTransGen table.Link name above) :
    above = name ∨ above = objectClass := by
  induction hreach with
  | refl => exact .inl rfl
  | tail _ hstep ih =>
    rcases ih with rfl | rfl
    · exact .inr (hroots _ _ hname hstep)
    · exact .inr (hroots _ _ (.inl rfl) hstep)

/-- No superclass is met behind an interface, so superclasses come first all the way. -/
theorem Reaches.trans (himplemented : table.Implemented) {a b c : String} (hab : table.Reaches a b)
    (hbc : table.Reaches b c) : table.Reaches a c := by
  rcases hab with hab | ⟨below, hbelow, hinterfaces⟩
  · rcases hbc with hbc | ⟨below, hbelow, hinterfaces⟩
    · exact .inl (hab.trans hbc)
    · exact .inr ⟨below, hab.trans hbelow, hinterfaces⟩
  · have hstop : ∀ {x}, ReflTransGen table.Extends b x → x = b := by
      intro x hx
      rcases ReflTransGen.cases_head hx with heq | ⟨_, ⟨header, hheader, hsuper⟩, _⟩
      · exact heq.symm
      · obtain ⟨_, _, hlast⟩ := TransGen.tail'_iff.mp hinterfaces
        simp [ClassHeader.superclass?, himplemented _ _ header hlast hheader] at hsuper
    rcases hbc with hbc | ⟨below', hbelow', hinterfaces'⟩
    · rw [hstop hbc]
      exact .inr ⟨below, hbelow, hinterfaces⟩
    · rw [hstop hbelow'] at hinterfaces'
      exact .inr ⟨below, hbelow, hinterfaces.trans hinterfaces'⟩

theorem isAssignable_trans {a b c : String} {n : Nat}
    (hsubtype : ∀ a b c : String, a.length < n → (freeze table).isSubtype b a = some true →
      (freeze table).isSubtype c b = some true → (freeze table).isSubtype c a = some true)
    (hlength : a.length < n) (hab : (freeze table).isAssignable b a = some true)
    (hbc : (freeze table).isAssignable c b = some true) : (freeze table).isAssignable c a = some true := by
  rcases Hierarchy.isAssignable_eq_true.mp hab with rfl | ⟨above, below, habove, hbelow, hsub⟩
  · exact hbc
  · rcases Hierarchy.isAssignable_eq_true.mp hbc with rfl | ⟨above', below', habove', hbelow', hsub'⟩
    · exact hab
    · obtain rfl := Option.some.inj (habove.symm.trans hbelow')
      have hless := Descriptor.length_className?_le hbelow
      exact Hierarchy.isAssignable_eq_true.mpr
        (.inr ⟨above', below, habove', hbelow, hsubtype below above above' (by omega) hsub hsub'⟩)

/-- Array types lead to shorter names, so the induction is on the length of the first name. -/
theorem isSubtype_trans (himplemented : table.Implemented) (hroots : table.RootsPlain) {a b c : String}
    (hab : (freeze table).isSubtype b a = some true) (hbc : (freeze table).isSubtype c b = some true) :
    (freeze table).isSubtype c a = some true := by
  have hshorter : ∀ n, ∀ a b c : String, a.length < n → (freeze table).isSubtype b a = some true →
      (freeze table).isSubtype c b = some true → (freeze table).isSubtype c a = some true := by
    intro n
    induction n with
    | zero => exact fun _ _ _ hlength => absurd hlength (Nat.not_lt_zero _)
    | succ n ih =>
      intro a b c hlength hab hbc
      have hroot : c = objectClass → (freeze table).isSubtype c a = some true := fun hc =>
        VerificationType.subtypeWithin_same (.inr hc) _
      rcases isSubtype_eq_true.mp hbc with rfl | hc | ⟨hb, hc, hreach⟩ | ⟨component, hb, hc⟩
      · exact hab
      · exact hroot hc
      · rcases isSubtype_eq_true.mp hab with rfl | rfl | ⟨ha, _, hreach'⟩ | ⟨_, ha, hinterface | ⟨_, hb', _⟩⟩
        · exact hbc
        · exact hroot ((hroots.of_reached (.inl rfl) hreach.links).elim id id)
        · exact isSubtype_eq_true.mpr (.inr (.inr (.inl ⟨ha, hc, hreach'.trans himplemented hreach⟩)))
        · rcases hroots.of_reached (.inr hinterface) hreach.links with rfl | hc
          · exact hab
          · exact hroot hc
        · cases hb.symm.trans hb'
      · rcases isSubtype_eq_true.mp hab with rfl | rfl | ⟨_, hb', _⟩ | ⟨component', ha, hinterface | ⟨_, hb', hinner⟩⟩
        · exact hbc
        · exact absurd hb (object_component? component)
        · cases hb.symm.trans hb'
        · exact absurd hb (arrayInterface_component? hinterface component)
        · obtain rfl := Option.some.inj (hb.symm.trans hb')
          refine isSubtype_eq_true.mpr (.inr (.inr (.inr ⟨component', ha, ?_⟩)))
          rcases hc with hinterface | ⟨component'', hc, hinner'⟩
          · exact .inl hinterface
          · have hless := Descriptor.length_component? ha
            exact .inr ⟨component'', hc, isAssignable_trans ih (by omega) hinner hinner'⟩
  exact hshorter (a.length + 1) a b c (Nat.lt_succ_self _) hab hbc

/-! ## Headers that are added one after another -/

theorem Implemented.of_headers {headers : List ClassHeader}
    (h : ∀ header ∈ headers, ∀ above ∈ header.interfaces, AreInterfaces headers above true) :
    (ofHeaders headers).Implemented := by
  intro name above header hlink hheader
  obtain ⟨below, hbelow, _, habove⟩ := implements_ofHeaders hlink
  obtain ⟨hlisted, hname⟩ := of_getElem?_ofHeaders hheader
  exact h below hbelow above habove header hlisted hname

theorem RootsPlain.of_headers {headers : List ClassHeader}
    (h : ∀ header ∈ headers, header.name = objectClass ∨ isArrayInterface header.name = true →
      ∀ above ∈ header.superclass?.toList ++ header.interfaces, above = objectClass) :
    (ofHeaders headers).RootsPlain := by
  rintro name above hname (hlink | hlink)
  · obtain ⟨header, hlisted, rfl, habove⟩ := extends_ofHeaders hlink
    exact h header hlisted hname above (List.mem_append_left _ habove)
  · obtain ⟨header, hlisted, rfl, habove⟩ := implements_ofHeaders hlink
    exact h header hlisted hname above (List.mem_append_right _ habove)

/-- Of a frozen table: the first header of a name counts, so that classes may be added twice, types may be missing,
and supertypes may go round in circles. Of two names that are not those of array types, the second one is a subtype
of the first one, or is not, or it is open which. The answer yes is transitive, for array types too. -/
theorem isSubtype_exact (headers : List ClassHeader) :
    (∀ name, (freeze (ofHeaders headers)).class? name =
      headers.find? fun header => !header.name.isEmpty && header.name == name) ∧
    (∀ source, ∃ chain, (ofHeaders headers).IsSuperChain source chain) ∧
    (∀ target source chain, Descriptor.isArray target = false → Descriptor.isArray source = false →
      (ofHeaders headers).IsSuperChain source chain →
      Answers ((freeze (ofHeaders headers)).isSubtype target source)
        (target = source ∨ target = objectClass ∨
          source ∈ ofHeaders headers ∧ (ofHeaders headers).Above source chain target)
        (source ∈ ofHeaders headers ∧ ∀ x, (ofHeaders headers).Above source chain x → x ∈ ofHeaders headers)) ∧
    ((ofHeaders headers).Implemented → (ofHeaders headers).RootsPlain → ∀ a b c,
      (freeze (ofHeaders headers)).isSubtype b a = some true →
      (freeze (ofHeaders headers)).isSubtype c b = some true →
      (freeze (ofHeaders headers)).isSubtype c a = some true) := by
  refine ⟨fun name => ?_, fun source => ⟨_, superclasses_isSuperChain source⟩, ?_, ?_⟩
  · rw [Hierarchy.freeze_class?, getElem?_ofHeaders]
  · intro target source chain htarget hsource hchain
    have hyes : target = source ∨ target = objectClass ∨
        source ∈ ofHeaders headers ∧ (ofHeaders headers).Reaches source target ↔
          target = source ∨ target = objectClass ∨
            source ∈ ofHeaders headers ∧ (ofHeaders headers).Above source chain target := by
      rw [hchain.reaches_iff]
      tauto
    have hknown : (∀ x, (ofHeaders headers).Reaches source x → x ∈ ofHeaders headers) ↔
        source ∈ ofHeaders headers ∧ ∀ x, (ofHeaders headers).Above source chain x → x ∈ ofHeaders headers := by
      simp only [hchain.reaches_iff, or_imp, forall_and, forall_eq]
    rw [← hyes, ← hknown]
    exact isSubtype_answers htarget hsource
  · exact fun himplemented hroots a b c => isSubtype_trans himplemented hroots

/-- A class that implements an unknown interface, a class that extends itself, and a class that is added twice. -/
def gaps : List ClassHeader :=
  [⟨objectClass, none, [], 0x0021, []⟩, ⟨"a/Shape", some objectClass, [], 0x0601, []⟩,
    ⟨"a/Base", some objectClass, ["a/Shape"], 0x0021, []⟩, ⟨"a/Round", some "a/Base", ["a/Gone"], 0x0021, []⟩,
    ⟨"a/Ring", some "a/Ring", [], 0x0021, []⟩, ⟨"a/Round", none, [], 0x0021, []⟩]

theorem gaps_headers :
    (ofHeaders gaps)[objectClass]? = some ⟨objectClass, none, [], 0x0021, []⟩ ∧
      (ofHeaders gaps)["a/Base"]? = some ⟨"a/Base", some objectClass, ["a/Shape"], 0x0021, []⟩ ∧
      (ofHeaders gaps)["a/Round"]? = some ⟨"a/Round", some "a/Base", ["a/Gone"], 0x0021, []⟩ ∧
      (ofHeaders gaps)["a/Ring"]? = some ⟨"a/Ring", some "a/Ring", [], 0x0021, []⟩ ∧
      (ofHeaders gaps)["a/Gone"]? = none := by
  simp only [getElem?_ofHeaders]
  decide

theorem gaps_chains :
    (ofHeaders gaps).IsSuperChain "a/Round" ["a/Base", objectClass] ∧
      (ofHeaders gaps).IsSuperChain "a/Base" [objectClass] ∧ (ofHeaders gaps).IsSuperChain "a/Ring" [] := by
  obtain ⟨hobject, hbase, hround, hring, _⟩ := gaps_headers
  have htop : ∀ above, ¬ (ofHeaders gaps).Extends objectClass above := by
    rintro above ⟨header, hheader, hsuper⟩
    obtain rfl := Option.some.inj (hobject.symm.trans hheader)
    cases hsuper
  have hlinked : ["a/Base", objectClass].IsChain (ofHeaders gaps).Extends :=
    .cons_cons ⟨_, hbase, rfl⟩ (.singleton _)
  refine ⟨⟨.cons_cons ⟨_, hround, rfl⟩ hlinked, by decide, fun above h => absurd h (htop above)⟩,
    ⟨hlinked, by decide, fun above h => absurd h (htop above)⟩, ⟨.singleton _, by decide, ?_⟩⟩
  · rintro above ⟨header, hheader, hsuper⟩
    obtain rfl := Option.some.inj (hring.symm.trans hheader)
    obtain rfl := Option.some.inj hsuper
    exact List.mem_cons_self

theorem gaps_plain : Descriptor.isArray "a/Shape" = false ∧ Descriptor.isArray "a/Base" = false ∧
    Descriptor.isArray "a/Round" = false ∧ Descriptor.isArray "a/Ring" = false := by
  simp only [Descriptor.isArray_eq]
  decide

/-- Arrays are subtypes as their components are. -/
theorem isSubtype_arrays {target source above below : String}
    (htarget : (component? target).bind Descriptor.className? = some above)
    (hsource : (component? source).bind Descriptor.className? = some below)
    (h : (freeze table).isSubtype above below = some true) :
    (freeze table).isSubtype target source = some true := by
  obtain ⟨component', htarget, habove⟩ := Option.bind_eq_some_iff.mp htarget
  obtain ⟨component, hsource, hbelow⟩ := Option.bind_eq_some_iff.mp hsource
  have hassignable : (freeze table).isAssignable component' component = some true :=
    Hierarchy.isAssignable_eq_true.mpr (.inr ⟨above, below, habove, hbelow, h⟩)
  exact isSubtype_eq_true.mpr (.inr (.inr (.inr ⟨component, hsource, .inr ⟨component', htarget, hassignable⟩⟩)))

theorem isSubtype_exact_gaps :
    (freeze (ofHeaders gaps)).isSubtype "a/Shape" "a/Round" = some true ∧
      (freeze (ofHeaders gaps)).isSubtype "a/Round" "a/Ring" = some false ∧
      (freeze (ofHeaders gaps)).isSubtype "a/Ring" "a/Round" = none ∧
      (freeze (ofHeaders gaps)).isSubtype "[La/Shape;" "[La/Round;" = some true := by
  obtain ⟨_, _, hexact, htrans⟩ := isSubtype_exact gaps
  obtain ⟨_, hbase, hround, hring, hgone⟩ := gaps_headers
  have hshape : TransGen (ofHeaders gaps).Implements "a/Base" "a/Shape" := .single ⟨_, hbase, by decide⟩
  obtain ⟨hplainShape, hplainBase, hplainRound, hplainRing⟩ := gaps_plain
  have hyes : ∀ {target source chain}, Descriptor.isArray target = false → Descriptor.isArray source = false →
      (ofHeaders gaps).IsSuperChain source chain → source ∈ ofHeaders gaps →
      (ofHeaders gaps).Above source chain target → (freeze (ofHeaders gaps)).isSubtype target source = some true :=
    fun htarget hsource hchain hmem habove =>
      (hexact _ _ _ htarget hsource hchain).isTrue.mpr (.inr (.inr ⟨hmem, habove⟩))
  refine ⟨?_, ?_, ?_, ?_⟩
  · exact hyes hplainShape hplainRound gaps_chains.1 (mem_of_getElem? hround)
      (.inr ⟨"a/Base", by decide, hshape⟩)
  · have hnone : ∀ x, ¬ (ofHeaders gaps).Above "a/Ring" [] x := by
      rintro x (hx | ⟨below, hbelow, hinterfaces⟩)
      · cases hx
      · obtain rfl := List.mem_singleton.mp hbelow
        obtain ⟨_, ⟨header, hheader, hmem⟩, _⟩ := TransGen.head'_iff.mp hinterfaces
        obtain rfl := Option.some.inj (hring.symm.trans hheader)
        cases hmem
    refine (hexact "a/Round" "a/Ring" [] hplainRound hplainRing gaps_chains.2.2).isFalse.mpr ⟨?_, ?_⟩
    · rintro (heq | heq | ⟨_, habove⟩)
      · exact absurd heq (by decide)
      · exact absurd heq (by decide)
      · exact hnone _ habove
    · exact ⟨mem_of_getElem? hring, fun x hx => absurd hx (hnone x)⟩
  · refine (hexact "a/Ring" "a/Round" _ hplainRing hplainRound gaps_chains.1).isOpen.mpr ⟨?_, ?_⟩
    · rintro (heq | heq | ⟨_, hmem | ⟨_, _, hinterfaces⟩⟩)
      · exact absurd heq (by decide)
      · exact absurd heq (by decide)
      · exact absurd hmem (by decide)
      · obtain ⟨_, _, header, hheader, hmem⟩ := TransGen.tail'_iff.mp hinterfaces
        exact absurd hmem ((by decide : ∀ header ∈ gaps, "a/Ring" ∉ header.interfaces) header
          (of_getElem?_ofHeaders hheader).1)
    · rintro ⟨_, hall⟩
      have hmem := hall "a/Gone" (.inr ⟨"a/Round", by decide, .single ⟨_, hround, by decide⟩⟩)
      rw [Std.HashMap.mem_iff_isSome_getElem?, hgone] at hmem
      cases hmem
  · have hinner : (freeze (ofHeaders gaps)).isSubtype "a/Base" "a/Round" = some true :=
      hyes hplainBase hplainRound gaps_chains.1 (mem_of_getElem? hround) (.inl (by decide))
    have houter : (freeze (ofHeaders gaps)).isSubtype "a/Shape" "a/Base" = some true :=
      hyes hplainShape hplainBase gaps_chains.2.1 (mem_of_getElem? hbase) (.inr ⟨"a/Base", by decide, hshape⟩)
    exact htrans (.of_headers (by decide)) (.of_headers (by decide)) "[La/Round;" "[La/Base;" "[La/Shape;"
      (isSubtype_arrays (by decide) (by decide) hinner) (isSubtype_arrays (by decide) (by decide) houter)

end ClassTable

end DirectCall
