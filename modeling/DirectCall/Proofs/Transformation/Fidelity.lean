import DirectCall.Proofs.Code.Encode
import DirectCall.Proofs.Transformation.Isolation

/-!
# Replaced classes keep their structure

A replaced entry holds a class file again, and it is the old one but for the code of the methods in which
a call was replaced (`transformAdmitting_keepsStructure`). The pool only grows, so what the untouched
parts name by index is what they named before.
-/

namespace DirectCall

open ConstantPool

/-- A call among the sites was replaced. -/
def AnyReplaced (sites : List CallSite) : Prop := ∃ site ∈ sites, site.outcome.isTransformed = true

theorem any_isTransformed {owner name descriptor : String} {outcomes : List SiteOutcome} :
    outcomes.any (·.isTransformed) = true ↔
      AnyReplaced (outcomes.map (CallSite.mk owner name descriptor)) := by
  simp [AnyReplaced]

/-! ## Methods -/

namespace Member

/-- The first code attribute gives way to another one, which can be read. All others stay in place. -/
def Recoded (pool pool' : ConstantPool) (m m' : Member) : Prop :=
  ∃ before old new after, m.attributes = before ++ old :: after ∧
    m'.attributes = before ++ new :: after ∧
    (∀ a ∈ before, pool.utf8 a.nameIndex ≠ .ok "Code") ∧ pool.utf8 old.nameIndex = .ok "Code" ∧
    pool'.utf8 new.nameIndex = .ok "Code" ∧ ∃ code, CodeAttribute.parse new.info = .ok code

/-- The method has its flags, its name, its descriptor and its attributes, but for the code of a method
in which a call was replaced. -/
structure Keeps (pool pool' : ConstantPool) (m m' : Member) (sites : List CallSite) : Prop where
  access : m'.access = m.access
  nameIndex : m'.nameIndex = m.nameIndex
  descriptorIndex : m'.descriptorIndex = m.descriptorIndex
  recoded : AnyReplaced sites → m.Recoded pool pool' m'
  untouched : ¬ AnyReplaced sites → m'.attributes = m.attributes
  /-- The sites are reported under the name and the descriptor of the method. -/
  named : ∀ site ∈ sites, pool'.utf8 m.nameIndex = .ok site.method ∧
    pool'.utf8 m.descriptorIndex = .ok site.descriptor

theorem Keeps.of_grows {pool pool' pool'' : ConstantPool} {m m' : Member} {sites : List CallSite}
    (h : m.Keeps pool' pool'' m' sites) (hgrows : pool.Grows pool')
    (hcode : pool' = pool ∨ .utf8 "Code" ∈ pool.entries.toList) : m.Keeps pool pool'' m' sites := by
  rcases hcode with rfl | hcode
  · exact h
  · refine { h with recoded := fun hreplaced => ?_ }
    obtain ⟨before, old, new, after, hm, hm', hbefore, hold, hnew⟩ := h.recoded hreplaced
    refine ⟨before, old, new, after, hm, hm', fun a ha hname => ?_, ?_, hnew⟩
    · exact hbefore a ha (hgrows.utf8 hname)
    · exact (hgrows.utf8_iff hcode).mp hold

theorem Keeps.grow {pool pool' pool'' : ConstantPool} {m m' : Member} {sites : List CallSite}
    (h : m.Keeps pool pool' m' sites) (hgrows : pool'.Grows pool'') : m.Keeps pool pool'' m' sites := by
  refine { h with recoded := fun hreplaced => ?_, named := fun site hsite => ?_ }
  · obtain ⟨before, old, new, after, hm, hm', hbefore, hold, hnew, hread⟩ := h.recoded hreplaced
    exact ⟨before, old, new, after, hm, hm', hbefore, hold, hgrows.utf8 hnew, hread⟩
  · exact (h.named site hsite).imp hgrows.utf8 hgrows.utf8

end Member

namespace ClassFile

/-- The work on a method adds to the pool at most, and only if its code is replaced. -/
structure Reworked.Fits (c : ClassFile) (m : Member) (done : Reworked) : Prop where
  grows : c.pool.Grows done.pool
  keeps : m.Keeps c.pool done.pool done.method done.sites
  pool : done.pool = c.pool ∨ .utf8 "Code" ∈ c.pool.entries.toList

theorem Reworked.fits_idle (c : ClassFile) (m : Member) {sites : List CallSite}
    (h : ¬ AnyReplaced sites) (hnamed : ∀ site ∈ sites, c.pool.utf8 m.nameIndex = .ok site.method ∧
      c.pool.utf8 m.descriptorIndex = .ok site.descriptor) :
    Reworked.Fits c m ⟨c.pool, m, sites⟩ where
  grows := .refl c.pool
  keeps := ⟨rfl, rfl, rfl, fun hreplaced => absurd hreplaced h, fun _ => rfl, hnamed⟩
  pool := .inl rfl

theorem isAttribute_iff {c : ClassFile} {name : String} {a : Attribute} :
    c.isAttribute name a = true ↔ c.pool.utf8 a.nameIndex = .ok name := by
  unfold isAttribute
  split
  · rename_i text htext
    rw [htext, beq_iff_eq, Except.ok.injEq]
  · rename_i fault hfault
    simp [hfault]

theorem encodeMethod_spec {c : ClassFile} {h : Hierarchy} {m : MethodSig} {body : Body} {a : Attribute}
    {pool : ConstantPool} (hsmall : c.pool.size ≤ 65535) (hencode : c.encodeMethod h m body = .ok (a, pool)) :
    c.pool.Grows pool ∧ pool.utf8 a.nameIndex = .ok "Code" ∧
      ∃ code, CodeAttribute.parse a.info = .ok code := by
  unfold encodeMethod at hencode
  obtain ⟨map, _, hencode⟩ := bind_eq_ok.mp hencode
  obtain ⟨⟨result, pool'⟩, hedit⟩ : ∃ r, c.pool.edit (codeAttribute c.majorVersion map body) = r := ⟨_, rfl⟩
  rw [hedit] at hencode
  obtain ⟨a', ha', hencode⟩ := bind_eq_ok.mp hencode
  have hresult := during_eq_ok.mp (mapError_eq_ok.mp ha')
  cases hencode
  rw [hresult] at hedit
  have hadds := adds_codeAttribute c.majorVersion map body c.pool
  rw [hedit] at hadds
  exact ⟨hadds, codeAttribute_spec hsmall hedit⟩

/-- Putting another attribute in the place of the first code attribute. -/
theorem recoded_set {c : ClassFile} {m : Member} {a new : Attribute} {pool : ConstantPool}
    (hfound : c.attribute? m.attributes "Code" = some a) (hnew : pool.utf8 new.nameIndex = .ok "Code")
    (hread : ∃ code, CodeAttribute.parse new.info = .ok code) :
    m.Recoded c.pool pool
      { m with attributes := m.attributes.set (m.attributes.findIdx (c.isAttribute "Code")) new } := by
  obtain ⟨hcode, before, after, hattributes, hbefore⟩ := List.find?_eq_some_iff_append.mp hfound
  have hplace : m.attributes.findIdx (c.isAttribute "Code") = before.length := by
    rw [hattributes, List.findIdx_append, List.findIdx_eq_length_of_false, List.findIdx_cons, hcode]
    · simp
    · intro b hb
      simpa using hbefore b hb
  refine ⟨before, a, new, after, hattributes, ?_, fun b hb hname => ?_, isAttribute_iff.mp hcode, hnew,
    hread⟩
  · show m.attributes.set _ new = _
    rw [hplace, hattributes]
    simp
  · have hother := hbefore b hb
    rw [isAttribute_iff.mpr hname] at hother
    cases hother

theorem transformCode_fits {c : ClassFile} {ctx : ClassContext} {passes : List Pass} {owner : String}
    {m : Member} {done : Reworked} (hsmall : c.pool.size ≤ 65535)
    (h : c.transformCode ctx passes owner m = .ok done) : done.Fits c m := by
  unfold transformCode at h
  obtain ⟨name, hname, h⟩ := bind_eq_ok.mp h
  obtain ⟨descriptor, hdescriptor, h⟩ := bind_eq_ok.mp h
  obtain ⟨code?, hcode, h⟩ := bind_eq_ok.mp h
  cases code? with
  | none =>
    cases h
    exact Reworked.fits_idle c m (by simp [AnyReplaced]) (by simp)
  | some code =>
    obtain ⟨body, _, h⟩ := bind_eq_ok.mp h
    obtain ⟨⟨body', outcomes⟩, _, h⟩ := bind_eq_ok.mp h
    have hnamed : ∀ site ∈ outcomes.map (CallSite.mk owner name descriptor),
        c.pool.utf8 m.nameIndex = .ok site.method ∧
          c.pool.utf8 m.descriptorIndex = .ok site.descriptor := by
      intro site hsite
      obtain ⟨outcome, _, rfl⟩ := List.mem_map.mp hsite
      exact ⟨mapError_eq_ok.mp hname, mapError_eq_ok.mp hdescriptor⟩
    dsimp only at h
    split_ifs at h with hreplaced
    · obtain ⟨pruned, _, h⟩ := bind_eq_ok.mp h
      obtain ⟨⟨encoded, pool⟩, hencode, h⟩ := bind_eq_ok.mp h
      cases h
      obtain ⟨hgrows, hcodeName, hread⟩ := encodeMethod_spec hsmall hencode
      have hsome := mapError_eq_ok.mp hcode
      unfold ClassFile.code? at hsome
      split at hsome
      · cases hsome
      · rename_i a hfound
        refine ⟨hgrows, ⟨rfl, rfl, rfl, fun _ => recoded_set hfound hcodeName hread, fun hidle => ?_,
          fun site hsite => (hnamed site hsite).imp hgrows.utf8 hgrows.utf8⟩, .inr ?_⟩
        · exact absurd (any_isTransformed.mp hreplaced) hidle
        · have hcode := isAttribute_iff.mp (List.find?_some hfound)
          rw [utf8_eq_ok, ← Array.getElem?_toList] at hcode
          exact List.mem_of_getElem? hcode
    · cases h
      exact Reworked.fits_idle c m (fun hsome => hreplaced (any_isTransformed.mpr hsome)) hnamed

theorem transformMethod_fits {c : ClassFile} {ctx : ClassContext} {passes : List Pass} {owner : String}
    {m : Member} {done : Reworked} (hsmall : c.pool.size ≤ 65535)
    (h : c.transformMethod ctx passes owner m = .ok done) : done.Fits c m := by
  unfold transformMethod at h
  split at h
  · cases h
    exact Reworked.fits_idle c m (by simp [AnyReplaced]) (by simp)
  · exact transformCode_fits hsmall h

/-- One method after the other keeps its structure, and all that is said of the earlier ones stays true
while the later ones add to the pool. -/
theorem transformMethods_keeps {c : ClassFile} {ctx : ClassContext} {passes : List Pass} {owner : String}
    {methods methods' : List Member} {pool : ConstantPool} {sites : List CallSite}
    (hsmall : c.pool.size ≤ 65535)
    (h : c.transformMethods ctx passes owner methods = .ok (pool, methods', sites)) :
    c.pool.Grows pool ∧ (pool = c.pool ∨ .utf8 "Code" ∈ c.pool.entries.toList) ∧
      ∃ rs : List (Member × List CallSite),
        List.Forall₂ (fun m r => m.Keeps c.pool pool r.1 r.2) methods rs ∧
        methods' = rs.map (·.1) ∧ sites = rs.flatMap (·.2) := by
  induction methods generalizing c methods' pool sites with
  | nil =>
    cases h
    exact ⟨.refl _, .inl rfl, [], .nil, rfl, rfl⟩
  | cons m rest ih =>
    unfold transformMethods at h
    obtain ⟨done, hdone, h⟩ := bind_eq_ok.mp h
    obtain ⟨⟨pool', members, more⟩, hrest, h⟩ := bind_eq_ok.mp h
    cases h
    have hfits := transformMethod_fits hsmall hdone
    obtain ⟨hgrows, hcode, rs, hrs, rfl, rfl⟩ := ih (hfits.grows.small hsmall) hrest
    refine ⟨hfits.grows.trans hgrows, ?_, (done.method, done.sites) :: rs,
      .cons (hfits.keeps.grow hgrows) (hrs.imp fun m r hkeeps => ?_), rfl, rfl⟩
    · rcases hfits.pool with hsame | hmem
      · rcases hcode with hcode | hcode
        · exact .inl (hcode.trans hsame)
        · exact .inr (hsame ▸ hcode)
      · exact .inr hmem
    · exact hkeeps.of_grows hfits.grows hfits.pool

/-! ## Classes -/

/-- The second class file is the first one after the calls at the sites were worked on. -/
structure KeepsStructure (c c' : ClassFile) (sites : List CallSite) : Prop where
  minorVersion : c'.minorVersion = c.minorVersion
  majorVersion : c'.majorVersion = c.majorVersion
  access : c'.access = c.access
  thisClass : c'.thisClass = c.thisClass
  superClass : c'.superClass = c.superClass
  interfaces : c'.interfaces = c.interfaces
  fields : c'.fields = c.fields
  attributes : c'.attributes = c.attributes
  /-- Method by method, with the sites in it. -/
  methods : ∃ rs : List (Member × List CallSite),
    List.Forall₂ (fun m r => m.Keeps c.pool c'.pool r.1 r.2) c.methods rs ∧
      c'.methods = rs.map (·.1) ∧ sites = rs.flatMap (·.2)
  /-- The old entries are in front, in place. -/
  entries : c.pool.entries.toList <+: c'.pool.entries.toList
  /-- An index stands for what it stood for. -/
  denotes : c.pool.Keeps c'.pool

theorem transform_keepsStructure {data bytes : List UInt8} {c : ClassFile} {ctx : ClassContext}
    {settings : Settings} {sites : List CallSite} (hparse : ClassFile.parse data = .ok c)
    (h : c.transform ctx settings = .ok (some bytes, sites)) :
    ∃ c', ClassFile.parse bytes = .ok c' ∧ c.KeepsStructure c' sites := by
  have hpool := pool_laidOut hparse
  unfold transform at h
  obtain ⟨name, _, h⟩ := bind_eq_ok.mp h
  dsimp only at h
  split_ifs at h
  · cases h
  · obtain ⟨⟨pool, methods, found⟩, hmethods, h⟩ := bind_eq_ok.mp h
    dsimp only at h
    split_ifs at h
    · obtain ⟨written, hwritten, h⟩ := bind_eq_ok.mp h
      cases h
      obtain ⟨hgrows, _, rs, hrs, rfl, rfl⟩ := transformMethods_keeps hpool.small hmethods
      have hback := parse_toBytes (c := { c with pool := pool, methods := rs.map (·.1) })
        (hgrows.laidOut hpool) (during_eq_ok.mp (mapError_eq_ok.mp hwritten))
      obtain ⟨es, _, hentries⟩ := hgrows.added
      exact ⟨_, hback, rfl, rfl, rfl, rfl, rfl, rfl, rfl, rfl, ⟨rs, hrs, rfl, rfl⟩,
        ⟨_, hentries.symm⟩, hgrows.keeps⟩
    · cases h

end ClassFile

/-! ## The pool -/

namespace ResourcePool

/-- The entry is a class of an input in which calls are replaced. -/
def Replaces (pool : ResourcePool) (admits : List UInt8 → Bool) (settings : Settings) (e : ResourceEntry)
    (bytes : List UInt8) (sites : List CallSite) : Prop :=
  pool.IsInputClass e ∧ pool.Finishes admits settings e (some bytes) sites

/-- An entry in which no call is replaced stays as it is. -/
theorem apply_transformEntry {pool : ResourcePool} {admits : List UInt8 → Bool} {settings : Settings}
    {e e' : ResourceEntry} (h : (pool.transformEntry admits pool.hierarchy settings e).apply e = e') :
    (e' = e ∧ ¬ ∃ bytes sites, pool.Replaces admits settings e bytes sites) ∨
      ∃ bytes sites, pool.Replaces admits settings e bytes sites ∧ e' = { e with bytes := bytes } := by
  subst h
  unfold transformEntry
  split_ifs with hclass
  · have hinput : pool.IsInputClass e := Bool.and_eq_true_iff.mp hclass
    rcases transformClass_cases rfl with ⟨fault, hgiven, heq⟩ | ⟨bytes, sites, hfinishes, heq⟩
    · rw [heq]
      exact .inl ⟨rfl, fun ⟨_, _, hreplaces⟩ => hreplaces.2.not_givesUp hgiven⟩
    · rw [heq]
      cases bytes with
      | none => exact .inl ⟨rfl, fun ⟨_, _, hreplaces⟩ => nomatch (hreplaces.2.unique hfinishes).1⟩
      | some bytes => exact .inr ⟨bytes, sites, ⟨hinput, hfinishes⟩, rfl⟩
  · exact .inl ⟨rfl, fun ⟨_, _, hreplaces⟩ => hclass (Bool.and_eq_true_iff.mpr hreplaces.1)⟩

/-- An entry that is replaced holds a class file before and after, of one structure; any other entry
stays as it is. -/
theorem transformAdmitting_keepsStructure (pool : ResourcePool) (admits : List UInt8 → Bool)
    (settings : Settings) :
    List.Forall₂
      (fun e e' =>
        (e' = e ∧ ¬ ∃ bytes sites, pool.Replaces admits settings e bytes sites) ∨
          ∃ sites c c', pool.Replaces admits settings e e'.bytes sites ∧
            e' = { e with bytes := e'.bytes } ∧ ClassFile.parse e.bytes = .ok c ∧
            ClassFile.parse e'.bytes = .ok c' ∧ c.KeepsStructure c' sites)
      pool.entries (pool.transformAdmitting admits settings).pool.entries := by
  have hentries : (pool.transformAdmitting admits settings).pool.entries =
      pool.entries.map fun e => (pool.transformEntry admits pool.hierarchy settings e).apply e := by
    simp only [transformAdmitting, results, List.map_map]
    rfl
  rw [hentries]
  refine List.forall₂_map_right_iff.mpr (List.forall₂_same.mpr fun e _ => ?_)
  obtain hsame | ⟨bytes, sites, hreplaces, heq⟩ := apply_transformEntry rfl
  · exact .inl hsame
  · obtain ⟨_, _, c, hparse, htransform⟩ := id hreplaces
    obtain ⟨c', hparse', hkeeps⟩ := ClassFile.transform_keepsStructure hparse htransform
    rw [heq]
    exact .inr ⟨sites, c, c', hreplaces, rfl, hparse, hparse', hkeeps⟩

end ResourcePool

end DirectCall
