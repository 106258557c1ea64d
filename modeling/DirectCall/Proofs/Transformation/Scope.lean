import DirectCall.Proofs.Result
import DirectCall.Transformation
import Mathlib.Data.List.Nodup

/-!
# Module scope

Which classes code may name within module scope (`canReference_iff`). The entry that is looked at is the
one that the code sees, but the flags come from the hierarchy, and there the first class of a name is the
only one (`hierarchy_class?`). So the answer is about the class file that the code sees exactly if the
first one speaks for it (`decidesOnFound_iff`).
-/

namespace DirectCall

/-! ## The hierarchy of a pool -/

namespace ClassTable

/-- A header is kept unless it has no name or its name is taken. -/
theorem getElem?_add (table : ClassTable) (header : ClassHeader) (name : String) :
    ((table.add header).toOption.getD table)[name]? =
      table[name]?.or
        (if (!header.name.isEmpty && header.name == name) = true then some header else none) := by
  unfold add
  by_cases hname : header.name = name
  · subst hname
    by_cases hempty : header.name.isEmpty = true
    · simp [hempty, Except.toOption]
    · by_cases hknown : table.contains header.name = true
      · rw [Std.HashMap.contains_eq_isSome_getElem?] at hknown
        obtain ⟨kept, hkept⟩ := Option.isSome_iff_exists.mp hknown
        simp [hempty, Std.HashMap.contains_eq_isSome_getElem?, hkept, Except.toOption]
      · have hnone : table[header.name]? = none :=
          Std.HashMap.getElem?_eq_none_of_contains_eq_false (Bool.eq_false_iff.mpr hknown)
        simp [hempty, hknown, hnone, Except.toOption]
  · have hkept : ∀ kept : ClassTable, kept = table ∨ kept = table.insert header.name header →
        kept[name]? = table[name]? := by
      rintro kept (rfl | rfl)
      · rfl
      · simp [Std.HashMap.getElem?_insert, hname]
    rw [hkept _ (by split_ifs <;> simp [Except.toOption])]
    simp [hname]

/-- Of the headers that are added one after another, the first of a name stays. -/
theorem getElem?_addAll (table : ClassTable) (headers : List ClassHeader) (name : String) :
    (headers.foldl (fun table header => (table.add header).toOption.getD table) table)[name]? =
      table[name]?.or (headers.find? fun header => !header.name.isEmpty && header.name == name) := by
  induction headers generalizing table with
  | nil => simp
  | cons header rest ih =>
    rw [List.foldl_cons, ih, getElem?_add, List.find?_cons, Option.or_assoc]
    split_ifs with hname
    · rw [hname, Option.some_or]
    · rw [Bool.not_eq_true] at hname
      rw [hname, Option.none_or]

end ClassTable

namespace ResourcePool

/-- The first header of a class name, in load order; a class without a name has none. -/
def firstHeader? (pool : ResourcePool) (className : String) : Option ClassHeader :=
  (pool.entries.filterMap (·.header?)).find? fun header =>
    !header.name.isEmpty && header.name == className

theorem hierarchy_class? (pool : ResourcePool) (className : String) :
    pool.hierarchy.class? className = pool.firstHeader? className := by
  show (List.foldl _ (∅ : ClassTable) _)[className]? = _
  rw [ClassTable.getElem?_addAll, Std.HashMap.getElem?_empty, Option.none_or]
  rfl

end ResourcePool

/-! ## The entry that is found -/

theorem beforeEnding?_append (ending text : String) :
    beforeEnding? ending (text ++ ending) = some text := by
  simp [beforeEnding?]

/-- The ending of a class file has no part of its own in the package. -/
theorem ClassName.package_classFilePath (className : String) :
    ClassName.package (classFilePath className) = ClassName.package className := by
  have hending : ∀ c ∈ ".class".toList.reverse, decide (c ≠ '/') = true := by simp
  unfold ClassName.package ClassName.beforeLast? classFilePath
  rw [String.toList_append, List.reverse_append,
    List.dropWhile_append_of_pos hending]

theorem ResourceEntry.package_eq {e : ResourceEntry} {className : String}
    (h : e.path = classFilePath className) : e.package = ClassName.package className := by
  have hname : e.className? = none ∨ e.className? = some className := by
    unfold ResourceEntry.className?
    split
    · exact .inl rfl
    · exact .inr (by rw [h, classFilePath, beforeEnding?_append])
  rcases hname with hname | hname
  · rw [ResourceEntry.package, hname, Option.getD_none, h, ClassName.package_classFilePath]
  · rw [ResourceEntry.package, hname, Option.getD_some]

/-- The class file in the entry can be read and has the public flag. -/
def ResourceEntry.IsPublicFile (e : ResourceEntry) : Prop :=
  ∃ c, ClassFile.parse e.bytes = .ok c ∧ Access.isPublic c.access = true

/-- Both entries lie in one package of one module. -/
def ResourceEntry.SharesPackage (origin target : ResourceEntry) : Prop :=
  target.moduleName = origin.moduleName ∧ target.package = origin.package

/-- A header has the flags of its class file. -/
theorem ResourceEntry.isPublicFile_of_header {e : ResourceEntry} {header : ClassHeader}
    (h : e.header? = some header) (hpublic : header.isPublic = true) : e.IsPublicFile := by
  unfold ResourceEntry.header? at h
  split_ifs at h
  obtain ⟨c, hc, h⟩ := bind_eq_ok.mp (ok_of_toOption h)
  refine ⟨c, hc, ?_⟩
  obtain ⟨name, _, h⟩ := bind_eq_ok.mp h
  obtain ⟨methods, _, h⟩ := bind_eq_ok.mp h
  obtain ⟨superName, _, h⟩ := bind_eq_ok.mp h
  obtain ⟨interfaces, _, h⟩ := bind_eq_ok.mp h
  obtain rfl := Except.ok.inj h
  exact hpublic

namespace ResourcePool

/-- Both lie in one module, or the module of the target exports its package to the module of the
origin, which requires it. -/
def Readable (pool : ResourcePool) (origin target : ResourceEntry) : Prop :=
  target.moduleName = origin.moduleName ∨
    ∃ theirs ours, pool.module? target.moduleName = some theirs ∧
      pool.module? origin.moduleName = some ours ∧
      theirs.exportsTo target.package ours.name = true ∧ ours.requiresModule theirs.name = true

theorem isReadable_iff (pool : ResourcePool) (origin target : ResourceEntry) :
    pool.isReadable origin target = true ↔ pool.Readable origin target := by
  unfold isReadable Readable
  rw [Bool.or_eq_true, beq_iff_eq]
  refine or_congr_right ?_
  split
  · rename_i theirs ours htheirs hours
    simp [htheirs, hours]
  · rename_i hmissing
    simp only [Bool.false_eq_true, false_iff]
    rintro ⟨theirs, ours, htheirs, hours, _⟩
    exact hmissing theirs ours htheirs hours

theorem mem_of_entryFrom? {pool : ResourcePool} {origin target : ResourceEntry} {path : String}
    (h : pool.entryFrom? origin path = some target) : target ∈ pool.entries ∧ target.path = path := by
  rcases Option.or_eq_some_iff.mp h with h | ⟨_, h⟩
  · have hpath := List.find?_some h
    rw [Bool.and_eq_true, beq_iff_eq] at hpath
    exact ⟨List.mem_of_find?_eq_some h, hpath.1⟩
  · have hpath := List.find?_some h
    rw [beq_iff_eq] at hpath
    exact ⟨List.mem_of_find?_eq_some h, hpath⟩

/-- Code in an entry may name a class within module scope exactly if the entry that it sees is readable,
and the first class of the name is public or the two lie in one package. -/
theorem canReference_iff {pool : ResourcePool} {settings : Settings} (hscope : settings.scope = .module)
    (origin : ResourceEntry) (className : String) :
    (pool.classContext pool.hierarchy settings origin).canReference className = true ↔
      ∃ target, pool.entryFrom? origin (classFilePath className) = some target ∧
        pool.Readable origin target ∧
        ((∃ header, pool.firstHeader? className = some header ∧ header.isPublic = true) ∨
          origin.SharesPackage target) := by
  show (settings.scope == .global || pool.isInScope pool.hierarchy origin className) = true ↔ _
  rw [hscope, show (Scope.module == Scope.global) = false from rfl, Bool.false_or, isInScope]
  split
  · rename_i hnone
    simp [hnone]
  · rename_i target htarget
    have hpackage := ResourceEntry.package_eq (mem_of_entryFrom? htarget).2
    simp [htarget, isReadable_iff, hierarchy_class?, ResourceEntry.SharesPackage, hpackage,
      Option.any_eq_true]

/-- Whatever may be named within module scope is an entry that is found and readable, and the class
file in this entry is public, or it lies in the package of the origin. -/
def DecidesOnFound (pool : ResourcePool) : Prop :=
  ∀ settings origin className, settings.scope = .module → origin ∈ pool.entries →
    (pool.classContext pool.hierarchy settings origin).canReference className = true →
      ∃ target, pool.entryFrom? origin (classFilePath className) = some target ∧
        pool.Readable origin target ∧ (target.IsPublicFile ∨ origin.SharesPackage target)

/-- If the first class of a name is public, then so is the class file of this name that an entry finds
and can read outside its own package. -/
def FirstSpeaksForFound (pool : ResourcePool) : Prop :=
  ∀ origin ∈ pool.entries, ∀ className target header,
    pool.entryFrom? origin (classFilePath className) = some target → pool.Readable origin target →
    ¬ origin.SharesPackage target → pool.firstHeader? className = some header →
    header.isPublic = true → target.IsPublicFile

/-- Visibility is decided on the class that is found exactly if the first class of a name speaks for it. -/
theorem decidesOnFound_iff (pool : ResourcePool) : pool.DecidesOnFound ↔ pool.FirstSpeaksForFound := by
  constructor
  · intro hdecides origin horigin className target header htarget hreadable hapart hfirst hpublic
    obtain ⟨found, hfound, _, hseen⟩ := hdecides .standard origin className rfl horigin <|
      (canReference_iff rfl origin className).mpr
        ⟨target, htarget, hreadable, .inl ⟨header, hfirst, hpublic⟩⟩
    obtain rfl := Option.some.inj (htarget.symm.trans hfound)
    exact hseen.resolve_right hapart
  · intro hspeaks settings origin className hscope horigin h
    obtain ⟨target, htarget, hreadable, hpublic⟩ := (canReference_iff hscope origin className).mp h
    refine ⟨target, htarget, hreadable, ?_⟩
    by_cases hshared : origin.SharesPackage target
    · exact .inr hshared
    · obtain ⟨header, hfirst, hpublic⟩ := hpublic.resolve_right hshared
      exact .inl (hspeaks origin horigin className target header htarget hreadable hshared hfirst
        hpublic)

/-- So it is as long as every class lies at its own path and no path is there twice. -/
theorem decidesOnFound_of_distinct {pool : ResourcePool}
    (hplaced : ∀ e ∈ pool.entries, ∀ header, e.header? = some header → e.path = classFilePath header.name)
    (hdistinct : (pool.entries.map (·.path)).Nodup) : pool.DecidesOnFound := by
  refine (decidesOnFound_iff pool).mpr ?_
  intro origin _ className target header htarget _ _ hfirst hpublic
  obtain ⟨e, he, hheader⟩ := List.mem_filterMap.mp (List.mem_of_find?_eq_some hfirst)
  have hname := List.find?_some hfirst
  rw [Bool.and_eq_true, beq_iff_eq] at hname
  obtain ⟨hmem, hpath⟩ := mem_of_entryFrom? htarget
  have hsame : e = target := List.inj_on_of_nodup_map hdistinct he hmem <| by
    rw [hplaced e he header hheader, hname.2, hpath]
  exact hsame ▸ ResourceEntry.isPublicFile_of_header hheader hpublic

end ResourcePool

/-! ## Two classes of one name

Each of two modules has a class of this name, and only the first one is public. -/

/-- A class file of version 52 without members for the class `a/X`. -/
def bareClass (access : UInt8) : List UInt8 :=
  [0xCA, 0xFE, 0xBA, 0xBE, 0, 0, 0, 52, 0, 3, 1, 0, 3, 0x61, 0x2F, 0x58, 7, 0, 1, 0, access, 0, 2, 0, 0,
    0, 0, 0, 0, 0, 0, 0, 0]

/-- A module that was read from a directory, without a descriptor. -/
def plainModule (name : String) : ResourceModule := ⟨name, .ofText name, .directory, none, true⟩

/-- The entry of the caller in the second module. -/
def hiddenOrigin : ResourceEntry := ⟨"m2", "b/B.class", []⟩

/-- The class of that name in the second module. -/
def hiddenTarget : ResourceEntry := ⟨"m2", "a/X.class", bareClass 0x20⟩

def hiddenPool : ResourcePool :=
  ⟨[plainModule "m1", plainModule "m2"],
    [⟨"m1", "a/X.class", bareClass 0x21⟩, hiddenTarget, hiddenOrigin]⟩

theorem hiddenPool_not_firstSpeaksForFound : ¬ hiddenPool.FirstSpeaksForFound := by
  intro hspeaks
  have hfirst : hiddenPool.firstHeader? "a/X" = some ⟨"a/X", none, [], 0x21, []⟩ := by decide +kernel
  have hfound : hiddenPool.entryFrom? hiddenOrigin (classFilePath "a/X") = some hiddenTarget := by
    decide +kernel
  have haccess : (ClassFile.parse hiddenTarget.bytes).toOption.map (·.access) = some 0x20 := by
    decide +kernel
  have hapart : ¬ hiddenOrigin.SharesPackage hiddenTarget := by
    rintro ⟨_, hpackage⟩
    exact absurd hpackage (by decide +kernel)
  obtain ⟨c, hc, hpublic⟩ := hspeaks hiddenOrigin (by simp [hiddenPool]) "a/X" hiddenTarget _ hfound
    (.inl rfl) hapart hfirst (by decide)
  rw [hc, Except.toOption, Option.map_some, Option.some.injEq] at haccess
  rw [haccess] at hpublic
  exact absurd hpublic (by decide)

/-- A class that is not public may be named from another package, if an earlier one of its name is. -/
theorem not_forall_decidesOnFound : ¬ ∀ pool : ResourcePool, pool.DecidesOnFound := fun hdecides =>
  hiddenPool_not_firstSpeaksForFound
    ((ResourcePool.decidesOnFound_iff hiddenPool).mp (hdecides hiddenPool))

end DirectCall
