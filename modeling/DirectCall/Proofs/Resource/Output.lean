import DirectCall.Proofs.Resource.Load

/-!
# What stands in the output

Each input is written beneath the output directory under its file name. Inputs of different file names keep
out of each other's way, so each of them stands there as a whole; of two inputs with one file name the later
one is written over the earlier one or into it (`writeInputs_intact`). Modules are told apart by name, and
the name of a module need not be in its file name.
-/

namespace DirectCall

open FileEffect

namespace ResourcePool

/-- Files that a module of the pool is written as. -/
def written (pool : ResourcePool) (m : ResourceModule) : List (List String × FileContent) :=
  m.kind.written (pool.filesOf m)

theorem writeModules_named {pool : ResourcePool} {output : Path} {ms : List ResourceModule}
    (h : (pool.writeModules output ms).2 = none) : ∀ m ∈ ms, ∃ name, m.source.fileName? = some name := by
  induction ms with
  | nil => simp
  | cons m ms ih =>
    rw [writeModules] at h
    split at h
    · cases h
    · rename_i name hname
      exact List.forall_mem_cons.mpr ⟨⟨name, hname⟩, ih h⟩

theorem mem_writeModules {pool : ResourcePool} {output : Path} {ms : List ResourceModule}
    (h : (pool.writeModules output ms).2 = none) {w : Path × FileContent} :
    w ∈ (pool.writeModules output ms).1.filterMap write? ↔
      ∃ m ∈ ms, ∃ name, m.source.fileName? = some name ∧
        ∃ file ∈ pool.written m, (output.descend (name :: file.1), file.2) = w := by
  induction ms with
  | nil => simp [writeModules]
  | cons m ms ih =>
    rw [writeModules] at h ⊢
    split at h
    · cases h
    · rename_i name hname
      have hfirst : w ∈ (m.kind.writeEntries (output.child name) (pool.entriesOf m)).filterMap write? ↔
          ∃ name', m.source.fileName? = some name' ∧
            ∃ file ∈ pool.written m, (output.descend (name' :: file.1), file.2) = w := by
        rw [ContainerKind.filterMap_writeEntries, List.mem_map, hname]
        simp only [Option.some.injEq, exists_eq_left']
        rfl
      simp only [List.filterMap_append, List.mem_append, List.mem_cons, exists_eq_or_imp]
      exact or_congr hfirst (ih h)

/-! ## What stands there -/

/-- What the written files are like: names that lead to one lead down, and a class file is one. -/
structure Writable (pool : ResourcePool) : Prop where
  isName : ∀ m ∈ pool.inputs, ∀ file ∈ pool.written m, ∀ name ∈ file.1, IsName name
  single : ∀ m ∈ pool.inputs, m.kind = .classFile → (pool.filesOf m).length = 1

theorem Writable.entriesOf_eq {pool : ResourcePool} (h : pool.Writable) {m : ResourceModule}
    (hm : m ∈ pool.inputs) (hkind : m.kind = .classFile) {e : ResourceEntry} (he : e ∈ pool.entriesOf m) :
    pool.entriesOf m = [e] := by
  have hlength := h.single m hm hkind
  rw [filesOf, ModuleFiles.ofEntries, List.length_map] at hlength
  obtain ⟨only, honly⟩ := List.length_eq_one_iff.mp hlength
  rw [honly] at he ⊢
  rw [List.mem_singleton.mp he]

/-- The inputs are written beneath a directory, and nothing is turned down. -/
structure WritesTo (pool : ResourcePool) (output : Path) (fs after : FileSystem) : Prop where
  named : (pool.writeInputs output).2 = none
  done : performAll fs (pool.writeInputs output).1 = (after, .ok ())

section Run

variable {pool : ResourcePool} {output : Path} {fs after : FileSystem}

theorem WritesTo.mem (h : pool.WritesTo output fs after) {w : Path × FileContent} :
    w ∈ (pool.writeInputs output).1.filterMap write? ↔
      ∃ m ∈ pool.inputs, ∃ name, m.source.fileName? = some name ∧
        ∃ file ∈ pool.written m, (output.descend (name :: file.1), file.2) = w :=
  mem_writeModules h.named

theorem isName_cons (hwritable : pool.Writable) {m : ResourceModule} (hm : m ∈ pool.inputs) {name : String}
    (hname : m.source.fileName? = some name) {file : List String × FileContent}
    (hfile : file ∈ pool.written m) : ∀ part ∈ name :: file.1, IsName part :=
  List.forall_mem_cons.mpr ⟨Path.isName_of_fileName? hname, hwritable.isName m hm file hfile⟩

/-- What stands beneath a file name stems from an input of this name, if it was not there before. -/
theorem WritesTo.stems (h : pool.WritesTo output fs after) (hwritable : pool.Writable) {base : List String}
    (hbase : after.destination output = .ok base) {name : String} {names : List String}
    {content : FileContent} (hcontent : after.root.file? (base ++ name :: names) = some content) :
    (∃ m ∈ pool.inputs, m.source.fileName? = some name ∧ (names, content) ∈ pool.written m) ∨
      fs.root.file? (base ++ name :: names) = some content := by
  rw [performAll_file? h.done] at hcontent
  obtain ⟨w, hw, hplace, rfl⟩ | hheld := replay_eq_some hcontent
  · left
    obtain ⟨m, hm, name', hname, file, hfile, rfl⟩ := h.mem.mp hw
    obtain ⟨base', hbase', hplace⟩ := FileSystem.destination_descend (isName_cons hwritable hm hname hfile) hplace
    obtain rfl := Except.ok.inj (hbase.symm.trans hbase')
    obtain ⟨rfl, rfl⟩ := List.cons.inj (List.append_cancel_left hplace)
    exact ⟨m, hm, hname, hfile⟩
  · exact .inr hheld

/-- Where an input was written, there is a file of an input of the same file name. -/
theorem WritesTo.stands (h : pool.WritesTo output fs after) (hwritable : pool.Writable) {m : ResourceModule}
    (hm : m ∈ pool.inputs) {name : String} (hname : m.source.fileName? = some name)
    {file : List String × FileContent} (hfile : file ∈ pool.written m) :
    ∃ base content, after.destination output = .ok base ∧
      after.root.file? (base ++ name :: file.1) = some content ∧
      after.find (output.descend (name :: file.1)) = .ok (.file content) ∧
      ∃ m' ∈ pool.inputs, m'.source.fileName? = some name ∧ (file.1, content) ∈ pool.written m' := by
  have hw := h.mem.mpr ⟨m, hm, name, hname, file, hfile, rfl⟩
  obtain ⟨hslash, place, hplace⟩ := performAll_follow h.done hw
  have hdestination := (FileSystem.follow_eq_ok.mp hplace).2
  obtain ⟨base, hbase, rfl⟩ :=
    FileSystem.destination_descend (isName_cons hwritable hm hname hfile) hdestination
  obtain ⟨w, hw', hwplace, hlast⟩ := replay_written hw hdestination (fs.root.file? (base ++ name :: file.1))
  rw [← performAll_file? h.done] at hlast
  obtain ⟨m', hm', name', hname', file', hfile', rfl⟩ := h.mem.mp hw'
  obtain ⟨base', hbase', heq⟩ :=
    FileSystem.destination_descend (isName_cons hwritable hm' hname' hfile') hwplace
  obtain rfl := Except.ok.inj (hbase.symm.trans hbase')
  obtain ⟨rfl, hnames⟩ := List.cons.inj (List.append_cancel_left heq)
  refine ⟨base, file'.2, hbase, hlast, FileSystem.find_eq_file hplace hslash hlast, m', hm', hname', ?_⟩
  rw [hnames]
  exact hfile'

/-! ## Different file names -/

/-- The output of an input is all there, and apart from what was there before it is all that is there. -/
structure Intact (pool : ResourcePool) (output : Path) (fs after : FileSystem) (m : ResourceModule)
    (name : String) : Prop where
  holds : ∀ e ∈ pool.entriesOf m, (pool.entriesOf m).filter (·.path == e.path) = [e] →
    m.kind.Holds after (output.child name) e
  unmixed : ∀ base, after.destination output = .ok base → ∀ names content,
    after.root.file? (base ++ name :: names) = some content →
    (names, content) ∈ pool.written m ∨ fs.root.file? (base ++ name :: names) = some content

/-- The outputs of all inputs are intact. -/
def AllIntact (pool : ResourcePool) (output : Path) (fs after : FileSystem) : Prop :=
  ∀ m ∈ pool.inputs, ∀ name, m.source.fileName? = some name → pool.Intact output fs after m name

theorem WritesTo.allIntact (h : pool.WritesTo output fs after) (hwritable : pool.Writable)
    (hdistinct : (pool.inputs.map (·.source.fileName?)).Nodup) : pool.AllIntact output fs after := by
  intro m hm name hname
  have hsame : ∀ m' ∈ pool.inputs, m'.source.fileName? = some name → m' = m := fun m' hm' hname' =>
    List.inj_on_of_nodup_map hdistinct hm' hm (hname'.trans hname.symm)
  refine ⟨fun e he honly => ?_, fun base hbase names content hcontent => ?_⟩
  · refine ContainerKind.holds he honly (fun hkind => hwritable.entriesOf_eq hm hkind he) fun file hfile => ?_
    obtain ⟨base, content, -, -, hfind, m', hm', hname', hcontent⟩ := h.stands hwritable hm hname hfile
    rw [hsame m' hm' hname'] at hcontent
    exact ⟨content, hcontent, hfind⟩
  · obtain ⟨m', hm', hname', hcontent⟩ | hheld := h.stems hwritable hbase hcontent
    · rw [hsame m' hm' hname'] at hcontent
      exact .inl hcontent
    · exact .inr hheld

/-! ## One file name -/

/-- No file stands in the output directory. -/
def IsFresh (output : Path) (fs after : FileSystem) : Prop :=
  ∀ base, after.destination output = .ok base → ∀ names, fs.root.file? (base ++ names) = none

/-- Modules of one file name whose outputs are both intact are written as the same files. -/
theorem WritesTo.written_subset (h : pool.WritesTo output fs after) (hwritable : pool.Writable)
    (hfresh : IsFresh output fs after) (hintact : pool.AllIntact output fs after)
    (hunique : ∀ m ∈ pool.inputs, ∀ file ∈ pool.written m, ∀ file' ∈ pool.written m,
      file'.1 = file.1 → file' = file) {m m' : ResourceModule} (hm : m ∈ pool.inputs)
    (hm' : m' ∈ pool.inputs) {name : String} (hname : m.source.fileName? = some name)
    (hname' : m'.source.fileName? = some name) : pool.written m ⊆ pool.written m' := by
  intro file hfile
  obtain ⟨base, content, hbase, hcontent, -⟩ := h.stands hwritable hm hname hfile
  have hown : ∀ other ∈ pool.inputs, other.source.fileName? = some name →
      (file.1, content) ∈ pool.written other := by
    intro other hother hothername
    refine ((hintact other hother name hothername).unmixed base hbase _ _ hcontent).resolve_right ?_
    rw [hfresh base hbase]
    simp
  have hsame := hunique m hm file hfile _ (hown m hm hname) rfl
  exact hsame ▸ hown m' hm' hname'

end Run

/-! ## Changed entries -/

/-- An entry keeps its module and its path when its bytes are replaced. -/
theorem map_place_replace (pool : ResourcePool) (changes : List (Nat × List UInt8)) :
    (pool.replace changes).entries.map (fun e => (e.moduleName, e.path)) =
      pool.entries.map fun e => (e.moduleName, e.path) := by
  have hfold : ∀ entries : List ResourceEntry,
      (changes.foldl (fun entries change => entries.modify change.1 fun e => { e with bytes := change.2 })
        entries).map (fun e => (e.moduleName, e.path)) = entries.map fun e => (e.moduleName, e.path) := by
    induction changes with
    | nil => exact fun _ => rfl
    | cons change changes ih =>
      intro entries
      rw [List.foldl_cons, ih]
      refine List.ext_getElem? fun i => ?_
      rw [List.getElem?_map, List.getElem?_map, List.getElem?_modify]
      cases entries[i]? with
      | none => rfl
      | some e => by_cases h : change.1 = i <;> simp [h]
  exact hfold pool.entries

theorem paths_replace (pool : ResourcePool) (changes : List (Nat × List UInt8)) (m : ResourceModule) :
    ((pool.replace changes).filesOf m).map (·.1) = (pool.filesOf m).map (·.1) := by
  have hpaths : ∀ entries : List ResourceEntry,
      (ModuleFiles.ofEntries (entries.filter (·.moduleName == m.name))).map (·.1) =
        ((entries.map fun e => (e.moduleName, e.path)).filter (·.1 == m.name)).map (·.2) := by
    intro entries
    rw [ModuleFiles.ofEntries, List.filter_map, List.map_map, List.map_map]
    rfl
  rw [filesOf, filesOf, entriesOf, entriesOf, hpaths, hpaths, map_place_replace]

theorem Writable.replace {pool : ResourcePool} (h : pool.Writable) (changes : List (Nat × List UInt8)) :
    (pool.replace changes).Writable where
  isName m hm file hfile := by
    have hnames : file.1 ∈ ((pool.replace changes).written m).map (·.1) := List.mem_map_of_mem hfile
    rw [written, m.kind.map_written, paths_replace, ← m.kind.map_written] at hnames
    obtain ⟨file', hfile', heq⟩ := List.mem_map.mp hnames
    exact heq ▸ h.isName m hm file' hfile'
  single m hm hkind := by
    have hlength := congrArg List.length (pool.paths_replace changes m)
    rw [List.length_map, List.length_map] at hlength
    exact hlength.trans (h.single m hm hkind)

/-! ## Loaded pools -/

section Loaded

variable {find : Path → Except FileError FileNode} {inputs classpath : List Path} {pool : ResourcePool}
  {output : Path} {fs after : FileSystem}

theorem mem_modules {m : ResourceModule} (h : m ∈ pool.inputs) : m ∈ pool.modules :=
  List.mem_of_mem_filter h

theorem LoadedFrom.writable (h : pool.LoadedFrom find)
    (hproper : ∀ p node, find p = .ok node → node.Proper) : pool.Writable where
  isName m hm _ hfile := (h.read m (mem_modules hm)).isName (hproper m.source) hfile
  single m hm hkind := by
    obtain ⟨path, bytes, hfiles, -⟩ := (h.read m (mem_modules hm)).ofClassFile hkind
    rw [hfiles, List.length_singleton]

/-- If all outputs of a loaded pool are intact, no two inputs have one file name. -/
theorem LoadedFrom.nodup_of_allIntact (hload : pool.LoadedFrom find)
    (hproper : ∀ p node, find p = .ok node → node.Proper) (h : pool.WritesTo output fs after)
    (hfresh : IsFresh output fs after) (hintact : pool.AllIntact output fs after) :
    (pool.inputs.map (·.source.fileName?)).Nodup := by
  have hunique : ∀ m ∈ pool.inputs, ∀ file ∈ pool.written m, ∀ file' ∈ pool.written m,
      file'.1 = file.1 → file' = file := fun m hm _ hfile _ hfile' =>
    (hload.read m (mem_modules hm)).written_unique (hproper m.source) hfile hfile'
  have hsub : ∀ {m m' name}, m ∈ pool.inputs → m' ∈ pool.inputs → m.source.fileName? = some name →
      m'.source.fileName? = some name → pool.written m ⊆ pool.written m' :=
    fun hm hm' => h.written_subset (hload.writable hproper) hfresh hintact hunique hm hm'
  refine List.Nodup.map_on (fun m hm m' hm' hsame => ?_) (hload.nodup.of_map.filter _)
  obtain ⟨name, hname⟩ := writeModules_named h.named m hm
  have hname' := hsame.symm.trans hname
  refine List.inj_on_of_nodup_map hload.nodup (mem_modules hm) (mem_modules hm') ?_
  exact (hload.read m (mem_modules hm)).name_congr (hload.read m' (mem_modules hm')) (hproper m.source)
    (hproper m'.source) hsame (hsub hm hm' hname hname') (hsub hm' hm hname' hname)

/-- Inputs that are written under different file names all come through. In a directory without files this
takes different file names: to tell modules apart by name is not enough. -/
theorem writeInputs_intact (hload : ofPaths find inputs classpath = .ok pool)
    (hproper : ∀ p node, find p = .ok node → node.Proper) (h : pool.WritesTo output fs after) :
    ((pool.inputs.map (·.source.fileName?)).Nodup → pool.AllIntact output fs after) ∧
      (IsFresh output fs after → pool.AllIntact output fs after →
        (pool.inputs.map (·.source.fileName?)).Nodup) := by
  have hloaded := loadedFrom_ofPaths hload
  constructor
  · intro hdistinct
    exact h.allIntact (hloaded.writable hproper) hdistinct
  · intro hfresh hintact
    exact hloaded.nodup_of_allIntact hproper h hfresh hintact

/-- So do inputs some of whose entries are replaced. -/
theorem replace_allIntact (hload : ofPaths find inputs classpath = .ok pool)
    (hproper : ∀ p node, find p = .ok node → node.Proper) (changes : List (Nat × List UInt8))
    (h : (pool.replace changes).WritesTo output fs after)
    (hdistinct : (pool.inputs.map (·.source.fileName?)).Nodup) :
    (pool.replace changes).AllIntact output fs after :=
  h.allIntact (((loadedFrom_ofPaths hload).writable hproper).replace changes) hdistinct

end Loaded

/-! ### Namesakes -/

namespace Namesakes

/-- A class file that describes a module `p`. -/
def descriptor : List UInt8 :=
  [202, 254, 186, 190, 0, 0, 0, 53, 0, 6,
    1, 0, 11, 109, 111, 100, 117, 108, 101, 45, 105, 110, 102, 111, -- `module-info`
    7, 0, 1,
    1, 0, 6, 77, 111, 100, 117, 108, 101, -- `Module`
    1, 0, 1, 112,
    19, 0, 4,
    128, 0, 0, 2, 0, 0, 0, 0, 0, 0, 0, 0,
    0, 1, 0, 3, 0, 0, 0, 16, 0, 5, 0, 0, 0, 0, 0, 0, 0, 0, 0, 0, 0, 0, 0, 0]

/-- Two jars in two directories; the first one has a descriptor. -/
def disk (second : String) : FileSystem where
  root := .directory
    [("x", .directory [("lib.jar", .file (.archive [("module-info.class", descriptor), ("a", [1])]))]),
      ("y", .directory [(second, .file (.archive [("b", [2])]))])]
  home := []

def output : Path := ⟨["out"]⟩

def first : ResourceModule := ⟨"p", ⟨["x", "lib.jar"]⟩, .jar, some ⟨"p", [], []⟩, true⟩

/-- The pool of the two jars. -/
def pool (second name : String) : ResourcePool where
  modules := [first, ⟨name, ⟨["y", second]⟩, .jar, none, true⟩]
  entries := [⟨"p", "module-info.class", descriptor⟩, ⟨"p", "a", [1]⟩, ⟨name, "b", [2]⟩]

/-- The file system once the two jars are written. -/
def after (second name : String) : FileSystem :=
  (performAll (disk second) ((pool second name).writeInputs output).1).1

theorem isEntryName_lib : IsEntryName "lib.jar" := ⟨⟨by decide, by decide, by decide⟩, by decide⟩

theorem isEntryName_app : IsEntryName "app.jar" := ⟨⟨by decide, by decide, by decide⟩, by decide⟩

theorem proper_disk {second : String} (h : IsEntryName second) : (disk second).root.Proper :=
  have hx : IsEntryName "x" := ⟨⟨by decide, by decide, by decide⟩, by decide⟩
  have hy : IsEntryName "y" := ⟨⟨by decide, by decide, by decide⟩, by decide⟩
  have single : ∀ {name content}, IsEntryName name →
      (FileNode.directory [(name, .file content)]).Proper := fun hname =>
    .directory (List.nodup_singleton _) (by simpa using hname) (by simpa using .file _)
  .directory (by simp) (by simp [hx, hy]) (by simp [single isEntryName_lib, single h])

theorem ofPaths_lib : ofPaths (disk "lib.jar").find [⟨["x", "lib.jar"]⟩, ⟨["y", "lib.jar"]⟩] [] =
    .ok (pool "lib.jar" "lib") := rfl

theorem ofPaths_app : ofPaths (disk "app.jar").find [⟨["x", "lib.jar"]⟩, ⟨["y", "app.jar"]⟩] [] =
    .ok (pool "app.jar" "app") := rfl

theorem written_lib : (pool "lib.jar" "lib").WritesTo output (disk "lib.jar") (after "lib.jar" "lib") :=
  ⟨rfl, rfl⟩

theorem written_app : (pool "app.jar" "app").WritesTo output (disk "app.jar") (after "app.jar" "app") :=
  ⟨rfl, rfl⟩

theorem isFresh_lib : IsFresh output (disk "lib.jar") (after "lib.jar" "lib") := by
  intro base hbase names
  have hout : (after "lib.jar" "lib").destination output = .ok ["out"] := rfl
  cases hout.symm.trans hbase
  rfl

end Namesakes

open Namesakes in
/-- Two jars of different names come through; two of one name do not. -/
theorem writeInputs_intact_jars :
    (pool "app.jar" "app").AllIntact output (disk "app.jar") (after "app.jar" "app") ∧
      ¬ (pool "lib.jar" "lib").AllIntact output (disk "lib.jar") (after "lib.jar" "lib") :=
  ⟨(writeInputs_intact ofPaths_app (fun _ _ => FileSystem.proper_of_find (proper_disk isEntryName_app))
      written_app).1 (by decide),
    fun hintact => absurd
      ((writeInputs_intact ofPaths_lib (fun _ _ => FileSystem.proper_of_find (proper_disk isEntryName_lib))
        written_lib).2 isFresh_lib hintact) (by decide)⟩

open Namesakes in
/-- The output of a loaded pool need not be intact. The jar `lib.jar` of the module `p` is written over by
that of the module `lib`, and an entry of `p` is lost. -/
theorem not_forall_allIntact :
    ¬ ∀ (find : Path → Except FileError FileNode) (inputs classpath : List Path) (pool : ResourcePool)
        (output : Path) (fs after : FileSystem), ofPaths find inputs classpath = .ok pool →
        (∀ p node, find p = .ok node → node.Proper) → pool.WritesTo output fs after →
        pool.AllIntact output fs after := by
  intro h
  have hintact := h _ _ _ _ _ _ _ ofPaths_lib
    (fun _ _ => FileSystem.proper_of_find (proper_disk isEntryName_lib)) written_lib
  obtain ⟨entries, hfind, hentries⟩ :=
    (hintact first (by simp [inputs, pool, first]) "lib.jar" rfl).holds ⟨"p", "a", [1]⟩ (by decide) (by decide)
  have hlast : (after "lib.jar" "lib").find (output.child "lib.jar") =
      .ok (.file (.archive [("b", [2])])) := rfl
  cases hlast.symm.trans hfind
  cases hentries

end ResourcePool

end DirectCall
