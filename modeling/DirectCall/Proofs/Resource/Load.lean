import DirectCall.Proofs.Files.System
import DirectCall.Proofs.Files.Tree
import DirectCall.Proofs.Result
import DirectCall.Resource.Load
import DirectCall.Resource.Output

/-!
# What a pool holds, and what is written of it

Each module of a loaded pool holds the files that were found at its path, under its own name, and no two modules
have the same name (`loadedFrom_ofPaths`).

A jar is written as one archive, a directory as a file for each entry and a class file as itself. Among
modules that were read from one file name this tells the module: its files give its descriptor, and the
descriptor and the file name give its name (`ReadFrom.name_congr`).
-/

namespace DirectCall

/-! ## Files of a module -/

theorem readContainer_eq_ok {p : Path} {found : Except FileError FileNode} {kind : ContainerKind}
    {files : ModuleFiles} (h : readContainer p found = .ok (kind, files)) :
    (∃ entries, found = .ok (.file (.archive entries)) ∧ kind = .jar ∧ files = .ofArchive entries) ∨
    (∃ children, found = .ok (.directory children) ∧ kind = .directory ∧
      files = .ofDirectory (.directory children)) ∨
    (∃ content, found = .ok (.file content) ∧ kind = .classFile ∧
      files = .ofClassFile p content.bytes) := by
  unfold readContainer at h
  split at h <;> cases h
  · exact .inr (.inl ⟨_, rfl, rfl, rfl⟩)
  · exact .inl ⟨_, rfl, rfl, rfl⟩
  · exact .inr (.inr ⟨_, rfl, rfl, rfl⟩)

namespace ModuleFiles

theorem ofClassFile_eq_singleton (p : Path) (bytes : List UInt8) :
    ∃ path, ofClassFile p bytes = [(path, bytes)] := by
  unfold ofClassFile
  split
  · exact ⟨_, rfl⟩
  · exact ⟨_, rfl⟩

/-- Of the path only the file name counts. -/
theorem ofClassFile_congr {p p' : Path} (h : p.fileName? = p'.fileName?) (bytes : List UInt8) :
    ofClassFile p bytes = ofClassFile p' bytes := by
  rw [ofClassFile, ofClassFile, h]

/-- The path of a file in a directory spells the names that lead to it. -/
theorem mem_ofDirectory {children : List (String × FileNode)}
    (hproper : (FileNode.directory children).Proper) {path : String} {bytes : List UInt8}
    (h : (path, bytes) ∈ ofDirectory (.directory children)) :
    ∃ content, (Path.partsOf path, content) ∈ (FileNode.directory children).files ∧
      content.bytes = bytes ∧ Path.partsOf path ≠ [] ∧ ∀ name ∈ Path.partsOf path, IsName name := by
  rw [ofDirectory, List.mem_map] at h
  obtain ⟨⟨names, content⟩, hfile, heq⟩ := h
  cases heq
  have hne : names ≠ [] := by
    obtain ⟨name, rest, node, rfl, -⟩ := FileNode.mem_files_directory.mp hfile
    exact List.cons_ne_nil _ _
  have hnames := hproper.isEntryName hfile
  rw [Path.partsOf_intercalate hne fun name hname => (hnames name hname).no_slash]
  exact ⟨content, hfile, rfl, hne, fun name hname => (hnames name hname).toIsName⟩

/-- One path has one file. -/
theorem ofDirectory_unique {children : List (String × FileNode)}
    (hproper : (FileNode.directory children).Proper) {path : String} {bytes bytes' : List UInt8}
    (h : (path, bytes) ∈ ofDirectory (.directory children))
    (h' : (path, bytes') ∈ ofDirectory (.directory children)) : bytes = bytes' := by
  obtain ⟨content, hcontent, rfl, -⟩ := mem_ofDirectory hproper h
  obtain ⟨content', hcontent', rfl, -⟩ := mem_ofDirectory hproper h'
  rw [hproper.unique hcontent hcontent']

end ModuleFiles

/-- The entries that the files make in a module. -/
def ModuleFiles.inModule (files : ModuleFiles) (name : String) : List ResourceEntry :=
  files.map fun file => ⟨name, file.1, file.2⟩

/-- The files that some entries are. -/
def ModuleFiles.ofEntries (entries : List ResourceEntry) : ModuleFiles :=
  entries.map fun e => (e.path, e.bytes)

theorem ModuleFiles.ofEntries_inModule (files : ModuleFiles) (name : String) :
    ofEntries (files.inModule name) = files := by
  rw [ofEntries, inModule, List.map_map]
  exact List.map_id files

theorem ModuleFiles.filter_inModule (files : ModuleFiles) (name other : String) :
    (files.inModule name).filter (·.moduleName == other) = if name = other then files.inModule name else [] := by
  have hname : ∀ e ∈ files.inModule name, e.moduleName = name := by
    intro e he
    obtain ⟨file, -, rfl⟩ := List.mem_map.mp he
    rfl
  split_ifs with h
  · exact List.filter_eq_self.mpr fun e he => beq_iff_eq.mpr ((hname e he).trans h)
  · exact List.filter_eq_nil_iff.mpr fun e he heq => h ((hname e he).symm.trans (beq_iff_eq.mp heq))

/-! ## Modules of a pool -/

/-- The module was made of some files, which were read from what was found at its path. -/
structure ResourceModule.ReadFrom (m : ResourceModule) (found : Except FileError FileNode)
    (files : ModuleFiles) : Prop where
  read : readContainer m.source found = .ok (m.kind, files)
  descriptor : readDescriptor files = .ok m.descriptor
  name : m.name = (m.descriptor.map (·.name)).getD m.source.stem

namespace ResourcePool

/-- The files of a module. -/
def filesOf (pool : ResourcePool) (m : ResourceModule) : ModuleFiles := .ofEntries (pool.entriesOf m)

/-- What there is to know about a pool of modules that were looked up with a function. -/
structure LoadedFrom (find : Path → Except FileError FileNode) (pool : ResourcePool) : Prop where
  nodup : (pool.modules.map (·.name)).Nodup
  /-- No entry is left without its module. -/
  owned : ∀ e ∈ pool.entries, ∃ m ∈ pool.modules, m.name = e.moduleName
  read : ∀ m ∈ pool.modules, m.ReadFrom (find m.source) (pool.filesOf m)

theorem load_eq_ok {pool after : ResourcePool} {isInput : Bool} {p : Path}
    {found : Except FileError FileNode} (h : pool.load isInput p found = .ok after) :
    ∃ (m : ResourceModule) (files : ModuleFiles), m.source = p ∧ m.ReadFrom found files ∧
      pool.module? m.name = none ∧
      after = ⟨pool.modules ++ [m], pool.entries ++ files.inModule m.name⟩ := by
  obtain ⟨⟨kind, files⟩, hread, h⟩ := bind_eq_ok.mp h
  obtain ⟨descriptor, hdescriptor, h⟩ := bind_eq_ok.mp h
  rw [mapError_eq_ok] at hdescriptor
  dsimp only at h
  split_ifs at h with hknown
  · cases h
  · cases h
    exact ⟨⟨_, p, kind, descriptor, isInput⟩, files, rfl, ⟨hread, hdescriptor, rfl⟩,
      by simpa using hknown, rfl⟩

variable {find : Path → Except FileError FileNode}

theorem loadedFrom_empty : empty.LoadedFrom find where
  nodup := List.nodup_nil
  owned := by simp [empty]
  read := by simp [empty]

theorem loadedFrom_load {pool after : ResourcePool} (h : pool.LoadedFrom find) {isInput : Bool} {p : Path}
    (hload : pool.load isInput p (find p) = .ok after) : after.LoadedFrom find := by
  obtain ⟨m, files, rfl, hread, hnew, rfl⟩ := load_eq_ok hload
  have hnew : ∀ other ∈ pool.modules, other.name ≠ m.name := by simpa [module?] using hnew
  refine ⟨?_, fun e he => ?_, fun other hother => ?_⟩
  · rw [List.map_append, List.nodup_append]
    refine ⟨h.nodup, List.nodup_singleton _, ?_⟩
    simpa using hnew
  · rcases List.mem_append.mp he with he | he
    · obtain ⟨other, hother, howner⟩ := h.owned e he
      exact ⟨other, List.mem_append_left _ hother, howner⟩
    · obtain ⟨file, -, rfl⟩ := List.mem_map.mp he
      exact ⟨m, by simp, rfl⟩
  · rw [filesOf, entriesOf, List.filter_append, files.filter_inModule]
    rcases List.mem_append.mp hother with hother | hother
    · rw [if_neg (hnew other hother).symm, List.append_nil]
      exact h.read other hother
    · obtain rfl := List.mem_singleton.mp hother
      have hnone : pool.entries.filter (·.moduleName == other.name) = [] := by
        rw [List.filter_eq_nil_iff]
        intro e he heq
        obtain ⟨owner, howner, hname⟩ := h.owned e he
        exact hnew owner howner (hname.trans (beq_iff_eq.mp heq))
      rw [hnone, if_pos rfl, List.nil_append, files.ofEntries_inModule]
      exact hread

theorem loadedFrom_foldlM {pool after : ResourcePool} (h : pool.LoadedFrom find) {isInput : Bool}
    {paths : List Path}
    (hload : paths.foldlM (fun pool p => pool.load isInput p (find p)) pool = .ok after) :
    after.LoadedFrom find := by
  induction paths generalizing pool with
  | nil =>
    cases hload
    exact h
  | cons p paths ih =>
    obtain ⟨mid, hmid, hload⟩ := bind_eq_ok.mp hload
    exact ih (loadedFrom_load h hmid) hload

theorem loadedFrom_ofPaths {inputs classpath : List Path} {pool : ResourcePool}
    (h : ofPaths find inputs classpath = .ok pool) : pool.LoadedFrom find := by
  obtain ⟨mid, hinputs, hclasspath⟩ := bind_eq_ok.mp h
  exact loadedFrom_foldlM (loadedFrom_foldlM loadedFrom_empty hinputs) hclasspath

end ResourcePool

/-! ## What a module is written as -/

open FileEffect

/-- What the files of a module are written as, by the names that lead there from its file name on. -/
def ContainerKind.written (files : ModuleFiles) : ContainerKind → List (List String × FileContent)
  | jar => [([], .archive files)]
  | directory => files.map fun file => (Path.partsOf file.1, .data file.2)
  | classFile => files.map fun file => ([], .data file.2)

theorem ContainerKind.filterMap_writeEntries (target : Path) (entries : List ResourceEntry)
    (kind : ContainerKind) :
    (kind.writeEntries target entries).filterMap write? =
      (kind.written (.ofEntries entries)).map fun file => (target.descend file.1, file.2) := by
  cases kind with
  | jar => rfl
  | directory =>
    rw [writeEntries, written, ModuleFiles.ofEntries, List.filterMap_flatMap, List.map_map, List.map_map,
      List.map_eq_flatMap]
    rfl
  | classFile =>
    rw [writeEntries, written, ModuleFiles.ofEntries, List.filterMap_map, List.map_map, List.map_map]
    exact congrFun (List.filterMap_eq_map (f := fun e : ResourceEntry => (target, FileContent.data e.bytes))) entries

/-- Names that lead to what files of some paths are written as. -/
def ContainerKind.places (paths : List String) : ContainerKind → List (List String)
  | jar => [[]]
  | directory => paths.map Path.partsOf
  | classFile => paths.map fun _ => []

theorem ContainerKind.map_written (kind : ContainerKind) (files : ModuleFiles) :
    (kind.written files).map (·.1) = kind.places (files.map (·.1)) := by
  cases kind <;> simp [written, places]

/-- A file system holds an entry of a module that was written to a path. -/
def ContainerKind.Holds (fs : FileSystem) (target : Path) (e : ResourceEntry) : ContainerKind → Prop
  | jar => ∃ entries, fs.find target = .ok (.file (.archive entries)) ∧
      entries.filter (·.1 == e.path) = [(e.path, e.bytes)]
  | directory => fs.find (target.descend (Path.partsOf e.path)) = .ok (.file (.data e.bytes))
  | classFile => fs.find target = .ok (.file (.data e.bytes))

/-- An entry that alone has its path is there once each written place holds something written there. -/
theorem ContainerKind.holds {fs : FileSystem} {target : Path} {entries : List ResourceEntry} {e : ResourceEntry}
    {kind : ContainerKind} (he : e ∈ entries) (honly : entries.filter (·.path == e.path) = [e])
    (hsingle : kind = .classFile → entries = [e])
    (hfind : ∀ file ∈ kind.written (.ofEntries entries), ∃ content,
      (file.1, content) ∈ kind.written (.ofEntries entries) ∧
      fs.find (target.descend file.1) = .ok (.file content)) : kind.Holds fs target e := by
  cases kind with
  | jar =>
    obtain ⟨content, hcontent, hfind⟩ := hfind _ (List.mem_singleton.mpr rfl)
    cases List.mem_singleton.mp hcontent
    refine ⟨_, hfind, ?_⟩
    rw [ModuleFiles.ofEntries, List.filter_map, Function.comp_def, honly]
    rfl
  | directory =>
    rw [written, ModuleFiles.ofEntries, List.map_map] at hfind
    obtain ⟨content, hcontent, hfind⟩ := hfind _ (List.mem_map_of_mem he)
    obtain ⟨e', he', heq⟩ := List.mem_map.mp hcontent
    obtain ⟨hparts, rfl⟩ := Prod.mk.inj heq
    have hmem : e' ∈ entries.filter (·.path == e.path) :=
      List.mem_filter.mpr ⟨he', beq_iff_eq.mpr (Path.partsOf_injective hparts)⟩
    rw [honly, List.mem_singleton] at hmem
    subst hmem
    exact hfind
  | classFile =>
    rw [hsingle rfl] at hfind
    obtain ⟨content, hcontent, hfind⟩ := hfind _ (List.mem_map_of_mem (List.mem_singleton.mpr rfl))
    cases List.mem_singleton.mp hcontent
    exact hfind

/-! ## Modules that were read -/

/-- Among files with one file at the path, to look the path up is to find the file. -/
theorem lookup_eq_some_iff_mem {files : ModuleFiles} {path : String}
    (hunique : ∀ {bytes bytes'}, (path, bytes) ∈ files → (path, bytes') ∈ files → bytes = bytes')
    {bytes : List UInt8} : files.lookup path = some bytes ↔ (path, bytes) ∈ files := by
  refine ⟨FileNode.mem_of_lookup, fun h => ?_⟩
  obtain ⟨found, hfound⟩ : ∃ found, files.lookup path = some found :=
    Option.isSome_iff_exists.mp (List.lookup_isSome_iff.mpr ⟨_, h, beq_self_eq_true path⟩)
  rw [hfound, hunique h (FileNode.mem_of_lookup hfound)]

namespace ResourceModule.ReadFrom

variable {m m' : ResourceModule} {found found' : Except FileError FileNode} {files files' : ModuleFiles}

theorem ofDirectory (h : m.ReadFrom found files) (hkind : m.kind = .directory) :
    ∃ children, found = .ok (.directory children) ∧ files = .ofDirectory (.directory children) := by
  obtain ⟨_, -, hkind', -⟩ | hdirectory | ⟨_, -, hkind', -⟩ := readContainer_eq_ok h.read
  · rw [hkind] at hkind'
    cases hkind'
  · obtain ⟨children, hfound, -, hfiles⟩ := hdirectory
    exact ⟨children, hfound, hfiles⟩
  · rw [hkind] at hkind'
    cases hkind'

theorem ofClassFile (h : m.ReadFrom found files) (hkind : m.kind = .classFile) :
    ∃ path bytes, files = [(path, bytes)] ∧ files = .ofClassFile m.source bytes := by
  obtain ⟨_, -, hkind', -⟩ | ⟨_, -, hkind', -⟩ | ⟨content, -, -, rfl⟩ := readContainer_eq_ok h.read
  · rw [hkind] at hkind'
    cases hkind'
  · rw [hkind] at hkind'
    cases hkind'
  · obtain ⟨path, hpath⟩ := ModuleFiles.ofClassFile_eq_singleton m.source content.bytes
    exact ⟨path, content.bytes, hpath, rfl⟩

/-- The names that lead to a file of a directory; there is at least one. -/
theorem isName_of_directory (h : m.ReadFrom found files) (hproper : ∀ node, found = .ok node → node.Proper)
    (hkind : m.kind = .directory) {file : String × List UInt8} (hfile : file ∈ files) :
    Path.partsOf file.1 ≠ [] ∧ ∀ name ∈ Path.partsOf file.1, IsName name := by
  obtain ⟨children, hfound, rfl⟩ := h.ofDirectory hkind
  obtain ⟨-, -, -, hne, hnames⟩ := ModuleFiles.mem_ofDirectory (hproper _ hfound) hfile
  exact ⟨hne, hnames⟩

theorem unique_of_directory (h : m.ReadFrom found files) (hproper : ∀ node, found = .ok node → node.Proper)
    (hkind : m.kind = .directory) {path : String} {bytes bytes' : List UInt8}
    (hmem : (path, bytes) ∈ files) (hmem' : (path, bytes') ∈ files) : bytes = bytes' := by
  obtain ⟨children, hfound, rfl⟩ := h.ofDirectory hkind
  exact ModuleFiles.ofDirectory_unique (hproper _ hfound) hmem hmem'

theorem isName (h : m.ReadFrom found files) (hproper : ∀ node, found = .ok node → node.Proper)
    {file : List String × FileContent} (hfile : file ∈ m.kind.written files) :
    ∀ name ∈ file.1, IsName name := by
  cases hkind : m.kind with
  | jar =>
    rw [hkind] at hfile
    simp [List.mem_singleton.mp hfile]
  | directory =>
    rw [hkind] at hfile
    obtain ⟨source, hsource, rfl⟩ := List.mem_map.mp hfile
    exact (h.isName_of_directory hproper hkind hsource).2
  | classFile =>
    rw [hkind] at hfile
    obtain ⟨source, -, rfl⟩ := List.mem_map.mp hfile
    simp

/-- A module is written as one file to a place. -/
theorem written_unique (h : m.ReadFrom found files) (hproper : ∀ node, found = .ok node → node.Proper)
    {file file' : List String × FileContent} (hfile : file ∈ m.kind.written files)
    (hfile' : file' ∈ m.kind.written files) (hnames : file'.1 = file.1) : file' = file := by
  cases hkind : m.kind with
  | jar =>
    rw [hkind] at hfile hfile'
    rw [List.mem_singleton.mp hfile, List.mem_singleton.mp hfile']
  | directory =>
    rw [hkind] at hfile hfile'
    obtain ⟨⟨path, bytes⟩, hmem, rfl⟩ := List.mem_map.mp hfile
    obtain ⟨⟨path', bytes'⟩, hmem', rfl⟩ := List.mem_map.mp hfile'
    obtain rfl := Path.partsOf_injective hnames
    rw [h.unique_of_directory hproper hkind hmem hmem']
  | classFile =>
    obtain ⟨path, bytes, hfiles, -⟩ := h.ofClassFile hkind
    rw [hkind, hfiles] at hfile hfile'
    rw [List.mem_singleton.mp hfile, List.mem_singleton.mp hfile']

/-- A jar is written as an archive. -/
theorem archive_mem (hkind : m.kind = .jar) : ([], .archive files) ∈ m.kind.written files := by
  rw [hkind]
  exact List.mem_singleton.mpr rfl

theorem kind_of_archive {names : List String} {entries : List (String × List UInt8)}
    (h : (names, .archive entries) ∈ m.kind.written files) : m.kind = .jar ∧ entries = files := by
  cases hkind : m.kind with
  | jar =>
    rw [hkind] at h
    cases List.mem_singleton.mp h
    exact ⟨rfl, rfl⟩
  | directory =>
    rw [hkind] at h
    obtain ⟨_, -, heq⟩ := List.mem_map.mp h
    cases heq
  | classFile =>
    rw [hkind] at h
    obtain ⟨_, -, heq⟩ := List.mem_map.mp h
    cases heq

theorem kind_of_data (h : m.ReadFrom found files) (hproper : ∀ node, found = .ok node → node.Proper)
    {bytes : List UInt8} (hmem : ([], .data bytes) ∈ m.kind.written files) :
    m.kind = .classFile ∧ files = .ofClassFile m.source bytes := by
  cases hkind : m.kind with
  | jar =>
    rw [hkind] at hmem
    cases List.mem_singleton.mp hmem
  | directory =>
    rw [hkind] at hmem
    obtain ⟨file, hfile, heq⟩ := List.mem_map.mp hmem
    exact absurd (Prod.mk.inj heq).1 (h.isName_of_directory hproper hkind hfile).1
  | classFile =>
    obtain ⟨path, bytes', hfiles, hclass⟩ := h.ofClassFile hkind
    rw [hkind, hfiles] at hmem
    cases List.mem_singleton.mp hmem
    exact ⟨rfl, hclass⟩

theorem data_mem (h : m.ReadFrom found files) (hkind : m.kind = .classFile) :
    ∃ bytes, ([], .data bytes) ∈ m.kind.written files ∧ files = .ofClassFile m.source bytes := by
  obtain ⟨path, bytes, hfiles, hclass⟩ := h.ofClassFile hkind
  refine ⟨bytes, ?_, hclass⟩
  rw [hkind, hfiles]
  exact List.mem_singleton.mpr rfl

/-- What a directory is written as tells its files. -/
theorem mem_of_written (hkind : m.kind = .directory) {path : String} {bytes : List UInt8} :
    (Path.partsOf path, .data bytes) ∈ m.kind.written files ↔ (path, bytes) ∈ files := by
  rw [hkind]
  refine ⟨fun h => ?_, List.mem_map_of_mem⟩
  obtain ⟨⟨path', bytes'⟩, hmem, heq⟩ := List.mem_map.mp h
  obtain ⟨hparts, hdata⟩ := Prod.mk.inj heq
  cases hdata
  exact Path.partsOf_injective hparts ▸ hmem

/-- Modules of one file name that are written as the same files have the same descriptor. -/
theorem readDescriptor_congr (h : m.ReadFrom found files) (h' : m'.ReadFrom found' files')
    (hproper : ∀ node, found = .ok node → node.Proper) (hproper' : ∀ node, found' = .ok node → node.Proper)
    (hname : m.source.fileName? = m'.source.fileName?) (hsub : m.kind.written files ⊆ m'.kind.written files')
    (hsub' : m'.kind.written files' ⊆ m.kind.written files) : readDescriptor files = readDescriptor files' := by
  cases hkind : m.kind with
  | jar =>
    obtain ⟨-, rfl⟩ := kind_of_archive (hsub (archive_mem hkind))
    rfl
  | classFile =>
    obtain ⟨bytes, hmem, hclass⟩ := h.data_mem hkind
    obtain ⟨-, hclass'⟩ := h'.kind_of_data hproper' (hsub hmem)
    rw [hclass, hclass', ModuleFiles.ofClassFile_congr hname]
  | directory =>
    cases hkind' : m'.kind with
    | jar =>
      rw [(kind_of_archive (hsub' (archive_mem hkind'))).1] at hkind
      cases hkind
    | classFile =>
      obtain ⟨bytes, hmem, -⟩ := h'.data_mem hkind'
      rw [(h.kind_of_data hproper (hsub' hmem)).1] at hkind
      cases hkind
    | directory =>
      have hlookup : files.lookup descriptorFile = files'.lookup descriptorFile := by
        ext bytes
        rw [lookup_eq_some_iff_mem (h.unique_of_directory hproper hkind),
          lookup_eq_some_iff_mem (h'.unique_of_directory hproper' hkind'), ← mem_of_written hkind,
          ← mem_of_written hkind']
        exact ⟨fun hmem => hsub hmem, fun hmem => hsub' hmem⟩
      rw [readDescriptor, readDescriptor, hlookup]

theorem name_congr (h : m.ReadFrom found files) (h' : m'.ReadFrom found' files')
    (hproper : ∀ node, found = .ok node → node.Proper) (hproper' : ∀ node, found' = .ok node → node.Proper)
    (hname : m.source.fileName? = m'.source.fileName?) (hsub : m.kind.written files ⊆ m'.kind.written files')
    (hsub' : m'.kind.written files' ⊆ m.kind.written files) : m.name = m'.name := by
  have hdescriptor : m.descriptor = m'.descriptor := by
    have hread := h.readDescriptor_congr h' hproper hproper' hname hsub hsub'
    rw [h.descriptor, h'.descriptor] at hread
    exact Except.ok.inj hread
  rw [h.name, h'.name, hdescriptor, Path.stem, Path.stem, hname]

end ResourceModule.ReadFrom

end DirectCall
