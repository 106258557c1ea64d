import DirectCall.Files.Path
import DirectCall.Files.Tree
import Mathlib.Data.List.Basic
import Mathlib.Data.List.Infix
import Mathlib.Data.List.Nodup
import Mathlib.Tactic.SplitIfs

/-!
# What is put into a file tree

Splitting a text at its slashes and joining texts by slashes undo each other. To go down from a path by some
names adds these names to those of the path.

Putting a node into a tree changes what stands there and beneath, makes directories of all that leads
there, and leaves the rest alone. For files this means: a file that is put into a directory is the only
one that changes (`file?_put`), and a new directory changes none (`file?_put_empty`).
-/

namespace DirectCall

/-- A part of a path that leads down. -/
structure IsName (name : String) : Prop where
  ne_empty : name ≠ ""
  ne_here : name ≠ "."
  ne_up : name ≠ ".."

/-- A name that an entry of a directory can have. -/
structure IsEntryName (name : String) : Prop extends IsName name where
  no_slash : '/' ∉ name.toList

namespace Path

/-! ## Splitting and joining -/

theorem split_eq_splitOn (text : List Char) : split text = text.splitOn '/' := by
  induction text with
  | nil => rfl
  | cons c rest ih =>
    rw [split, List.splitOn, List.splitOnP_cons_eq_if_modifyHead, ← List.splitOn, ih]
    by_cases hslash : c = '/'
    · rw [if_pos hslash, if_pos (beq_iff_eq.mpr hslash)]
    · rw [if_neg hslash, if_neg (by simpa using hslash)]
      cases hparts : rest.splitOn '/' with
      | nil => exact absurd hparts (List.splitOn_ne_nil _ _)
      | cons part parts => rfl

theorem partsOf_intercalate {parts : List String} (hne : parts ≠ [])
    (h : ∀ part ∈ parts, '/' ∉ part.toList) : partsOf ("/".intercalate parts) = parts := by
  have hsplit : (['/'].intercalate (parts.map String.toList)).splitOn '/' = parts.map String.toList :=
    List.splitOn_intercalate '/' (by simpa using h) (by simpa using hne)
  rw [partsOf, split_eq_splitOn, String.toList_intercalate, show "/".toList = ['/'] from rfl, hsplit]
  simp

theorem intercalate_partsOf (text : String) : "/".intercalate (partsOf text) = text := by
  have hmap : (text.toList.splitOn '/').map (String.toList ∘ String.ofList) = text.toList.splitOn '/' := by
    simp [Function.comp_def]
  rw [← String.toList_inj, String.toList_intercalate, partsOf, split_eq_splitOn, List.map_map, hmap]
  exact List.intercalate_splitOn '/'

theorem partsOf_injective : Function.Injective partsOf :=
  Function.LeftInverse.injective intercalate_partsOf

theorem isName_of_fileName? {p : Path} {name : String} (h : p.fileName? = some name) : IsName name := by
  rw [fileName?] at h
  split at h
  · cases h
  · rename_i up hlast
    split_ifs at h with hup
    cases h
    have hhead := List.head?_dropWhile_not isIdle p.parts.reverse
    rw [hlast] at hhead
    have hidle : name ≠ "" ∧ name ≠ "." := by simpa [isIdle] using hhead
    exact ⟨hidle.1, hidle.2, hup⟩

/-! ## Going down -/

theorem parts_child (p : Path) (name : String) :
    ∃ front, (p.child name).parts = front ++ [name] ∧
      (p.parts = front ∧ front.getLast? ≠ some "" ∨ p.parts = front ++ [""]) := by
  rw [child]
  split
  · rename_i hlast
    obtain ⟨front, hfront⟩ := List.getLast?_eq_some_iff.mp hlast
    exact ⟨front, by simp [hfront], .inr hfront⟩
  · rename_i hlast
    exact ⟨p.parts, rfl, .inl ⟨rfl, hlast⟩⟩

theorem names_child (p : Path) {name : String} (h : name ≠ "") : (p.child name).names = p.names ++ [name] := by
  obtain ⟨front, hchild, ⟨hparts, -⟩ | hparts⟩ := p.parts_child name <;> simp [names, hchild, hparts, h]

theorem isAbsolute_of_parts {p : Path} {first second : String} {rest : List String}
    (h : p.parts = first :: second :: rest) : p.isAbsolute = decide (first = "") := by
  rw [isAbsolute, h]
  by_cases hfirst : first = ""
  · subst hfirst
    rfl
  · simp [hfirst]

/-- A path that names nothing and does not start at the root has no text. -/
theorem text_of_names_eq_nil {p : Path} (h : p.names = []) (hrelative : p.isAbsolute = false) :
    p.text = "" := by
  have hempty : ∀ part ∈ p.parts, part = "" := by simpa [names] using h
  obtain ⟨parts⟩ := p
  rcases parts with _ | ⟨first, _ | ⟨second, rest⟩⟩
  · rfl
  · rw [text, hempty first (by simp)]
    rfl
  · rw [isAbsolute_of_parts rfl, hempty first (by simp)] at hrelative
    cases hrelative

theorem isAbsolute_child (p : Path) {name : String} (h : name ≠ "") :
    (p.child name).isAbsolute = p.isAbsolute := by
  obtain ⟨front, hchild, ⟨hparts, hlast⟩ | hparts⟩ := p.parts_child name
  · rcases front with _ | ⟨first, _ | ⟨second, rest⟩⟩
    · rw [isAbsolute, isAbsolute, hchild, hparts]
      simp
    · rw [isAbsolute_of_parts hchild, isAbsolute, hparts]
      simpa using hlast
    · rw [isAbsolute_of_parts hchild, isAbsolute_of_parts hparts]
  · rcases front with _ | ⟨first, _ | ⟨second, rest⟩⟩
    · rw [isAbsolute, isAbsolute, hchild, hparts]
      simp
    · rw [isAbsolute_of_parts hchild, isAbsolute_of_parts hparts]
    · rw [isAbsolute_of_parts hchild, isAbsolute_of_parts hparts]

theorem descend_cons (p : Path) (name : String) (names : List String) :
    p.descend (name :: names) = (p.child name).descend names := rfl

theorem names_descend (p : Path) {names : List String} (h : ∀ name ∈ names, name ≠ "") :
    (p.descend names).names = p.names ++ names := by
  induction names generalizing p with
  | nil => simp [descend]
  | cons name names ih =>
    obtain ⟨hname, hnames⟩ := List.forall_mem_cons.mp h
    rw [descend_cons, ih _ hnames, names_child p hname, List.append_assoc, List.singleton_append]

theorem isAbsolute_descend (p : Path) {names : List String} (h : ∀ name ∈ names, name ≠ "") :
    (p.descend names).isAbsolute = p.isAbsolute := by
  induction names generalizing p with
  | nil => rfl
  | cons name names ih =>
    obtain ⟨hname, hnames⟩ := List.forall_mem_cons.mp h
    rw [descend_cons, ih _ hnames, isAbsolute_child p hname]

end Path

theorem lookup_cons_ne {name other : String} (h : ¬ other = name) (value : α)
    (rest : List (String × α)) : ((name, value) :: rest).lookup other = rest.lookup other := by
  rw [List.lookup_cons, beq_eq_false_iff_ne.mpr h]

theorem lookup_setNamed {name : String} {value : α} {l : List (String × α)} (other : String) :
    (setNamed name value l).lookup other = if other = name then some value else l.lookup other := by
  split_ifs with h
  · subst h
    induction l with
    | nil => exact List.lookup_cons_self
    | cons pair rest ih =>
      rw [setNamed]
      split_ifs with hkey
      · exact List.lookup_cons_self
      · rw [lookup_cons_ne (Ne.symm hkey), ih]
  · induction l with
    | nil => exact lookup_cons_ne h value []
    | cons pair rest ih =>
      obtain ⟨key, old⟩ := pair
      rw [setNamed]
      split_ifs with hkey
      · rw [lookup_cons_ne h, lookup_cons_ne (hkey ▸ h)]
      · rw [List.lookup_cons, List.lookup_cons, ih]

namespace FileNode

/-- The file that stands beneath a node. -/
def file? (node : FileNode) (names : List String) : Option FileContent :=
  match node.at? names with
  | some (.file content) => some content
  | _ => none

/-- A directory stands there. -/
def IsDirectory (node : FileNode) (names : List String) : Prop :=
  ∃ children, node.at? names = some (.directory children)

theorem file?_eq_some {node : FileNode} {names : List String} {content : FileContent} :
    node.file? names = some content ↔ node.at? names = some (.file content) := by
  unfold file?
  split
  · rename_i content' hat
    rw [hat]
    simp
  · rename_i hother
    simp only [reduceCtorEq, false_iff]
    exact hother content

theorem IsDirectory.file?_eq_none {node : FileNode} {names : List String} (h : node.IsDirectory names) :
    node.file? names = none := by
  obtain ⟨children, hat⟩ := h
  rw [file?, hat]

theorem at?_append (node : FileNode) (names rest : List String) :
    node.at? (names ++ rest) = (node.at? names).bind (·.at? rest) := by
  induction names generalizing node with
  | nil => rfl
  | cons name names ih =>
    rw [List.cons_append, at?, at?, Option.bind_assoc]
    exact congrArg _ (funext fun child => ih child)

/-- Only a directory has something beneath it. -/
theorem isDirectory_of_at? {node child : FileNode} {names : List String} {name : String}
    {rest : List String} (h : node.at? (names ++ name :: rest) = some child) : node.IsDirectory names := by
  rw [at?_append] at h
  obtain ⟨below, hbelow, h⟩ := Option.bind_eq_some_iff.mp h
  cases below with
  | file content => simp [at?, child?, children] at h
  | directory children => exact ⟨children, hbelow⟩

/-! ## Putting -/

theorem child?_put (node new : FileNode) (name : String) (names : List String) (other : String) :
    (node.put (name :: names) new).child? other =
      if other = name then some (((node.child? name).getD empty).put names new) else node.child? other := by
  rw [put, child?, children, lookup_setNamed]
  rfl

theorem at?_put (node new : FileNode) (names rest : List String) :
    (node.put names new).at? (names ++ rest) = new.at? rest := by
  induction names generalizing node with
  | nil => rfl
  | cons name names ih =>
    rw [List.cons_append, at?, child?_put, if_pos rfl, Option.bind_some, ih]

/-- What leads to a node is a directory once it is put there. -/
theorem isDirectory_put (node new : FileNode) (names : List String) (name : String) (rest : List String) :
    (node.put (names ++ name :: rest) new).IsDirectory names := by
  have hat := at?_put node new (names ++ name :: rest) []
  rw [List.append_nil] at hat
  exact isDirectory_of_at? hat

/-- What neither leads to the place nor stands beneath it is left alone. -/
theorem at?_put_of_apart (node new : FileNode) {names other : List String} (h : ¬ names <+: other)
    (h' : ¬ other <+: names) : (node.put names new).at? other = node.at? other := by
  induction names generalizing node other with
  | nil => exact absurd List.nil_prefix h
  | cons name names ih =>
    cases other with
    | nil => exact absurd List.nil_prefix h'
    | cons first other =>
      rw [at?, at?, child?_put]
      by_cases heq : first = name
      · subst heq
        rw [if_pos rfl, Option.bind_some, ih _ (fun hp => h (List.cons_prefix_cons.mpr ⟨rfl, hp⟩))
          (fun hp => h' (List.cons_prefix_cons.mpr ⟨rfl, hp⟩))]
        cases hchild : node.child? first with
        | some child => rfl
        | none =>
          cases other with
          | nil => exact absurd (List.cons_prefix_cons.mpr ⟨rfl, List.nil_prefix⟩) h'
          | cons next other => rfl
      · rw [if_neg heq]

/-- All that leads to the place is a directory. -/
def Leads (node : FileNode) (names : List String) : Prop :=
  ∀ front name rest, names = front ++ name :: rest → node.IsDirectory front

theorem IsDirectory.leads {node : FileNode} {names : List String} (h : node.IsDirectory names) :
    node.Leads names := by
  rintro front name rest rfl
  obtain ⟨children, hat⟩ := h
  exact isDirectory_of_at? hat

theorem IsDirectory.leads_child {node : FileNode} {names : List String} (h : node.IsDirectory names)
    (name : String) : node.Leads (names ++ [name]) := by
  intro front first rest heq
  rcases List.eq_nil_or_concat rest with rfl | ⟨rest, last, rfl⟩
  · obtain ⟨rfl, -⟩ := List.append_inj' heq rfl
    exact h
  · rw [List.concat_eq_append, ← List.cons_append, ← List.append_assoc] at heq
    exact h.leads front first rest (List.append_inj' heq rfl).1

theorem Leads.front {node : FileNode} {names rest : List String} (h : node.Leads (names ++ rest)) :
    node.Leads names := by
  rintro front name between rfl
  exact h front name (between ++ rest) (by simp)

/-- Two places: one is beneath the other, or they are apart. -/
theorem place_cases (names other : List String) :
    (∃ rest, other = names ++ rest) ∨ (∃ name rest, names = other ++ name :: rest) ∨
      ¬ names <+: other ∧ ¬ other <+: names := by
  by_cases h : names <+: other
  · obtain ⟨rest, rfl⟩ := h
    exact .inl ⟨rest, rfl⟩
  · by_cases h' : other <+: names
    · obtain ⟨rest, rfl⟩ := h'
      cases rest with
      | nil => exact absurd (by simp) h
      | cons name rest => exact .inr (.inl ⟨name, rest, rfl⟩)
    · exact .inr (.inr ⟨h, h'⟩)

section Put

variable {node : FileNode} {names : List String}

/-- Nothing stands beneath what is no directory. -/
theorem file?_beneath (h : ¬ node.IsDirectory names) (name : String) (rest : List String) :
    node.file? (names ++ name :: rest) = none := by
  rw [Option.eq_none_iff_forall_ne_some]
  intro content hcontent
  exact h (isDirectory_of_at? (file?_eq_some.mp hcontent))

/-- A file that is put into a directory is the only one that changes. -/
theorem file?_put (hleads : node.Leads names) (h : ¬ node.IsDirectory names) (content : FileContent)
    (other : List String) :
    (node.put names (.file content)).file? other =
      if other = names then some content else node.file? other := by
  obtain ⟨rest, rfl⟩ | ⟨name, rest, hnames⟩ | ⟨hapart, hapart'⟩ := place_cases names other
  · cases rest with
    | nil =>
      have hat := at?_put node (.file content) names []
      rw [List.append_nil] at hat ⊢
      rw [if_pos rfl, file?, hat]
      rfl
    | cons name rest =>
      rw [if_neg (by simp), file?_beneath h, file?, at?_put]
      rfl
  · rw [if_neg fun (heq : other = names) => by simp [heq] at hnames, (hleads _ _ _ hnames).file?_eq_none, hnames,
      (isDirectory_put node (.file content) other name rest).file?_eq_none]
  · rw [if_neg fun (heq : other = names) => hapart (heq ▸ List.prefix_rfl), file?,
      at?_put_of_apart _ _ hapart hapart', file?]

/-- A directory that is put where nothing is changes no file. -/
theorem file?_put_empty (hleads : node.Leads names) (h : node.at? names = none) (other : List String) :
    (node.put names empty).file? other = node.file? other := by
  have hnone : ¬ node.IsDirectory names := by
    rintro ⟨children, hchildren⟩
    rw [h] at hchildren
    cases hchildren
  obtain ⟨rest, rfl⟩ | ⟨name, rest, hnames⟩ | ⟨hapart, hapart'⟩ := place_cases names other
  · cases rest with
    | nil =>
      rw [file?, at?_put, List.append_nil, file?, h]
      rfl
    | cons name rest =>
      rw [file?_beneath hnone, file?, at?_put]
      rfl
  · rw [(hleads _ _ _ hnames).file?_eq_none, hnames,
      (isDirectory_put node empty other name rest).file?_eq_none]
  · rw [file?, at?_put_of_apart _ _ hapart hapart', file?]

/-- No directory goes. -/
theorem isDirectory_put_of_isDirectory (h : ¬ node.IsDirectory names) (new : FileNode)
    {other : List String} (hother : node.IsDirectory other) : (node.put names new).IsDirectory other := by
  obtain ⟨rest, rfl⟩ | ⟨name, rest, rfl⟩ | ⟨hapart, hapart'⟩ := place_cases names other
  · cases rest with
    | nil => exact absurd (List.append_nil names ▸ hother) h
    | cons name rest =>
      obtain ⟨children, hchildren⟩ := hother
      exact absurd (isDirectory_of_at? hchildren) h
  · exact isDirectory_put node new other name rest
  · obtain ⟨children, hchildren⟩ := hother
    exact ⟨children, by rw [at?_put_of_apart _ _ hapart hapart', hchildren]⟩

end Put

/-! ## All files of a tree -/

/-- Children have names, and no two of them the same. -/
inductive Proper : FileNode → Prop where
  | file (content : FileContent) : Proper (.file content)
  | directory {children : List (String × FileNode)} (hnames : (children.map (·.1)).Nodup)
      (hisName : ∀ child ∈ children, IsEntryName child.1) (hchildren : ∀ child ∈ children, Proper child.2) :
      Proper (.directory children)

theorem mem_of_lookup {α : Type} {name : String} {value : α} {l : List (String × α)}
    (h : l.lookup name = some value) : (name, value) ∈ l := by
  obtain ⟨before, after, rfl, -⟩ := List.lookup_eq_some_iff.mp h
  exact List.mem_append_right _ List.mem_cons_self

theorem Proper.at? {node below : FileNode} (h : node.Proper) {names : List String}
    (hat : node.at? names = some below) : below.Proper := by
  induction names generalizing node with
  | nil =>
    cases hat
    exact h
  | cons name names ih =>
    obtain ⟨child, hchild, hbelow⟩ := Option.bind_eq_some_iff.mp hat
    cases h with
    | file content => cases hchild
    | directory hnames hisName hchildren => exact ih (hchildren _ (mem_of_lookup hchild)) hbelow

theorem filesByName_eq (children : List (String × FileNode)) :
    filesByName children = children.map fun child => (child.1, child.2.files) := by
  induction children with
  | nil => rfl
  | cons child rest ih =>
    obtain ⟨name, node⟩ := child
    rw [filesByName, ih, List.map_cons]

theorem mem_files_directory {children : List (String × FileNode)} {names : List String}
    {content : FileContent} :
    (names, content) ∈ (directory children).files ↔
      ∃ name rest node, names = name :: rest ∧ (name, node) ∈ children ∧ (rest, content) ∈ node.files := by
  rw [files, List.mem_flatMap]
  simp only [List.mem_mergeSort, filesByName_eq, List.mem_map, Prod.mk.injEq]
  constructor
  · rintro ⟨_, ⟨⟨name, node⟩, hchild, rfl⟩, ⟨rest, content'⟩, hmem, rfl, rfl⟩
    exact ⟨name, rest, node, rfl, hchild, hmem⟩
  · rintro ⟨name, rest, node, rfl, hchild, hmem⟩
    exact ⟨_, ⟨(name, node), hchild, rfl⟩, (rest, content), hmem, rfl, rfl⟩

theorem Proper.isEntryName {node : FileNode} (h : node.Proper) {names : List String}
    {content : FileContent} (hmem : (names, content) ∈ node.files) : ∀ name ∈ names, IsEntryName name := by
  induction h generalizing names content with
  | file content' =>
    simp only [files, List.mem_singleton, Prod.mk.injEq] at hmem
    simp [hmem.1]
  | directory hnames hisName hchildren ih =>
    obtain ⟨name, rest, node, rfl, hchild, hmem⟩ := mem_files_directory.mp hmem
    exact List.forall_mem_cons.mpr ⟨hisName _ hchild, ih _ hchild hmem⟩

/-- One place has one file. -/
theorem Proper.unique {node : FileNode} (h : node.Proper) {names : List String}
    {content content' : FileContent} (hmem : (names, content) ∈ node.files)
    (hmem' : (names, content') ∈ node.files) : content = content' := by
  induction h generalizing names content content' with
  | file content'' =>
    simp only [files, List.mem_singleton, Prod.mk.injEq] at hmem hmem'
    rw [hmem.2, hmem'.2]
  | directory hnames hisName hchildren ih =>
    obtain ⟨name, rest, node, rfl, hchild, hmem⟩ := mem_files_directory.mp hmem
    obtain ⟨name', rest', node', heq, hchild', hmem'⟩ := mem_files_directory.mp hmem'
    obtain ⟨rfl, rfl⟩ := List.cons.inj heq
    have hsame := List.inj_on_of_nodup_map hnames hchild hchild' rfl
    rw [← (Prod.mk.inj hsame).2] at hmem'
    exact ih _ hchild hmem hmem'

end FileNode

end DirectCall
