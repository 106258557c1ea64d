import DirectCall.Files.System
import DirectCall.Proofs.Files.Tree
import DirectCall.Proofs.Result

/-!
# What a run of file effects leaves behind

To make directories changes no file, and to write a file changes that one alone. So after a run each place
holds what the last write to it put there, or what it held before (`performAll_file?`).
-/

namespace DirectCall

namespace FileSystem

/-! ## Where a path leads -/

/-- Where the names of a path lead, whatever the text of the path. -/
def destination (fs : FileSystem) (p : Path) : Except FileError (List String) := do
  let place ← p.names.foldlM fs.step (if p.isAbsolute then [] else fs.home.reverse)
  return place.reverse

theorem follow_eq_ok {fs : FileSystem} {p : Path} {place : List String} :
    fs.follow p p.names = .ok place ↔ checkText p = .ok () ∧ fs.destination p = .ok place := by
  have hfollow : fs.follow p p.names = checkText p >>= fun _ => fs.destination p := rfl
  rw [hfollow, bind_eq_ok]
  exact ⟨fun ⟨_, hcheck, hplace⟩ => ⟨hcheck, hplace⟩, fun ⟨hcheck, hplace⟩ => ⟨(), hcheck, hplace⟩⟩

theorem step_eq_ok {fs : FileSystem} {here there : List String} {name : String}
    (h : fs.step here name = .ok there) :
    fs.root.IsDirectory here.reverse ∧
      there = if name = "." then here else if name = ".." then here.tail else name :: here := by
  unfold step at h
  split at h
  · cases h
  · cases h
  · rename_i children hat
    refine ⟨⟨children, hat⟩, ?_⟩
    split_ifs at h ⊢ <;> cases h <;> rfl

/-- A step is made in a directory, and only as far as this matters. -/
theorem step_eq_ok_of_isDirectory {fs after : FileSystem} {here there : List String} {name : String}
    (h : fs.step here name = .ok there) (hdir : after.root.IsDirectory here.reverse) :
    after.step here name = .ok there := by
  obtain ⟨children, hat⟩ := (step_eq_ok h).1
  obtain ⟨children', hat'⟩ := hdir
  rw [step, hat] at h
  rw [step, hat']
  exact h

theorem leads_of_step {fs : FileSystem} {here there : List String} {name : String}
    (h : fs.step here name = .ok there) : fs.root.Leads there.reverse := by
  obtain ⟨hdir, rfl⟩ := step_eq_ok h
  split_ifs
  · exact hdir.leads
  · cases here with
    | nil => exact hdir.leads
    | cons last here =>
      rw [List.reverse_cons] at hdir
      exact hdir.leads.front
  · rw [List.reverse_cons]
    exact hdir.leads_child name

theorem leads_of_follow {fs : FileSystem} {p : Path} {place : List String}
    (h : fs.follow p p.names = .ok place) : fs.root.Leads place := by
  obtain ⟨hcheck, h⟩ := follow_eq_ok.mp h
  obtain ⟨there, hthere, h⟩ := bind_eq_ok.mp h
  cases h
  rcases List.eq_nil_or_concat p.names with hnames | ⟨names, name, hnames⟩
  · cases habsolute : p.isAbsolute with
    | true =>
      rw [hnames, habsolute] at hthere
      cases hthere
      rintro front name rest heq
      simp at heq
    | false =>
      rw [checkText, Path.text_of_names_eq_nil hnames habsolute] at hcheck
      cases hcheck
  · rw [hnames, List.concat_eq_append, List.foldlM_append] at hthere
    obtain ⟨here, -, hthere⟩ := bind_eq_ok.mp hthere
    rw [List.foldlM_cons] at hthere
    obtain ⟨_, hstep, hthere⟩ := bind_eq_ok.mp hthere
    cases hthere
    exact leads_of_step hstep

/-- Names that are to be entries are walked down. -/
theorem foldlM_step_eq_ok {fs : FileSystem} {here there names : List String}
    (hnames : ∀ name ∈ names, IsName name) (h : names.foldlM fs.step here = .ok there) :
    there.reverse = here.reverse ++ names := by
  induction names generalizing here with
  | nil =>
    cases h
    simp
  | cons name names ih =>
    obtain ⟨hname, hnames⟩ := List.forall_mem_cons.mp hnames
    rw [List.foldlM_cons] at h
    obtain ⟨next, hstep, h⟩ := bind_eq_ok.mp h
    obtain ⟨-, rfl⟩ := step_eq_ok hstep
    rw [ih hnames h, if_neg hname.ne_here, if_neg hname.ne_up]
    simp

theorem destination_descend {fs : FileSystem} {p : Path} {names place : List String}
    (hnames : ∀ name ∈ names, IsName name) (h : fs.destination (p.descend names) = .ok place) :
    ∃ base, fs.destination p = .ok base ∧ place = base ++ names := by
  have hne : ∀ name ∈ names, name ≠ "" := fun name hname => (hnames name hname).ne_empty
  obtain ⟨there, hthere, h⟩ := bind_eq_ok.mp h
  cases h
  rw [p.names_descend hne, p.isAbsolute_descend hne, List.foldlM_append] at hthere
  obtain ⟨here, hhere, hthere⟩ := bind_eq_ok.mp hthere
  exact ⟨here.reverse, bind_eq_ok.mpr ⟨here, hhere, rfl⟩, foldlM_step_eq_ok hnames hthere⟩

/-- A tree has in it what was found. -/
theorem proper_of_find {fs : FileSystem} (hproper : fs.root.Proper) {p : Path} {node : FileNode}
    (h : fs.find p = .ok node) : node.Proper := by
  obtain ⟨place, -, h⟩ := bind_eq_ok.mp h
  split at h
  · cases h
  · rename_i content hat
    split_ifs at h
    cases h
    exact hproper.at? hat
  · rename_i children hat
    cases h
    exact hproper.at? hat

theorem find_eq_file {fs : FileSystem} {p : Path} {place : List String} {content : FileContent}
    (hplace : fs.follow p p.names = .ok place) (hslash : p.endsInSlash = false)
    (hfile : fs.root.file? place = some content) : fs.find p = .ok (.file content) := by
  refine bind_eq_ok.mpr ⟨place, hplace, ?_⟩
  rw [FileNode.file?_eq_some.mp hfile]
  simp only [hslash]
  rfl

/-! ## Changes -/

/-- Directories stay, and paths start where they did. -/
structure Grows (fs after : FileSystem) : Prop where
  home : after.home = fs.home
  isDirectory : ∀ names, fs.root.IsDirectory names → after.root.IsDirectory names

section Grows

variable {fs mid after : FileSystem}

theorem Grows.refl (fs : FileSystem) : fs.Grows fs := ⟨rfl, fun _ => id⟩

theorem Grows.trans (h : fs.Grows mid) (h' : mid.Grows after) : fs.Grows after :=
  ⟨h'.home.trans h.home, fun names hdir => h'.isDirectory names (h.isDirectory names hdir)⟩

theorem Grows.foldlM_step (h : fs.Grows after) {here there names : List String}
    (hthere : names.foldlM fs.step here = .ok there) : names.foldlM after.step here = .ok there := by
  induction names generalizing here with
  | nil => exact hthere
  | cons name names ih =>
    rw [List.foldlM_cons] at hthere ⊢
    obtain ⟨next, hstep, hthere⟩ := bind_eq_ok.mp hthere
    have hdir := h.isDirectory _ (step_eq_ok hstep).1
    exact bind_eq_ok.mpr ⟨next, step_eq_ok_of_isDirectory hstep hdir, ih hthere⟩

/-- Where a path leads, it leads from then on. -/
theorem Grows.follow (h : fs.Grows after) {p : Path} {place : List String}
    (hplace : fs.follow p p.names = .ok place) : after.follow p p.names = .ok place := by
  obtain ⟨hcheck, hplace⟩ := follow_eq_ok.mp hplace
  obtain ⟨there, hthere, hplace⟩ := bind_eq_ok.mp hplace
  refine follow_eq_ok.mpr ⟨hcheck, bind_eq_ok.mpr ⟨there, ?_, hplace⟩⟩
  rw [h.home]
  exact h.foldlM_step hthere

end Grows

/-- Nothing but directories is new. -/
structure Extends (fs after : FileSystem) : Prop extends Grows fs after where
  file? : ∀ names, after.root.file? names = fs.root.file? names

section Extends

variable {fs mid after : FileSystem}

theorem Extends.refl (fs : FileSystem) : fs.Extends fs := ⟨.refl fs, fun _ => rfl⟩

theorem Extends.trans (h : fs.Extends mid) (h' : mid.Extends after) : fs.Extends after :=
  ⟨h.toGrows.trans h'.toGrows, fun names => (h'.file? names).trans (h.file? names)⟩

theorem makeDirectory_extends {p : Path} (h : fs.makeDirectory p = .ok after) : fs.Extends after := by
  obtain ⟨place, hplace, h⟩ := bind_eq_ok.mp h
  have hleads := leads_of_follow hplace
  split at h
  · cases h
  · rename_i hnone
    cases h
    refine ⟨⟨rfl, fun names hdir => FileNode.isDirectory_put_of_isDirectory ?_ _ hdir⟩, fun names =>
      FileNode.file?_put_empty hleads hnone names⟩
    rintro ⟨children, hat⟩
    rw [hnone] at hat
    cases hat

theorem ensureDirectory_extends {p : Path} (h : fs.ensureDirectory p = .ok after) : fs.Extends after := by
  unfold ensureDirectory at h
  split at h
  · split_ifs at h
    cases h
    exact .refl fs
  · exact makeDirectory_extends h

theorem ensureFirst_extends {paths : List Path} (h : fs.ensureFirst paths = .ok after) : fs.Extends after := by
  induction paths generalizing fs after with
  | nil =>
    cases h
    exact .refl fs
  | cons p around ih =>
    unfold ensureFirst at h
    split at h
    · obtain ⟨mid, hmid, h⟩ := bind_eq_ok.mp h
      exact (ih hmid).trans (ensureDirectory_extends h)
    · exact ensureDirectory_extends h

theorem makeDirectories_extends {p : Path} (h : fs.makeDirectories p = .ok after) : fs.Extends after :=
  ensureFirst_extends h

end Extends

/-- A file was written at a path. -/
structure Writes (fs : FileSystem) (p : Path) (content : FileContent) (after : FileSystem) : Prop
    extends Grows fs after where
  endsInSlash : p.endsInSlash = false
  file? : ∃ place, fs.follow p p.names = .ok place ∧
    ∀ names, after.root.file? names = if names = place then some content else fs.root.file? names

theorem write_writes {fs after : FileSystem} {p : Path} {content : FileContent}
    (h : fs.write p content = .ok after) : fs.Writes p content after := by
  unfold write at h
  split_ifs at h with hslash
  · obtain ⟨_, _, h⟩ := bind_eq_ok.mp h
    cases h
  · obtain ⟨place, hplace, h⟩ := bind_eq_ok.mp h
    have hleads := leads_of_follow hplace
    split at h
    · cases h
    · rename_i hfile
      cases h
      have hnone : ¬ fs.root.IsDirectory place := fun ⟨children, hat⟩ => hfile children hat
      exact ⟨⟨rfl, fun names => FileNode.isDirectory_put_of_isDirectory hnone _⟩, by simpa using hslash,
        place, hplace, FileNode.file?_put hleads hnone content⟩

end FileSystem

/-! ## A run of effects -/

namespace FileEffect

/-- What an effect writes, and where. -/
def write? : FileEffect → Option (Path × FileContent)
  | makeDirectories _ => none
  | writeFile p bytes | writeReport p bytes => some (p, .data bytes)
  | writeArchive p entries => some (p, .archive entries)

/-- What an effect does if it is not turned down. -/
theorem performOn_eq_ok {fs after : FileSystem} {e : FileEffect} (h : e.performOn fs = .ok after) :
    match e.write? with
    | none => fs.Extends after
    | some (p, content) => fs.Writes p content after := by
  cases e with
  | makeDirectories p => exact FileSystem.makeDirectories_extends h
  | writeFile p bytes => exact FileSystem.write_writes h
  | writeArchive p entries => exact FileSystem.write_writes h
  | writeReport p bytes => exact FileSystem.write_writes h

theorem performAll_cons_ok {fs after : FileSystem} {e : FileEffect} {rest : List FileEffect} :
    performAll fs (e :: rest) = (after, .ok ()) ↔
      ∃ mid, e.performOn fs = .ok mid ∧ performAll mid rest = (after, .ok ()) := by
  rw [performAll]
  cases e.performOn fs with
  | ok mid => simp
  | error cause => simp

theorem performAll_grows {fs after : FileSystem} {effects : List FileEffect}
    (h : performAll fs effects = (after, .ok ())) : fs.Grows after := by
  induction effects generalizing fs with
  | nil =>
    cases h
    exact .refl _
  | cons e rest ih =>
    obtain ⟨mid, hmid, h⟩ := performAll_cons_ok.mp h
    have hperform := performOn_eq_ok hmid
    split at hperform
    · exact hperform.toGrows.trans (ih h)
    · exact hperform.toGrows.trans (ih h)

/-- Each path that was written leads to its place from then on. -/
theorem performAll_follow {fs after : FileSystem} {effects : List FileEffect}
    (h : performAll fs effects = (after, .ok ())) {w : Path × FileContent}
    (hw : w ∈ effects.filterMap write?) :
    w.1.endsInSlash = false ∧ ∃ place, after.follow w.1 w.1.names = .ok place := by
  induction effects generalizing fs with
  | nil => simp at hw
  | cons e rest ih =>
    obtain ⟨mid, hmid, h⟩ := performAll_cons_ok.mp h
    rw [List.filterMap_cons] at hw
    have hperform := performOn_eq_ok hmid
    split at hperform
    · rename_i hnone
      rw [hnone] at hw
      exact ih h hw
    · rename_i p content hwrite
      rw [hwrite] at hw
      rcases List.mem_cons.mp hw with rfl | hw
      · obtain ⟨place, hplace, -⟩ := hperform.file?
        exact ⟨hperform.endsInSlash, place, (hperform.toGrows.trans (performAll_grows h)).follow hplace⟩
      · exact ih h hw

/-- What stands at a place after some writes, by what stood there before. -/
def replay (fs : FileSystem) (place : List String) (writes : List (Path × FileContent))
    (held : Option FileContent) : Option FileContent :=
  writes.foldl (fun held w => if fs.destination w.1 = .ok place then some w.2 else held) held

theorem performAll_file? {fs after : FileSystem} {effects : List FileEffect}
    (h : performAll fs effects = (after, .ok ())) (place : List String) :
    after.root.file? place = replay after place (effects.filterMap write?) (fs.root.file? place) := by
  induction effects generalizing fs with
  | nil =>
    cases h
    rfl
  | cons e rest ih =>
    obtain ⟨mid, hmid, h⟩ := performAll_cons_ok.mp h
    rw [ih h, List.filterMap_cons]
    have hperform := performOn_eq_ok hmid
    split at hperform
    · rename_i hnone
      rw [hnone, hperform.file?]
    · rename_i p content hwrite
      obtain ⟨there, hthere, hfile⟩ := hperform.file?
      have hdestination := ((hperform.toGrows.trans (performAll_grows h)).follow hthere)
      rw [hwrite, hfile, replay, replay, List.foldl_cons,
        (FileSystem.follow_eq_ok.mp hdestination).2]
      simp only [Except.ok.injEq, eq_comm]

section Replay

variable {fs : FileSystem} {place : List String} {writes : List (Path × FileContent)}

theorem replay_cons (w : Path × FileContent) (held : Option FileContent) :
    replay fs place (w :: writes) held =
      replay fs place writes (if fs.destination w.1 = .ok place then some w.2 else held) := rfl

/-- What stands at a place was written there or stood there before. -/
theorem replay_eq_some {held : Option FileContent} {content : FileContent}
    (h : replay fs place writes held = some content) :
    (∃ w ∈ writes, fs.destination w.1 = .ok place ∧ w.2 = content) ∨ held = some content := by
  induction writes generalizing held with
  | nil => exact .inr h
  | cons w writes ih =>
    rw [replay_cons] at h
    rcases ih h with ⟨w', hw', hhere⟩ | hheld
    · exact .inl ⟨w', List.mem_cons_of_mem _ hw', hhere⟩
    · split_ifs at hheld with hhere
      · exact .inl ⟨w, List.mem_cons_self, hhere, Option.some.inj hheld⟩
      · exact .inr hheld

theorem replay_eq_self (h : ∀ w ∈ writes, fs.destination w.1 ≠ .ok place) (held : Option FileContent) :
    replay fs place writes held = held := by
  induction writes with
  | nil => rfl
  | cons w writes ih =>
    obtain ⟨hw, hwrites⟩ := List.forall_mem_cons.mp h
    rw [replay_cons, if_neg hw, ih hwrites]

/-- A place that was written holds something that was written there. -/
theorem replay_written {w : Path × FileContent} (hw : w ∈ writes)
    (hplace : fs.destination w.1 = .ok place) (held : Option FileContent) :
    ∃ w' ∈ writes, fs.destination w'.1 = .ok place ∧ replay fs place writes held = some w'.2 := by
  induction writes generalizing held w with
  | nil => simp at hw
  | cons first writes ih =>
    rw [replay_cons]
    by_cases hlater : ∃ w' ∈ writes, fs.destination w'.1 = .ok place
    · obtain ⟨w', hw', hplace'⟩ := hlater
      obtain ⟨last, hlast, hhere⟩ := ih hw' hplace' _
      exact ⟨last, List.mem_cons_of_mem _ hlast, hhere⟩
    · push Not at hlater
      rcases List.mem_cons.mp hw with rfl | hw
      · rw [if_pos hplace]
        exact ⟨w, List.mem_cons_self, hplace, replay_eq_self hlater _⟩
      · exact absurd hplace (hlater w hw)

end Replay

end FileEffect

end DirectCall
