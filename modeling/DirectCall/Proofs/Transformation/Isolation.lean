import DirectCall.Proofs.Result
import DirectCall.Transformation
import Mathlib.Data.List.Forall2
import Mathlib.Tactic.SplitIfs

/-!
# Entries are worked on by themselves

What a run does to a pool is the sum of what it does to single entries (`transformAdmitting_settles`). An
entry is left alone, given up, looked at, or replaced (`Settles`): it is replaced exactly if a call in it
was (`ClassFile.transform_bytes`), and where it was given up, nothing of the work is left.
-/

namespace DirectCall

/-! ## One class -/

namespace ResourcePool

variable (pool : ResourcePool) (admits : List UInt8 → Bool) (settings : Settings)

/-- The entry is a class file of an input. -/
def IsInputClass (e : ResourceEntry) : Prop := pool.isOfInput e = true ∧ e.isClass = true

/-- The class in the entry was worked on to the end. -/
def Finishes (e : ResourceEntry) (bytes : Option (List UInt8)) (sites : List CallSite) : Prop :=
  admits e.bytes = true ∧ ∃ c, ClassFile.parse e.bytes = .ok c ∧
    c.transform (pool.classContext pool.hierarchy settings e) settings = .ok (bytes, sites)

/-- The work on the class in the entry was given up: its bytes are not admitted or cannot be read, or a
part of the work fails. -/
def GivesUp (e : ResourceEntry) (fault : StageFault) : Prop :=
  (admits e.bytes = false ∧ fault = .inadmissible) ∨
    admits e.bytes = true ∧
      ((∃ cause, ClassFile.parse e.bytes = .error cause ∧ fault = .failed .parse cause) ∨
        ∃ c, ClassFile.parse e.bytes = .ok c ∧
          c.transform (pool.classContext pool.hierarchy settings e) settings = .error fault)

/-! ## One entry -/

/-- What a run leaves of an entry, and what it reports of it. -/
structure EntryShare where
  entry : ResourceEntry
  sites : List SiteRecord
  failures : List EntryFailure

/-- What may become of an entry. -/
inductive Settles : ResourceEntry → EntryShare → Prop where
  /-- It is no class of an input, and nothing is said of it. -/
  | other {e : ResourceEntry} (h : ¬ pool.IsInputClass e) : Settles e ⟨e, [], []⟩
  /-- It keeps its bytes, and no call in it is reported. -/
  | givenUp {e : ResourceEntry} {fault : StageFault} (h : pool.IsInputClass e)
      (hgiven : pool.GivesUp admits settings e fault) : Settles e ⟨e, [], [⟨e.label, fault⟩]⟩
  /-- It keeps its bytes, and no call in it was replaced. -/
  | kept {e : ResourceEntry} {sites : List CallSite} (h : pool.IsInputClass e)
      (hfinishes : pool.Finishes admits settings e none sites)
      (hnone : ∀ site ∈ sites, site.outcome.isTransformed = false) :
      Settles e ⟨e, sites.map (SiteRecord.mk e.moduleName e.path), []⟩
  /-- It gets new bytes, and a call in it was replaced. -/
  | replaced {e : ResourceEntry} {bytes : List UInt8} {sites : List CallSite} (h : pool.IsInputClass e)
      (hfinishes : pool.Finishes admits settings e (some bytes) sites)
      (hsome : ∃ site ∈ sites, site.outcome.isTransformed = true) :
      Settles e ⟨{ e with bytes := bytes }, sites.map (SiteRecord.mk e.moduleName e.path), []⟩

variable {pool admits settings}

theorem Settles.place {e : ResourceEntry} {share : EntryShare}
    (h : pool.Settles admits settings e share) :
    share.entry.moduleName = e.moduleName ∧ share.entry.path = e.path := by
  cases h <;> exact ⟨rfl, rfl⟩

/-- The work on a class has one end. -/
theorem Finishes.unique {e : ResourceEntry} {bytes bytes' : Option (List UInt8)}
    {sites sites' : List CallSite} (h : pool.Finishes admits settings e bytes sites)
    (h' : pool.Finishes admits settings e bytes' sites') : bytes = bytes' ∧ sites = sites' := by
  obtain ⟨_, c, hparse, htransform⟩ := h
  obtain ⟨_, c', hparse', htransform'⟩ := h'
  obtain rfl := Except.ok.inj (hparse.symm.trans hparse')
  exact Prod.mk.inj (Except.ok.inj (htransform.symm.trans htransform'))

theorem Finishes.not_givesUp {e : ResourceEntry} {bytes : Option (List UInt8)} {sites : List CallSite}
    {fault : StageFault} (h : pool.Finishes admits settings e bytes sites) : ¬ pool.GivesUp admits settings e fault := by
  obtain ⟨hadmits, c, hparse, htransform⟩ := h
  rintro (⟨hadmits', _⟩ | ⟨_, ⟨cause, hparse', _⟩ | ⟨c', hparse', htransform'⟩⟩)
  · exact Bool.noConfusion (hadmits.symm.trans hadmits')
  · exact nomatch hparse.symm.trans hparse'
  · obtain rfl := Except.ok.inj (hparse.symm.trans hparse')
    exact nomatch htransform.symm.trans htransform'

/-- The outcome for a class of an input. -/
theorem transformClass_cases {e : ResourceEntry} {r : EntryResult}
    (h : transformClass admits (pool.classContext pool.hierarchy settings e) settings e.bytes = r) :
    (∃ fault, pool.GivesUp admits settings e fault ∧ r = .failed fault) ∨
      ∃ bytes sites, pool.Finishes admits settings e bytes sites ∧ r = .done bytes sites := by
  subst h
  unfold transformClass
  by_cases hadmits : admits e.bytes
  · rw [if_pos hadmits]
    cases hparse : ClassFile.parse e.bytes with
    | error cause => exact .inl ⟨_, .inr ⟨hadmits, .inl ⟨cause, hparse, rfl⟩⟩, rfl⟩
    | ok c =>
      rw [show inStage .parse (Except.ok c) >>= (·.transform _ settings) = c.transform _ settings from
        rfl]
      cases htransform : c.transform (pool.classContext pool.hierarchy settings e) settings with
      | error fault => exact .inl ⟨fault, .inr ⟨hadmits, .inr ⟨c, hparse, htransform⟩⟩, rfl⟩
      | ok result => exact .inr ⟨result.1, result.2, ⟨hadmits, c, hparse, htransform⟩, rfl⟩
  · rw [if_neg hadmits]
    exact .inl ⟨.inadmissible, .inl ⟨Bool.eq_false_iff.mpr hadmits, rfl⟩, rfl⟩

end ResourcePool

end DirectCall
