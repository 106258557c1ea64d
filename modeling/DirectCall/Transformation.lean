import DirectCall.ClassFile.Admission
import DirectCall.Transformation.Class

/-!
# Transforming a pool

Every class entry of an input is worked on by itself, against the hierarchy of all classes of the pool.
An entry whose work is given up stays as it was.
-/

namespace DirectCall

/-! ## What there is to see -/

/-- The header of the class in an entry; it is absent if the entry holds none that can be read. -/
def ResourceEntry.header? (e : ResourceEntry) : Option ClassHeader :=
  if e.isClass then (ClassFile.parse e.bytes >>= ClassHeader.ofClassFile).toOption else none

namespace ResourcePool

/-- The classes of all modules. -/
def hierarchy (pool : ResourcePool) : Hierarchy :=
  .freeze <| (pool.entries.filterMap (·.header?)).foldl
    (fun table header => (table.add header).toOption.getD table) ∅

/-- Code in an entry may name a class within module scope: the class file that the entry sees is in a
module that it can read, and the class is public or in its own package. -/
def isInScope (pool : ResourcePool) (h : Hierarchy) (origin : ResourceEntry) (className : String) :
    Bool :=
  match pool.entryFrom? origin (classFilePath className) with
  | none => false
  | some target =>
    pool.isReadable origin target &&
      ((h.class? className).any (·.isPublic) ||
        target.moduleName == origin.moduleName && ClassName.package className == origin.package)

def classContext (pool : ResourcePool) (h : Hierarchy) (settings : Settings) (e : ResourceEntry) :
    ClassContext :=
  ⟨h, fun className => settings.scope == .global || pool.isInScope h e className⟩

/-! ## The work on one entry -/

/-- What became of an entry. -/
inductive EntryResult where
  /-- The entry is no class of an input. -/
  | skipped
  | failed (fault : StageFault)
  /-- New bytes, if a call was replaced, and the calls seen. -/
  | done (bytes : Option (List UInt8)) (sites : List CallSite)

/-- Works on the class in an entry, if `admits` its bytes. -/
def transformClass (admits : List UInt8 → Bool) (ctx : ClassContext) (settings : Settings)
    (bytes : List UInt8) : EntryResult :=
  if admits bytes then
    match inStage .parse (ClassFile.parse bytes) >>= (·.transform ctx settings) with
    | .ok (changed, sites) => .done changed sites
    | .error fault => .failed fault
  else .failed .inadmissible

def transformEntry (pool : ResourcePool) (admits : List UInt8 → Bool) (h : Hierarchy)
    (settings : Settings) (e : ResourceEntry) : EntryResult :=
  if pool.isOfInput e && e.isClass then
    transformClass admits (pool.classContext h settings e) settings e.bytes
  else .skipped

namespace EntryResult

def isSkipped : EntryResult → Bool
  | skipped => true
  | _ => false

def bytes? : EntryResult → Option (List UInt8)
  | done bytes _ => bytes
  | _ => none

/-- The entry with its new bytes, if there are some. -/
def apply (r : EntryResult) (e : ResourceEntry) : ResourceEntry :=
  { e with bytes := r.bytes?.getD e.bytes }

def records (r : EntryResult) (e : ResourceEntry) : List SiteRecord :=
  match r with
  | done _ sites => sites.map (SiteRecord.mk e.moduleName e.path)
  | _ => []

def failure? (r : EntryResult) (e : ResourceEntry) : Option EntryFailure :=
  match r with
  | failed fault => some ⟨e.label, fault⟩
  | _ => none

end EntryResult

/-! ## The pool -/

/-- The entries of the pool with what became of them. -/
def results (pool : ResourcePool) (admits : List UInt8 → Bool) (settings : Settings) :
    List (ResourceEntry × EntryResult) :=
  let h := pool.hierarchy
  pool.entries.map fun e => (e, pool.transformEntry admits h settings e)

/-- Transforms the class entries of inputs whose bytes are admitted. -/
def transformAdmitting (pool : ResourcePool) (admits : List UInt8 → Bool) (settings : Settings) :
    PoolOutcome :=
  let results := pool.results admits settings
  { pool := { pool with entries := results.map fun (e, r) => r.apply e }
    sites := results.flatMap fun (e, r) => r.records e
    failures := results.filterMap fun (e, r) => r.failure? e
    classes := results.countP fun (_, r) => !r.isSkipped
    changed := results.countP fun (_, r) => r.bytes?.isSome }

def transform (pool : ResourcePool) (settings : Settings) : PoolOutcome :=
  pool.transformAdmitting ClassFile.isAdmitted settings

end ResourcePool

end DirectCall
