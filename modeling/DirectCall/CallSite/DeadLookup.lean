import DirectCall.CallSite.Span

/-!
# Dead look-ups

A method object may be looked up, stored in a local and loaded at the calls. Once all loads are
gone, so may be the look-up and the store.
-/

namespace DirectCall.SiteAnalysis

/-- The store of a reference that follows the look-up, lines apart. -/
def storeAfter? (a : SiteAnalysis) (position : Nat) : Option (Nat × UInt16) := do
  let isLine (p : Nat) : Bool :=
    match a.insnAt p with
    | .line _ => true
    | _ => false
  let next ← firstBetween (fun p => !isLine p) (position + 1) a.flow.size
  match a.insnAt next with
  | .var code var => if code = Opcode.astore then some (next, var) else none
  | _ => none

/-- The position loads the local, which may hold what `store` put there. -/
def readsStore (a : SiteAnalysis) (store : NodeId) (var : UInt16) (position : Nat) : Bool :=
  match a.insnAt position, a.sources.frameAt position with
  | .var code read, some frame =>
    code == Opcode.aload && read == var &&
      match frame.locals[var.toNat]? with
      | some v => v.producers.contains store
      | none => false
  | _, _ => false

/-- Loads that may read what `store` put into the local. -/
def readers (a : SiteAnalysis) (store : NodeId) (var : UInt16) : List NodeId :=
  ((List.range a.flow.size).filter (a.readsStore store var)).map a.idAt

/-- Nodes that go away with the look-up at a position: all loads of it are among `gone`, and its code
can be removed and is not `spent`. -/
def deadLookupAt (a : SiteAnalysis) (gone : Std.HashSet NodeId) (spent : Std.HashSet Nat)
    (position : Nat) : List NodeId :=
  if !(a.insnAt position).isMethodLookup then []
  else
    match a.storeAfter? position with
    | none => []
    | some (store, var) =>
      let readers := a.readers (a.idAt store) var
      if readers.isEmpty || !readers.all gone.contains then []
      else
        match a.spanOfSlots position [0, 1, 2] with
        | none => []
        | some operands =>
          let lookup : Span := ⟨operands.start, position + 1⟩
          let all : Span := ⟨operands.start, store + 1⟩
          if a.isRemovable lookup store 0 1 && !all.positions.any spent.contains then a.realIds all
          else []

def deadLookups (a : SiteAnalysis) (gone : Std.HashSet NodeId) (spent : Std.HashSet Nat) :
    List NodeId :=
  if gone.isEmpty then []
  else (List.range a.flow.size).flatMap (a.deadLookupAt gone spent)

end DirectCall.SiteAnalysis
