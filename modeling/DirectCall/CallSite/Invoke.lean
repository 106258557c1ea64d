import DirectCall.CallSite.Adapter
import DirectCall.CallSite.DeadLookup

/-!
# Reflective calls to direct calls

`Body.replaceInvokes` plans every reachable call of `invoke` on the body as it is, and carries all
plans out in one edit.
-/

namespace DirectCall

/-- Sites planned so far. -/
structure Planning where
  /-- Outcomes, last first. -/
  outcomes : List SiteOutcome
  /-- Edits, last first. -/
  edits : List SiteEdit
  /-- Positions whose code is used up. -/
  spent : Std.HashSet Nat
  /-- Loads of method objects that go away. -/
  loads : Std.HashSet NodeId
  /-- The next fresh local. -/
  fresh : UInt16

namespace Planning

/-- Takes a plan over. -/
def accept (s : Planning) (a : SiteAnalysis) (line : Option UInt16) (p : PlannedSite) : Planning :=
  let m := p.resolved
  { outcomes := ⟨.getMethod, line, m.owner ++ "." ++ m.name ++ m.descriptor, none⟩ :: s.outcomes
    edits := p.edit a s.fresh :: s.edits
    spent := (s.spent.insertMany p.used).insert p.position
    loads := s.loads.insertMany p.methodLoad.toList
    fresh := if p.needsLocal then s.fresh + 1 else s.fresh }

/-- Plans the call at a position, if one is there and reached. -/
def visit (ctx : MethodContext) (a : SiteAnalysis) (body : Body) (s : Planning) (position : Nat) :
    Planning :=
  if !(a.insnAt position).isReflectiveInvoke then s
  else
    match a.constants.getD position none with
    | none => s
    | some frame =>
      let line := body.lineAt position
      match a.plan ctx s.spent position frame with
      | .ok p => s.accept a line p
      | .error (target, refusal) =>
        { s with outcomes := ⟨.getMethod, line, target, some refusal⟩ :: s.outcomes }

def run (ctx : MethodContext) (a : SiteAnalysis) (body : Body) : Planning :=
  (List.range a.flow.size).foldl (visit ctx a body) ⟨[], [], ∅, ∅, body.maxLocals⟩

end Planning

namespace SiteEdit

/-- Makes the new nodes of an edit and records it in a plan. -/
def record (state : InsnList × EditPlan) (e : SiteEdit) : InsnList × EditPlan :=
  let (list, plan) := state
  let (list, plan) :=
    match e.move with
    | some (anchor, ids, store) =>
      let (list, id) := list.create store
      (list, (plan.moveBefore anchor ids).insertBefore anchor [id])
    | none => (list, plan)
  let (list, ids) := list.createAll e.atSite
  (list, ((plan.insertBefore e.site ids).remove e.site).removeAll e.remove)

end SiteEdit

namespace Body

/-- Replaces what can be replaced; one outcome for each reachable call, in order. -/
def replaceInvokes (ctx : MethodContext) (body : Body) : Except Fault (Body × List SiteOutcome) := do
  if !body.insns.insns.any (·.isReflectiveInvoke) then return (body, [])
  else
    let a ← SiteAnalysis.run ctx.method body
    let s := Planning.run ctx a body
    let outcomes := s.outcomes.reverse
    if s.edits.isEmpty then return (body, outcomes)
    else
      let (list, plan) := s.edits.reverse.foldl SiteEdit.record (body.insns, EditPlan.empty)
      let plan := plan.removeAll (a.deadLookups s.loads s.spent)
      return ({ body with insns := list.commit plan, maxLocals := s.fresh }, outcomes)

end Body

end DirectCall
