import Refactor.Apply.Transaction
import Refactor.Plan.Store
import Refactor.Planning.Build

/-!
# The refactoring service

One value holds a workspace, the cache, the locks and the stored plans. Planning and previews write
nothing; a plan is applied at most once.

* `Engine` — the service
* `Engine.plan`, `Engine.preview`, `Engine.impact` — looking ahead
* `Engine.apply`, `Engine.applyStored` — applying
-/

namespace Refactor

/-- The service. -/
structure Engine where
  config : Config
  workspace : Workspace Disk
  registry : Registry
  intelligence : Intelligence
  plans : PlanStore Plan
  /-- the name of the next plan -/
  nextId : PlanId
  /-- the time in milliseconds -/
  now : Nat := 0
  /-- what was asked about symbols -/
  queries : List Query := []

/-- Steps of the service: a failure keeps what changed so far. -/
abbrev Serving := ExceptT Error (StateM Engine)

namespace Engine

/-- The service over a disk; the root has to be there. -/
def create (config : Config) (root : Path) (registry : Registry) (intelligence : Intelligence) (disk : Disk)
    (firstId : PlanId) : Except Error Engine :=
  match disk.tree.canonical? root with
  | .error f => .error ((DiskError.system f).at_ root)
  | .ok root =>
    .ok
      { config, registry, intelligence, nextId := firstId
        workspace :=
          { root, disk, cache := { enabled := config.cache.enabled }
            hook := if config.validation.enabled then some config.validation.hook else none
            lockTimeoutMs := config.refactor.lockTimeoutMs }
        plans := .withLimits config.refactor.planTtlSeconds config.refactor.maxStoredPlans }

/-- Runs steps of planning. -/
def planning {α : Type} (f : Planning α) : Serving α := do
  let e ← get
  let w := e.workspace
  let env : Planner :=
    { root := w.root, tree := w.disk.tree, registry := e.registry, intelligence := e.intelligence
      references := .ofConfig w.root e.registry e.config.refactor }
  let (answer, s) := (f.run env).run.run { cache := w.cache, queries := e.queries }
  set { e with workspace := { w with cache := s.cache }, queries := s.queries }
  ExceptT.mk (pure answer)

/-- A new name for a plan. -/
def freshId : Serving PlanId :=
  modifyGet fun e => (e.nextId, { e with nextId := ⟨e.nextId.value + 1⟩ })

/-- The plan of an operation, or the symbols to choose from. -/
def plan (operation : Operation) : Serving PlanOutcome := do
  let id ← freshId
  planning (Planning.build id operation)

/-- Every file of a plan as it would be. -/
def preview (p : Plan) : Serving Preview := do ExceptT.mk (pure (p.preview (← get).workspace.disk))

/-- How far an operation would reach. -/
def impact (operation : Operation) : Serving Impact := planning (Planning.impactOf operation)

/-- Keeps a plan for later. -/
def store (p : Plan) : Serving PlanId := do
  modify fun e => { e with plans := e.plans.insert e.now p.id p }
  return p.id

def pendingPlans (e : Engine) : Nat := e.plans.pendingCount e.now

/-- Runs an apply on the workspace. -/
def applying (p : Plan) (heeds : Bool) : Serving ApplyResult := do
  let e ← get
  let (answer, workspace) := (Workspace.apply p heeds).run.run e.workspace
  set { e with workspace }
  ExceptT.mk (pure answer)

/-- Applies a plan that was not applied before; with `heeds` a raised cancellation ends it. -/
def apply (p : Plan) (heeds : Bool) : Serving ApplyResult := do
  let e ← get
  if e.plans.isConsumed e.now p.id then throw (PlanStore.alreadyApplied p.id)
  let result ← applying p heeds
  modify fun e => { e with plans := e.plans.markConsumed e.now p.id }
  return result

/-- Applies a stored plan. A plan that fails for a passing reason is kept. -/
def applyStored (id : PlanId) : Serving ApplyResult := do
  let e ← get
  let (plans, taken) := e.plans.take e.now id
  set { e with plans }
  let p ← ExceptT.mk (pure taken)
  try applying p false
  catch err =>
    if err.isRetryable then
      let _ ← store p
    throw err

/-- Notes a request to whoever answers about symbols. -/
def note (q : Query) : Serving Unit := modify fun e => { e with queries := e.queries ++ [q] }

def restart (extensions : Option (List String)) : Serving Unit := note (.restart extensions)

/-- Forgets cached references and unused locks. -/
def shutdown : Serving Unit := do
  modify fun e =>
    { e with workspace := { e.workspace with cache := e.workspace.cache.clear, locks := e.workspace.locks.cleanup } }
  note .shutdown

end Engine

end Refactor
