import Mathlib.Data.List.Induction
import Refactor.Engine
import Refactor.Proofs.Plan.Standing
import Refactor.Proofs.Steps

/-!
# A plan is accepted once for each time it is stored

Clients store plans and apply them, one call after the other. What the store says of a name after a call depends on the
call, its answer and what the store said before. Read along a run, this tells which calls can be accepted.

* `PlanCall.Serves`, `PlanCall.serves` — what each call can answer, and the store that it leaves
* `PlanCall.leaves`, `PlanCall.Serves.standing` — what a call leaves of the name it concerns
* `Engine.Calls`, `Engine.Calls.standing_eq` — runs in which no entry grows too old and none gives way
* `Engine.Calls.accepted_once` — between two accepted calls the plan was stored; a passing failure keeps it
-/

namespace Refactor

open PlanStore (alreadyApplied)

/-! ## How the calls of the service end -/

namespace Engine

/-- The service after an apply on its workspace. -/
def applied (e : Engine) (p : Plan) (heeds : Bool) : Engine :=
  { e with workspace := ((Workspace.apply p heeds).run.run e.workspace).2 }

theorem applying_run (p : Plan) (heeds : Bool) (e : Engine) : (applying p heeds).run.run e =
    (((Workspace.apply p heeds).run.run e.workspace).1, e.applied p heeds) := rfl

theorem apply_run (p : Plan) (heeds : Bool) (e : Engine) : (apply p heeds).run.run e =
    if e.plans.isConsumed e.now p.id then (.error (alreadyApplied p.id), e)
    else match ((Workspace.apply p heeds).run.run e.workspace).1 with
      | .ok r => (.ok r, { e.applied p heeds with plans := e.plans.markConsumed e.now p.id })
      | .error err => (.error err, e.applied p heeds) := by
  unfold apply
  rw [run_bindExcept]
  show (if e.plans.isConsumed e.now p.id then _ else _ : Serving ApplyResult).run.run e = _
  split
  · rfl
  · show (applying p heeds >>= _).run.run e = _
    rw [run_bindExcept, applying_run]
    rcases (Workspace.apply p heeds).run.run e.workspace with ⟨_ | _, w⟩ <;> rfl

/-- What is tried of a plan that was taken out: a passing failure brings it back. -/
def retrying (p : Plan) : Serving ApplyResult := do
  try applying p false
  catch err =>
    if err.isRetryable then
      let _ ← store p
    throw err

theorem retrying_run (p : Plan) (e : Engine) : (retrying p).run.run e =
    match ((Workspace.apply p false).run.run e.workspace).1 with
    | .ok r => (.ok r, e.applied p false)
    | .error err =>
      (.error err, { e.applied p false with
        plans := if err.isRetryable then e.plans.insert e.now p.id p else e.plans }) := by
  unfold retrying
  rw [run_tryCatch, applying_run]
  rcases ((Workspace.apply p false).run.run e.workspace).1 with err | r
  · dsimp only
    split <;> rfl
  · rfl

theorem retrying_answer (p : Plan) (e : Engine) :
    ((retrying p).run.run e).1 = ((Workspace.apply p false).run.run e.workspace).1 := by
  rw [retrying_run]
  rcases ((Workspace.apply p false).run.run e.workspace).1 with err | r <;> rfl

theorem applyStored_run (id : PlanId) (e : Engine) (hfresh : e.plans.Fresh e.now) : (applyStored id).run.run e =
    match e.plans.standing id with
    | none => (.error (.notFound ("plan " ++ id.text) none), { e with plans := e.plans.marked id })
    | some .consumed => (.error (alreadyApplied id), { e with plans := e.plans.marked id })
    | some (.pending p) => (retrying p).run.run { e with plans := e.plans.marked id } := by
  have hget : (applyStored id).run.run e =
      (ExceptT.mk (pure (e.plans.take e.now id).2) >>= retrying : Serving ApplyResult).run.run
        { e with plans := (e.plans.take e.now id).1 } := rfl
  rw [hget, run_bindExcept, PlanStore.take_eq hfresh]
  rcases e.plans.standing id with _ | ⟨p | _⟩ <;> rfl

end Engine

/-! ## One call -/

def PlanStore.Named (s : PlanStore Plan) : Prop := ∀ id p, s.standing id = some (.pending p) → p.id = id

inductive PlanCall where
  | store (plan : Plan)
  | apply (plan : Plan) (heeds : Bool)
  | applyStored (id : PlanId)

namespace PlanCall

def id : PlanCall → PlanId
  | .store p => p.id
  | .apply p _ => p.id
  | .applyStored id => id

/-- What the service does; a plan that is stored has no result yet. -/
def serve : PlanCall → Serving (Option ApplyResult)
  | .store p => do
    let _ ← Engine.store p
    return none
  | .apply p heeds => return some (← Engine.apply p heeds)
  | .applyStored id => return some (← Engine.applyStored id)

def answer (c : PlanCall) (e : Engine) : Except Error (Option ApplyResult) := (c.serve.run.run e).1

def after (c : PlanCall) (e : Engine) : Engine := (c.serve.run.run e).2

/-- What a call can answer, and the store that it leaves. -/
inductive Serves (s : PlanStore Plan) (now : Nat) : PlanCall → Except Error (Option ApplyResult) → PlanStore Plan → Prop
  | stored (p : Plan) : Serves s now (.store p) (.ok none) (s.insert now p.id p)
  | applied (p : Plan) (heeds : Bool) (r : ApplyResult) (standing : s.standing p.id ≠ some .consumed) :
    Serves s now (.apply p heeds) (.ok (some r)) (s.markConsumed now p.id)
  | failed (p : Plan) (heeds : Bool) (err : Error) : Serves s now (.apply p heeds) (.error err) s
  | refused (id : PlanId) (err : Error) (lasting : err.isRetryable = false) :
    Serves s now (.applyStored id) (.error err) (s.marked id)
  | taken (id : PlanId) (p : Plan) (r : ApplyResult) (standing : s.standing id = some (.pending p)) :
    Serves s now (.applyStored id) (.ok (some r)) (s.marked id)
  | kept (id : PlanId) (p : Plan) (err : Error) (standing : s.standing id = some (.pending p))
    (passing : err.isRetryable = true) :
    Serves s now (.applyStored id) (.error err) ((s.marked id).insert now p.id p)

theorem run_some (m : Serving ApplyResult) (e : Engine) :
    (return some (← m) : Serving (Option ApplyResult)).run.run e = ((m.run.run e).1.map some, (m.run.run e).2) := by
  show (m >>= fun r => pure (some r)).run.run e = _
  rw [run_bindExcept]
  rcases m.run.run e with ⟨_ | _, _⟩ <;> rfl

theorem serves (c : PlanCall) {e : Engine} (hfresh : e.plans.Fresh e.now) :
    Serves e.plans e.now c (c.answer e) (c.after e).plans := by
  cases c with
  | store p => exact .stored p
  | apply p heeds =>
    rw [answer, after, serve, run_some, Engine.apply_run]
    split
    · exact .failed p heeds _
    next hfree =>
      rw [PlanStore.isConsumed_iff hfresh] at hfree
      rcases ((Workspace.apply p heeds).run.run e.workspace).1 with err | r
      · exact .failed p heeds err
      · exact .applied p heeds r hfree
  | applyStored id =>
    rw [answer, after, serve, run_some, Engine.applyStored_run id e hfresh]
    rcases hstanding : e.plans.standing id with _ | ⟨p | _⟩
    · exact .refused id _ rfl
    · dsimp only
      rw [Engine.retrying_run]
      rcases ((Workspace.apply p false).run.run e.workspace).1 with err | r
      · show Serves e.plans e.now (.applyStored id) (.error err)
          (if err.isRetryable then (e.plans.marked id).insert e.now p.id p else e.plans.marked id)
        split
        next hpassing => exact .kept id p err hstanding hpassing
        next hpassing => exact .refused id err (Bool.eq_false_iff.mpr hpassing)
      · exact .taken id p r hstanding
    · exact .refused id _ rfl

/-- What is left of the name that a call concerns, from the answer and what there was before. -/
def leaves : PlanCall → Except Error (Option ApplyResult) → Option (StoredPlan Plan) → Option (StoredPlan Plan)
  | .store p, _, _ => some (.pending p)
  | .apply _ _, .ok _, _ => some .consumed
  | .apply _ _, .error _, was => was
  | .applyStored _, .ok _, _ => some .consumed
  | .applyStored _, .error err, was => if err.isRetryable then was else was.map fun _ => .consumed

section

variable {s s' : PlanStore Plan} {now : Nat} {c : PlanCall} {answer : Except Error (Option ApplyResult)}

theorem Serves.sound (h : Serves s now c answer s') (hs : s.Sound) (hfresh : s.Fresh now) : s'.Sound := by
  cases h with
  | stored p => exact hs.put hfresh _ _
  | applied p => exact hs.put hfresh _ _
  | failed p => exact hs
  | refused id => exact hs.marked id
  | taken id => exact hs.marked id
  | kept id p => exact (hs.marked id).put (hfresh.marked id) _ _

theorem Serves.standing_of_accepted {r : ApplyResult} (h : Serves s now c (.ok (some r)) s') :
    s.standing c.id ≠ some .consumed := by
  cases h with
  | applied p heeds _ hstanding => exact hstanding
  | taken id p _ hstanding =>
    show s.standing id ≠ _
    rw [hstanding]
    exact fun h => nomatch h

/-- Only a plan that waits fails for a passing reason. -/
theorem Serves.pending_of_deferred {id : PlanId} {err : Error} (h : Serves s now (.applyStored id) (.error err) s')
    (hpassing : err.isRetryable = true) : ∃ p, s.standing id = some (.pending p) := by
  cases h with
  | refused _ _ hlasting => exact absurd hpassing (Bool.eq_false_iff.mp hlasting)
  | kept _ p _ hstanding _ => exact ⟨p, hstanding⟩

theorem Serves.leaves_of_accepted {r : ApplyResult} (h : Serves s now c (.ok (some r)) s')
    (was : Option (StoredPlan Plan)) : c.leaves (.ok (some r)) was = some .consumed := by
  cases h with
  | applied p => rfl
  | taken id p => rfl

/-- A call changes what is said of its own name. -/
theorem Serves.standing (h : Serves s now c answer s') (hs : s.Sound) (hfresh : s.Fresh now)
    (hnamed : s.Named) (hkept : s.ids ⊆ s'.ids) (id : PlanId) :
    s'.standing id = if id = c.id then c.leaves answer (s.standing id) else s.standing id := by
  cases h with
  | stored p => exact PlanStore.standing_put hs hfresh hkept id
  | applied p => exact PlanStore.standing_put hs hfresh hkept id
  | failed p => split <;> rfl
  | refused i err hpassing =>
    rw [PlanStore.standing_marked]
    show (if id = i then _ else _) = if id = i then _ else _
    split
    next hid => rw [hid, leaves, if_neg (Bool.eq_false_iff.mp hpassing)]
    next => rfl
  | taken i p r hstanding =>
    rw [PlanStore.standing_marked]
    show (if id = i then _ else _) = if id = i then _ else _
    split
    next => rw [hstanding]; rfl
    next => rfl
  | kept i p err hstanding hpassing =>
    obtain rfl := hnamed i p hstanding
    have hput := PlanStore.standing_put (hs.marked p.id) (hfresh.marked p.id) (by rwa [PlanStore.ids_marked]) id
    refine hput.trans ?_
    show (if id = p.id then _ else _) = if id = p.id then _ else _
    split
    next hid => rw [hid, leaves, if_pos hpassing, hstanding]
    next hid => rw [PlanStore.standing_marked, if_neg hid]

end

end PlanCall

/-! ## A run of calls -/

structure PlanEvent where
  call : PlanCall
  answer : Except Error (Option ApplyResult)

namespace PlanEvent

/-- A call on a name was accepted; the result may still tell of a rollback. -/
def Accepts (v : PlanEvent) (id : PlanId) : Prop := v.call.id = id ∧ ∃ r, v.answer = .ok (some r)

def Stores (v : PlanEvent) (p : Plan) : Prop := v.call = .store p

/-- A stored plan failed for a passing reason. -/
def Defers (v : PlanEvent) (id : PlanId) : Prop :=
  v.call = .applyStored id ∧ ∃ err, v.answer = .error err ∧ err.isRetryable = true

/-- What is left of a name after a call, on it or on another. -/
def leaves (v : PlanEvent) (id : PlanId) (was : Option (StoredPlan Plan)) : Option (StoredPlan Plan) :=
  if id = v.call.id then v.call.leaves v.answer was else was

/-- What is left of a name after calls. -/
def leavesAll (events : List PlanEvent) (id : PlanId) (was : Option (StoredPlan Plan)) : Option (StoredPlan Plan) :=
  events.foldl (fun was v => v.leaves id was) was

theorem leaves_consumed {v : PlanEvent} {id : PlanId} (h : ∀ p, v.Stores p → p.id ≠ id) :
    v.leaves id (some .consumed) = some .consumed := by
  obtain ⟨call, answer⟩ := v
  rw [leaves]
  split
  next hid =>
    cases call with
    | store p => exact absurd hid.symm (h p rfl)
    | apply p heeds => cases answer <;> rfl
    | applyStored i =>
      cases answer with
      | ok r => rfl
      | error err =>
        show (if err.isRetryable then _ else _) = _
        split <;> rfl
  next => rfl

/-- A plan that waits after a call was stored by it, or waited before. -/
theorem leaves_pending {v : PlanEvent} {id : PlanId} {p : Plan} {was : Option (StoredPlan Plan)}
    (h : v.leaves id was = some (.pending p)) :
    v.Stores p ∧ p.id = id ∨ was = some (.pending p) ∧ ∀ q, v.Stores q → q.id ≠ id := by
  obtain ⟨call, answer⟩ := v
  rw [leaves] at h
  split at h
  next hid =>
    cases call with
    | store q =>
      obtain rfl : q = p := by injection h with h; injection h
      exact Or.inl ⟨rfl, hid.symm⟩
    | apply q heeds =>
      cases answer with
      | ok r => cases h
      | error err => exact Or.inr ⟨h, fun q hq => nomatch hq⟩
    | applyStored i =>
      cases answer with
      | ok r => cases h
      | error err =>
        change (if err.isRetryable then was else was.map fun _ => .consumed) = _ at h
        split at h
        · exact Or.inr ⟨h, fun q hq => nomatch hq⟩
        · cases was <;> cases h
  next hid => exact Or.inr ⟨h, fun q hq hq' => hid (hq' ▸ by rw [hq]; rfl)⟩

/-- A mark stays until a plan is stored under its name. -/
theorem leavesAll_consumed {id : PlanId} : ∀ {events : List PlanEvent},
    (∀ v ∈ events, ∀ p, v.Stores p → p.id ≠ id) → leavesAll events id (some .consumed) = some .consumed
  | [], _ => rfl
  | v :: events, h => by
    rw [leavesAll, List.foldl_cons, leaves_consumed (h v List.mem_cons_self)]
    exact leavesAll_consumed fun w hw => h w (List.mem_cons_of_mem v hw)

/-- A plan that waits is the one that was stored last. -/
theorem exists_stores_of_pending {id : PlanId} {p : Plan} {events : List PlanEvent}
    (h : leavesAll events id none = some (.pending p)) :
    ∃ before v after, events = before ++ v :: after ∧ v.Stores p ∧ p.id = id ∧
      ∀ w ∈ after, ∀ q, w.Stores q → q.id ≠ id := by
  induction events using List.reverseRecOn with
  | nil => cases h
  | append_singleton events w ih =>
    rw [leavesAll, List.foldl_append] at h
    rcases leaves_pending h with ⟨hstores, hid⟩ | ⟨hwas, hother⟩
    · exact ⟨events, w, [], rfl, hstores, hid, by simp⟩
    · obtain ⟨before, v, after, rfl, hstores, hid, hafter⟩ := ih hwas
      refine ⟨before, v, after ++ [w], by simp, hstores, hid, fun u hu => ?_⟩
      rcases List.mem_append.mp hu with hu | hu
      · exact hafter u hu
      · rw [List.mem_singleton.mp hu]
        exact hother

end PlanEvent

theorem PlanCall.Serves.named {s s' : PlanStore Plan} {now : Nat} {c : PlanCall}
    {answer : Except Error (Option ApplyResult)} (h : Serves s now c answer s') (hs : s.Sound) (hfresh : s.Fresh now)
    (hnamed : s.Named) (hkept : s.ids ⊆ s'.ids) : s'.Named := by
  intro id p hp
  rw [h.standing hs hfresh hnamed hkept] at hp
  rcases PlanEvent.leaves_pending (v := ⟨c, answer⟩) hp with ⟨_, hid⟩ | ⟨hwas, _⟩
  · exact hid
  · exact hnamed id p hwas

namespace Engine

open PlanEvent (leavesAll)

/-- Calls one after the other. Anything but the stored plans may change between them; at each call no entry is too
old, and none gives way. -/
inductive Calls : Engine → List PlanEvent → Engine → Prop
  | done (e : Engine) : Calls e [] e
  | next {e e₁ e₂ : Engine} {c : PlanCall} {events : List PlanEvent} (between : e₁.plans = e.plans)
    (fresh : e₁.plans.Fresh e₁.now) (kept : e₁.plans.ids ⊆ (c.after e₁).plans.ids)
    (rest : Calls (c.after e₁) events e₂) : Calls e (⟨c, c.answer e₁⟩ :: events) e₂

namespace Calls

variable {e e' : Engine} {events before after : List PlanEvent} {v w : PlanEvent} {id : PlanId}

theorem split : ∀ {before : List PlanEvent} {e : Engine}, Calls e (before ++ after) e' →
    ∃ e₁, Calls e before e₁ ∧ Calls e₁ after e'
  | [], e, h => ⟨e, .done e, h⟩
  | _ :: before, e, .next between fresh kept rest => by
    obtain ⟨e₁, hbefore, hafter⟩ := split rest
    exact ⟨e₁, .next between fresh kept hbefore, hafter⟩

/-- What a run leaves of every name. -/
theorem standing_eq (h : Calls e events e') (hs : e.plans.Sound) (hnamed : e.plans.Named) :
    e'.plans.Sound ∧ e'.plans.Named ∧ ∀ id, e'.plans.standing id = leavesAll events id (e.plans.standing id) := by
  induction h with
  | done e => exact ⟨hs, hnamed, fun _ => rfl⟩
  | @next e e₁ e₂ c events between fresh kept rest ih =>
    have hserves := c.serves fresh
    rw [← between] at hs hnamed
    have hstanding := hserves.standing hs fresh hnamed kept
    obtain ⟨hs₂, hnamed₂, hrest⟩ := ih (hserves.sound hs fresh) (hserves.named hs fresh hnamed kept)
    refine ⟨hs₂, hnamed₂, fun id => ?_⟩
    rw [hrest, hstanding, between]
    rfl

/-- A plan that is accepted had no mark, and has one now. -/
theorem standing_of_accepts (h : Calls e (v :: events) e') (hs : e.plans.Sound) (hnamed : e.plans.Named)
    (hv : v.Accepts id) : e.plans.standing id ≠ some .consumed ∧
      ∃ e₁, Calls e₁ events e' ∧ e₁.plans.Sound ∧ e₁.plans.Named ∧ e₁.plans.standing id = some .consumed := by
  cases h with
  | @next _ e₁ _ c _ between fresh kept rest =>
    obtain ⟨rfl, r, hr⟩ := hv
    change c.answer e₁ = _ at hr
    have hserves := c.serves fresh
    rw [hr] at hserves
    rw [← between] at hs hnamed ⊢
    refine ⟨hserves.standing_of_accepted, c.after e₁, rest, hserves.sound hs fresh,
      hserves.named hs fresh hnamed kept, ?_⟩
    rw [hserves.standing hs fresh hnamed kept, hserves.leaves_of_accepted]
    exact if_pos rfl

/-- A stored plan that failed for a passing reason waits again. -/
theorem standing_of_defers (h : Calls e [v] e') (hs : e.plans.Sound) (hnamed : e.plans.Named) (hv : v.Defers id) :
    ∃ p, e.plans.standing id = some (.pending p) ∧ e'.plans.standing id = some (.pending p) := by
  cases h with
  | @next _ e₁ _ c _ between fresh kept rest =>
    obtain ⟨rfl, err, herr, hpassing⟩ := hv
    change (PlanCall.applyStored id).answer e₁ = _ at herr
    cases rest
    have hserves := (PlanCall.applyStored id).serves fresh
    have hstanding := (hserves.standing (between ▸ hs) fresh (between ▸ hnamed) kept id).trans (if_pos rfl)
    rw [herr, PlanCall.leaves, if_pos hpassing, between] at hstanding
    rw [herr, between] at hserves
    obtain ⟨p, hpending⟩ := hserves.pending_of_deferred hpassing
    exact ⟨p, hpending, hstanding.trans hpending⟩

/-- A plan that waits is not refused. -/
theorem answers_of_pending {p : Plan} (hid : p.id = id) (h : e.plans.standing id = some (.pending p))
    (hfresh : e.plans.Fresh e.now) :
    ((applyStored id).run.run e).1 = ((Workspace.apply p false).run.run e.workspace).1 ∧
      ∀ heeds, ((apply p heeds).run.run e).1 = ((Workspace.apply p heeds).run.run e.workspace).1 := by
  refine ⟨?_, fun heeds => ?_⟩
  · rw [applyStored_run id e hfresh, h]
    exact retrying_answer p _
  · have hfree : ¬ e.plans.isConsumed e.now p.id = true := by
      rw [PlanStore.isConsumed_iff hfresh, hid, h]
      exact fun h => nomatch h
    rw [apply_run, if_neg hfree]
    rcases ((Workspace.apply p heeds).run.run e.workspace).1 with err | r <;> rfl

/-- The service starts with nothing stored. -/
theorem plans_of_create {config : Config} {root : Path} {registry : Registry} {intelligence : Intelligence}
    {disk : Disk} {firstId : PlanId} (h : create config root registry intelligence disk firstId = .ok e) :
    e.plans.Sound ∧ ∀ id, e.plans.standing id = none := by
  rw [create] at h
  split at h
  · cases h
  · cases h
    exact ⟨.withLimits _ _, fun _ => rfl⟩

/-- **A plan is accepted once for each time it is stored.** Between two accepted calls on a name its plan was stored
again; and a stored plan that failed for a passing reason can still be applied, whatever else changed. -/
theorem accepted_once {config : Config} {root : Path} {registry : Registry} {intelligence : Intelligence} {disk : Disk}
    {firstId : PlanId} (hcreate : create config root registry intelligence disk firstId = .ok e)
    (h : Calls e events e') (id : PlanId) :
    (∀ before v between w after, events = before ++ v :: (between ++ w :: after) → v.Accepts id → w.Accepts id →
      ∃ u ∈ between, ∃ p, u.Stores p ∧ p.id = id) ∧
    (∀ before v, events = before ++ [v] → v.Defers id →
      ∃ p, (∃ earlier u later, before = earlier ++ u :: later ∧ u.Stores p ∧ p.id = id ∧
          ∀ w ∈ later, ∀ q, w.Stores q → q.id ≠ id) ∧
        ∀ e'', e''.plans = e'.plans → e''.plans.Fresh e''.now →
          ((applyStored id).run.run e'').1 = ((Workspace.apply p false).run.run e''.workspace).1 ∧
          ∀ heeds, ((apply p heeds).run.run e'').1 = ((Workspace.apply p heeds).run.run e''.workspace).1) := by
  obtain ⟨hs, hnone⟩ := plans_of_create hcreate
  have hnamed : e.plans.Named := fun i p hp => by rw [hnone] at hp; cases hp
  refine ⟨?_, ?_⟩
  · rintro before v between w after rfl hv hw
    obtain ⟨e₁, hbefore, hrest⟩ := h.split
    obtain ⟨hs₁, hnamed₁, _⟩ := hbefore.standing_eq hs hnamed
    obtain ⟨_, e₂, hrest₂, hs₂, hnamed₂, hconsumed⟩ := hrest.standing_of_accepts hs₁ hnamed₁ hv
    obtain ⟨e₃, hbetween, hlast⟩ := hrest₂.split
    obtain ⟨hs₃, hnamed₃, hstanding⟩ := hbetween.standing_eq hs₂ hnamed₂
    by_contra hnever
    have hmark : leavesAll between id (some .consumed) = some .consumed :=
      PlanEvent.leavesAll_consumed fun u hu p hstores hid => hnever ⟨u, hu, p, hstores, hid⟩
    refine (hlast.standing_of_accepts hs₃ hnamed₃ hw).1 ?_
    rw [hstanding, hconsumed, hmark]
  · rintro before v rfl hv
    obtain ⟨e₁, hbefore, hlast⟩ := h.split
    obtain ⟨hs₁, hnamed₁, hstanding⟩ := hbefore.standing_eq hs hnamed
    obtain ⟨p, hwas, hwaits⟩ := hlast.standing_of_defers hs₁ hnamed₁ hv
    rw [hstanding, hnone] at hwas
    obtain ⟨earlier, u, later, hsplit, hstores, hid, hlater⟩ := PlanEvent.exists_stores_of_pending hwas
    refine ⟨p, ⟨earlier, u, later, hsplit, hstores, hid, hlater⟩, fun e'' hplans hfresh => ?_⟩
    exact answers_of_pending hid (hplans ▸ hwaits) hfresh

end Calls

end Engine

/-! ## A plan that is stored twice -/

def Tree.keeping : Tree := ⟨[(["w"], .dir), (["w", "a"], .file (Bytes.ofText "1"))]⟩

namespace Engine

/-- A service over the directory, with plans stored and paths locked by someone else. -/
def keeping (plans : PlanStore Plan) (locked : List Path) : Engine where
  config := {}
  workspace :=
    { root := ⟨"/w"⟩, disk := { tree := .keeping }, cache := { enabled := true }
      locks := { held := [("another", locked)] } }
  registry := {}
  intelligence := .unavailable
  plans := plans
  nextId := ⟨1⟩

/-- The plan that deletes the file. -/
def deletion : Plan :=
  { id := ⟨1⟩, operation := .delete (.file ⟨"/w/a"⟩), edit := { operations := [.delete ⟨"/w/a"⟩] }
    affectedFiles := [⟨"/w/a"⟩], estimatedChanges := 1, createdAt := "1970-01-01T00:00:00Z" }

/-- Calls from stored plans on, each while someone else locks some paths; the file is there every time. -/
def session (plans : PlanStore Plan) : List (PlanCall × List Path) → List PlanEvent
  | [] => []
  | (c, locked) :: rest =>
    ⟨c, c.answer (keeping plans locked)⟩ :: session (c.after (keeping plans locked)).plans rest

/-- No entry of the session grows too old or gives way. -/
def steady (plans : PlanStore Plan) : List (PlanCall × List Path) → Bool
  | [] => true
  | (c, locked) :: rest =>
    plans.entries.all (!plans.isExpired 0 ·) && plans.ids.all (c.after (keeping plans locked)).plans.ids.contains &&
      steady (c.after (keeping plans locked)).plans rest

theorem calls_session : ∀ (steps : List (PlanCall × List Path)) (e : Engine) {plans : PlanStore Plan},
    e.plans = plans → steady plans steps = true → ∃ e', Calls e (session plans steps) e'
  | [], e, _, _, _ => ⟨e, .done e⟩
  | (c, locked) :: rest, e, plans, hplans, h => by
    rw [steady, Bool.and_eq_true, Bool.and_eq_true, List.all_eq_true, List.all_eq_true] at h
    obtain ⟨⟨hfresh, hkept⟩, hrest⟩ := h
    obtain ⟨e', hcalls⟩ := calls_session rest (c.after (keeping plans locked)) rfl hrest
    refine ⟨e', .next hplans.symm (fun x hx => ?_) (fun i hi => ?_) hcalls⟩
    · exact Bool.not_eq_true' _ |>.mp (hfresh x hx)
    · exact List.contains_iff_mem.mp (hkept i hi)

theorem exists_create_keeping : ∃ e, create {} ⟨"/w"⟩ {} .unavailable { tree := .keeping } ⟨1⟩ = .ok e ∧
    e.plans = .withLimits ({} : Config).refactor.planTtlSeconds ({} : Config).refactor.maxStoredPlans := by
  have hroot : (Tree.keeping.canonical? ⟨"/w"⟩).toOption.isSome = true := by decide +kernel
  rcases hcanonical : Tree.keeping.canonical? ⟨"/w"⟩ with _ | root
  · rw [hcanonical] at hroot
    cases hroot
  · rw [create, hcanonical]
    exact ⟨_, rfl, rfl⟩

theorem accepts_of_isSome {c : PlanCall} {e : Engine} (h : (c.answer e).toOption.join.isSome = true) :
    PlanEvent.Accepts ⟨c, c.answer e⟩ c.id := by
  refine ⟨rfl, ?_⟩
  show ∃ r, c.answer e = .ok (some r)
  rcases hanswer : c.answer e with _ | ⟨_ | r⟩
  · rw [hanswer] at h; cases h
  · rw [hanswer] at h; cases h
  · exact ⟨r, rfl⟩

theorem defers_of_retryable {id : PlanId} {e : Engine} (h : (match (PlanCall.applyStored id).answer e with
    | .error err => err.isRetryable
    | .ok _ => false) = true) : PlanEvent.Defers ⟨.applyStored id, (PlanCall.applyStored id).answer e⟩ id := by
  refine ⟨rfl, ?_⟩
  show ∃ err, (PlanCall.applyStored id).answer e = .error err ∧ _
  rcases hanswer : (PlanCall.applyStored id).answer e with err | r
  · rw [hanswer] at h
    exact ⟨err, rfl, h⟩
  · rw [hanswer] at h
    cases h

/-- A plan waits for a lock and is applied; stored once more, it is applied again. -/
theorem accepted_once_deletion : ∃ e, create {} ⟨"/w"⟩ {} .unavailable { tree := .keeping } ⟨1⟩ = .ok e ∧
    (∃ events e', Calls e events e' ∧ ∃ before v between w, events = before ++ v :: (between ++ [w]) ∧
      v.Accepts ⟨1⟩ ∧ w.Accepts ⟨1⟩ ∧ ∃ u ∈ between, ∃ p, u.Stores p ∧ p.id = ⟨1⟩) ∧
    ∃ events e', Calls e events e' ∧ ∃ before v, events = before ++ [v] ∧ v.Defers ⟨1⟩ ∧
      ∃ p, p.id = ⟨1⟩ ∧ ∀ e'', e''.plans = e'.plans → e''.plans.Fresh e''.now →
        ((applyStored ⟨1⟩).run.run e'').1 = ((Workspace.apply p false).run.run e''.workspace).1 := by
  obtain ⟨e, hcreate, hplans⟩ := exists_create_keeping
  obtain ⟨e', hcalls⟩ := calls_session [(.store deletion, []), (.applyStored ⟨1⟩, [⟨"/w/a"⟩]), (.applyStored ⟨1⟩, []),
    (.store deletion, []), (.applyStored ⟨1⟩, [])] e hplans (by decide +kernel)
  obtain ⟨e₁, hwaiting⟩ := calls_session [(.store deletion, []), (.applyStored ⟨1⟩, [⟨"/w/a"⟩])] e hplans
    (by decide +kernel)
  refine ⟨e, hcreate, ⟨_, e', hcalls, [_, _], _, [_], _, rfl, accepts_of_isSome (by decide +kernel),
    accepts_of_isSome (by decide +kernel), ?_⟩, _, e₁, hwaiting, [_], _, rfl, defers_of_retryable (by decide +kernel), ?_⟩
  · exact (hcalls.accepted_once hcreate ⟨1⟩).1 [_, _] _ [_] _ [] rfl (accepts_of_isSome (by decide +kernel))
      (accepts_of_isSome (by decide +kernel))
  · obtain ⟨p, ⟨_, _, _, _, _, hid, _⟩, hanswers⟩ := (hwaiting.accepted_once hcreate ⟨1⟩).2 [_] _ rfl
      (defers_of_retryable (by decide +kernel))
    exact ⟨p, hid, fun e'' hplans hfresh => (hanswers e'' hplans hfresh).1⟩

end Engine

end Refactor
