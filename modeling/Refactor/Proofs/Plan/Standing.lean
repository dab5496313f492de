import Mathlib.Data.List.Nodup
import Refactor.Plan.Store

/-!
# What a store says of a name

A store is a list of entries; what is said of it is read off through the standing of a name, which is a plan that
waits, a mark, or nothing. As long as no entry is too old and none gives way, every operation changes the standing of
one name.

* `PlanStore.standing` — the plan or mark under a name
* `PlanStore.Fresh`, `PlanStore.Sound` — no entry is too old; one entry a name
* `PlanStore.standing_put`, `PlanStore.standing_marked` — one name gets a new standing, the others keep theirs
* `PlanStore.take_eq`, `PlanStore.isConsumed_iff` — what the other operations read
-/

namespace Refactor

/-- An entry after its plan, if it is the one of that name, was taken. -/
def StoreEntry.mark {α : Type} (id : PlanId) (e : StoreEntry α) : StoreEntry α :=
  if e.id == id then { e with state := .consumed } else e

@[simp] theorem StoreEntry.mark_id {α : Type} (id : PlanId) (e : StoreEntry α) : (e.mark id).id = e.id := by
  rw [mark]
  split <;> rfl

@[simp] theorem StoreEntry.mark_storedAt {α : Type} (id : PlanId) (e : StoreEntry α) :
    (e.mark id).storedAt = e.storedAt := by
  rw [mark]
  split <;> rfl

namespace PlanStore

variable {α : Type} {s : PlanStore α} {now : Nat} {id : PlanId}

def ids (s : PlanStore α) : List PlanId := s.entries.map (·.id)

/-- The plan or mark under a name. -/
def standing (s : PlanStore α) (id : PlanId) : Option (StoredPlan α) := (s.find? id).map (·.state)

/-- No entry is too old. -/
def Fresh (s : PlanStore α) (now : Nat) : Prop := ∀ e ∈ s.entries, s.isExpired now e = false

instance (s : PlanStore α) (now : Nat) : Decidable (s.Fresh now) :=
  inferInstanceAs (Decidable (∀ e ∈ s.entries, _))

structure Sound (s : PlanStore α) : Prop where
  room : 0 < s.capacity
  nodup : s.ids.Nodup

def entriesWith (s : PlanStore α) (e : StoreEntry α) : List (StoreEntry α) := s.entries.filter (·.id != e.id) ++ [e]

/-- The store with a mark in the place of a plan. -/
def marked (s : PlanStore α) (id : PlanId) : PlanStore α := { s with entries := s.entries.map (·.mark id) }

theorem Sound.withLimits (ttlSeconds capacity : Nat) : (withLimits ttlSeconds capacity : PlanStore α).Sound where
  room := Nat.lt_of_lt_of_le Nat.zero_lt_one (Nat.le_max_right capacity 1)
  nodup := List.nodup_nil

theorem dropExpired_of_fresh (h : s.Fresh now) : s.dropExpired now = s := by
  have hall : s.entries.filter (fun e => !s.isExpired now e) = s.entries :=
    List.filter_eq_self.mpr fun e he => by rw [h e he]; rfl
  rw [dropExpired, hall]

theorem id_of_find? {e : StoreEntry α} (h : s.find? id = some e) : e.id = id := by
  have hfound := List.find?_some (p := fun e : StoreEntry α => e.id == id) h
  exact beq_iff_eq.mp hfound

/-! ## A new entry -/

theorem nodup_entriesWith (h : s.Sound) (e : StoreEntry α) : ((s.entriesWith e).map (·.id)).Nodup := by
  rw [entriesWith, List.map_append, List.nodup_append]
  refine ⟨h.nodup.sublist (List.filter_sublist.map _), List.nodup_singleton _, ?_⟩
  intro i hi j hj heq
  obtain ⟨e', he', rfl⟩ := List.mem_map.mp hi
  have hne := (List.mem_filter.mp he').2
  rw [List.map_singleton, List.mem_singleton] at hj
  rw [heq, hj] at hne
  simp at hne

theorem put_entries (hfresh : s.Fresh now) (id : PlanId) (state : StoredPlan α) : (s.put now id state).entries =
    (s.entriesWith ⟨id, state, now⟩).drop ((s.entriesWith ⟨id, state, now⟩).length - s.capacity) := by
  rw [put, dropExpired_of_fresh hfresh]
  rfl

/-- Where no name is lost, no entry gives way. -/
theorem put_entries_of_kept (h : s.Sound) (hfresh : s.Fresh now) {state : StoredPlan α}
    (hkept : s.ids ⊆ (s.put now id state).ids) :
    (s.put now id state).entries = s.entriesWith ⟨id, state, now⟩ := by
  have hnodup := nodup_entriesWith h ⟨id, state, now⟩
  have hlen : (s.entriesWith ⟨id, state, now⟩).length = (s.entries.filter (·.id != id)).length + 1 := by
    rw [entriesWith, List.length_append, List.length_singleton]
  rw [ids, ids, put_entries hfresh] at hkept
  rw [put_entries hfresh]
  generalize hn : (s.entriesWith ⟨id, state, now⟩).length - s.capacity = n at hkept ⊢
  -- the oldest entry would be the first to go, and its name with it
  cases n with
  | zero => exact List.drop_zero
  | succ n =>
    rcases hold : s.entries.filter (·.id != id) with _ | ⟨e, rest⟩
    · have hroom := h.room
      rw [hold] at hlen
      rw [hlen, List.length_nil] at hn
      omega
    · have hcons : s.entriesWith ⟨id, state, now⟩ = e :: (rest ++ [⟨id, state, now⟩]) := by
        rw [entriesWith, hold, List.cons_append]
      have hmem : e ∈ s.entries := List.mem_of_mem_filter (p := (·.id != id)) (hold ▸ List.mem_cons_self)
      have hlater := hkept (List.mem_map_of_mem hmem)
      rw [hcons, List.drop_succ_cons] at hlater
      rw [hcons, List.map_cons, List.nodup_cons] at hnodup
      exact absurd (((List.drop_sublist n _).map _).subset hlater) hnodup.1

theorem standing_put (h : s.Sound) (hfresh : s.Fresh now) {state : StoredPlan α}
    (hkept : s.ids ⊆ (s.put now id state).ids) (id' : PlanId) :
    (s.put now id state).standing id' = if id' = id then some state else s.standing id' := by
  rw [standing, find?, put_entries_of_kept h hfresh hkept, entriesWith, List.find?_append, List.find?_filter]
  split
  next hid =>
    have hnone : s.entries.find? (fun e => decide ((e.id != id) = true ∧ (e.id == id') = true)) = none := by
      rw [List.find?_eq_none]
      intro e _
      simp [hid]
    rw [hnone, hid, Option.none_or]
    simp
  next hid =>
    have hsame : s.entries.find? (fun e => decide ((e.id != id) = true ∧ (e.id == id') = true)) = s.find? id' := by
      refine congrArg (s.entries.find? ·) (funext fun e => ?_)
      by_cases he : e.id = id'
      · simp [he, hid]
      · simp [he]
    have hlast : List.find? (·.id == id') [(⟨id, state, now⟩ : StoreEntry α)] = none := by
      simp [Ne.symm hid]
    rw [hsame, hlast, Option.or_none, standing]

theorem Sound.put (h : s.Sound) (hfresh : s.Fresh now) (id : PlanId) (state : StoredPlan α) :
    (s.put now id state).Sound := by
  refine ⟨?_, ?_⟩
  · rw [PlanStore.put, dropExpired_of_fresh hfresh]
    exact h.room
  · rw [ids, put_entries hfresh]
    exact (nodup_entriesWith h _).sublist ((List.drop_sublist _ _).map _)

/-! ## A mark -/

theorem ids_marked (id : PlanId) : (s.marked id).ids = s.ids := by
  rw [ids, ids, marked, List.map_map]
  exact List.map_congr_left fun e _ => e.mark_id id

theorem Sound.marked (h : s.Sound) (id : PlanId) : (s.marked id).Sound := by
  refine ⟨h.room, ?_⟩
  rw [ids_marked]
  exact h.nodup

theorem Fresh.marked (h : s.Fresh now) (id : PlanId) : (s.marked id).Fresh now := by
  intro e he
  obtain ⟨e, hmem, rfl⟩ := List.mem_map.mp he
  rw [isExpired, StoreEntry.mark_storedAt]
  exact h e hmem

theorem standing_marked (id id' : PlanId) : (s.marked id).standing id' =
    if id' = id then (s.standing id).map fun _ => .consumed else s.standing id' := by
  have hsame : ((·.id == id') ∘ (StoreEntry.mark (α := α) id)) = (·.id == id') :=
    funext fun e => by rw [Function.comp_apply, StoreEntry.mark_id]
  rw [standing, find?, marked, List.find?_map, hsame, Option.map_map]
  show (s.find? id').map _ = _
  split
  next hid =>
    rw [standing, Option.map_map, hid]
    refine Option.map_congr fun e he => ?_
    rw [Function.comp_apply, StoreEntry.mark, if_pos (beq_iff_eq.mpr (id_of_find? he))]
    rfl
  next hid =>
    rw [standing]
    refine Option.map_congr fun e he => ?_
    rw [Function.comp_apply, StoreEntry.mark, id_of_find? he, if_neg]
    simpa using hid

/-! ## What is read -/

/-- A plan that waits is handed out; a mark takes its place. -/
theorem take_eq (h : s.Fresh now) (id : PlanId) : s.take now id =
    (s.marked id, match s.standing id with
      | none => .error (.notFound ("plan " ++ id.text) none)
      | some (.pending p) => .ok p
      | some .consumed => .error (alreadyApplied id)) := by
  rw [take, dropExpired_of_fresh h, standing]
  rcases hfind : s.find? id with _ | ⟨i, state, at_⟩
  · have hmap : s.entries.map (·.mark id) = s.entries := by
      refine (List.map_congr_left fun e he => ?_).trans (List.map_id _)
      rw [StoreEntry.mark, if_neg (List.find?_eq_none.mp hfind e he)]
      rfl
    rw [marked, hmap]
    rfl
  · cases state <;> rfl

theorem isConsumed_iff (h : s.Fresh now) : s.isConsumed now id = true ↔ s.standing id = some .consumed := by
  rw [isConsumed, standing]
  rcases hfind : s.find? id with _ | ⟨i, state, at_⟩
  · simp
  · have hfresh := h _ (List.mem_of_find?_eq_some hfind)
    cases state with
    | pending p => simp
    | consumed => simp [hfresh]

end PlanStore

end Refactor
