import Mathlib.Logic.Relation
import Refactor.Apply.Contention
import Refactor.Proofs.Path.Sorted
import Refactor.Proofs.Steps

/-!
# Exclusion without deadlock

Whatever the order of their steps, no two calls hold the lock of one key, and no calls wait for each other in a circle.
The known locks carry the proof: every lock that a call refers to is the known one of its key, so a cleanup never lets a
key have a second lock while the first one is in use. A call holds smaller keys than those it still wants, so whoever
waits for it wants a smaller key than it does.

* `LockTask.InOrder` — a call takes its keys in their order
* `Contention.Coherent` — what holds between calls and known locks at every moment
* `Contention.advance_cases` — what a step of a call can do
* `Contention.Coherent.step`, `Contention.Coherent.run` — one step, and all steps
* `Contention.exclusion` — exclusion, the order of waiting, and timeouts
-/

namespace Refactor

/-! ## One call -/

namespace LockTask

/-- The keys that a call has yet to lock, as far as they are worked out. -/
def awaited (t : LockTask) : List Path :=
  match t.phase with
  | .keying _ keys => keys
  | .taking keys => keys
  | .waiting wanted keys => wanted.key :: keys
  | _ => []

def isOut (t : LockTask) : Bool :=
  match t.phase with
  | .idle | .keying _ _ | .timedOut => true
  | _ => false

theorem isOut_of_hasTimedOut {t : LockTask} (h : t.hasTimedOut = true) : t.isOut = true := by
  unfold hasTimedOut at h
  split at h
  · rename_i htimedOut
    simp only [isOut, htimedOut]
  · cases h

/-- A call takes its keys in their order, and holds nothing before and after. -/
structure InOrder (t : LockTask) : Prop where
  out : t.isOut = true → t.guards = []
  sorted : PathSet.Sorted t.awaited
  below : ∀ g ∈ t.guards, ∀ key ∈ t.awaited, g.key.cmp key = .lt

theorem InOrder.of_no_guards {t : LockTask} (hguards : t.guards = []) (hsorted : PathSet.Sorted t.awaited) :
    t.InOrder := ⟨fun _ => hguards, hsorted, by simp [hguards]⟩

theorem InOrder.of_none_awaited {t : LockTask} (hout : t.isOut = false) (hnone : t.awaited = []) : t.InOrder where
  out hout' := by
    rw [hout] at hout'
    cases hout'
  sorted := by
    rw [hnone]
    exact List.Pairwise.nil
  below := by simp [hnone]

theorem InOrder.idle : InOrder {} := .of_no_guards rfl List.Pairwise.nil

theorem guards_subset_refs (t : LockTask) : t.guards ⊆ t.refs := List.subset_append_right _ _

theorem wanted_mem_refs {t : LockTask} {wanted : Guard} (h : wanted ∈ t.wanted?) : wanted ∈ t.refs :=
  List.mem_append_left _ (Option.mem_toList.mpr h)

theorem wanted_mem_awaited {t : LockTask} {wanted : Guard} (h : wanted ∈ t.wanted?) : wanted.key ∈ t.awaited := by
  unfold wanted? at h
  split at h
  · rename_i keys hwaiting
    cases h
    simp [awaited, hwaiting]
  · cases h

end LockTask

namespace Contention

variable {keyOf : Path → Path} {s s' : Contention}

/-! ## What a step can do -/

/-- What a step of a call can do. A step that asks for no lock and takes none changes this call alone, which then
refers to no other locks. -/
inductive Advances (s : Contention) (i : Nat) (t : LockTask) : Contention → Prop where
  | within (t' : LockTask) (refs : t'.refs ⊆ t.refs) (guards : t'.guards ⊆ t.guards) (ordered : t.InOrder → t'.InOrder) :
    Advances s i t (s.put i t')
  | fetch (key : Path) (rest : List Path) (taking : t.phase = .taking (key :: rest)) :
    Advances s i t ((s.lockFor key).2.put i { t with phase := .waiting (s.lockFor key).1 rest })
  | grant (wanted : Guard) (rest : List Path) (waiting : t.phase = .waiting wanted rest)
    (free : s.isFree wanted.lock = true) :
    Advances s i t (s.put i { phase := .taking rest, guards := t.guards ++ [wanted] })

theorem advance_cases {i : Nat} {t : LockTask} {m : LockMove} (h : s.advance keyOf i t m = some s') :
    Advances s i t s' := by
  obtain ⟨phase, guards⟩ := t
  cases m with
  | start paths =>
    cases phase with
    | idle =>
      cases h
      exact .within _ (fun _ h => h) (fun _ h => h) fun h => .of_no_guards (h.out rfl) List.Pairwise.nil
    | timedOut =>
      cases h
      exact .within _ (fun _ h => h) (fun _ h => h) fun h => .of_no_guards (h.out rfl) List.Pairwise.nil
    | _ => cases h
  | key =>
    cases phase with
    | keying paths keys =>
      cases paths with
      | nil =>
        cases h
        exact .within _ (fun _ h => h) (fun _ h => h) fun h => .of_no_guards (h.out rfl) h.sorted
      | cons p rest =>
        cases h
        exact .within _ (fun _ h => h) (fun _ h => h) fun h => .of_no_guards (h.out rfl) (PathSet.insert_sorted _ h.sorted)
    | _ => cases h
  | fetch =>
    cases phase with
    | taking keys =>
      cases keys with
      | nil =>
        cases h
        exact .within _ (fun _ h => h) (fun _ h => h) fun _ => .of_none_awaited rfl rfl
      | cons key rest =>
        cases h
        exact .fetch key rest rfl
    | _ => cases h
  | grant =>
    cases phase with
    | waiting wanted rest =>
      simp only [advance] at h
      split at h
      · rename_i hfree
        cases h
        exact .grant wanted rest rfl hfree
      · cases h
    | _ => cases h
  | expire =>
    cases phase with
    | waiting wanted rest =>
      cases h
      exact .within _ (fun _ h => List.mem_cons_of_mem _ h) (fun _ h => h) fun _ => .of_none_awaited rfl rfl
    | _ => cases h
  | drop =>
    cases phase with
    | holding =>
      cases h
      exact .within _ (fun _ h => h) (fun _ h => h) fun _ => .of_none_awaited rfl rfl
    | _ => cases h
  | release =>
    cases phase with
    | dropping timedOut =>
      cases guards with
      | nil =>
        cases h
        cases timedOut with
        | true => exact .within _ (fun _ h => h) (fun _ h => h) fun _ => .of_no_guards rfl List.Pairwise.nil
        | false => exact .within _ (fun _ h => h) (fun _ h => h) fun _ => .of_no_guards rfl List.Pairwise.nil
      | cons g rest =>
        cases h
        exact .within _ (List.subset_cons_self g rest) (List.subset_cons_self g rest) fun _ => .of_none_awaited rfl rfl
    | _ => cases h

/-! ## Every moment -/

/-- What holds between the calls and the known locks at every moment. -/
structure Coherent (s : Contention) : Prop where
  sorted : s.locks.Sorted
  fresh : ∀ entry ∈ s.locks, entry.2 < s.fresh
  /-- no lock is that of two keys -/
  injective : ∀ entry ∈ s.locks, ∀ entry' ∈ s.locks, entry.2 = entry'.2 → entry = entry'
  /-- a lock that a call refers to is the known one of its key -/
  known : ∀ t ∈ s.tasks, ∀ g ∈ t.refs, ∃ entry ∈ s.locks, (entry.1 == g.key) = true ∧ entry.2 = g.lock
  exclusive : ∀ (i j : Nat) (t t' : LockTask), i ≠ j → s.tasks[i]? = some t → s.tasks[j]? = some t' →
    ∀ g ∈ t.guards, ∀ g' ∈ t'.guards, g.lock ≠ g'.lock
  ordered : ∀ t ∈ s.tasks, t.InOrder

theorem start_coherent (n : Nat) : (start n).Coherent where
  sorted := List.Pairwise.nil
  fresh := by simp [start]
  injective := by simp [start]
  known t ht g hg := by
    obtain rfl := List.eq_of_mem_replicate ht
    cases hg
  exclusive i j t t' _ hi _ g hg := by
    obtain rfl := List.eq_of_mem_replicate (List.mem_of_getElem? hi)
    cases hg
  ordered t ht := by
    obtain rfl := List.eq_of_mem_replicate ht
    exact .idle

theorem mem_put {i : Nat} {t t' : LockTask} (h : t' ∈ (s.put i t).tasks) : t' = t ∨ t' ∈ s.tasks := by
  rcases List.mem_or_eq_of_mem_set h with h | h
  · exact Or.inr h
  · exact Or.inl h

theorem get_put {i j : Nat} {t t' : LockTask} (h : (s.put i t).tasks[j]? = some t') :
    (j = i ∧ t' = t) ∨ (j ≠ i ∧ s.tasks[j]? = some t') := getElem?_set_cases h

/-- Another state of one call keeps everything together when its locks are known, no one else holds those that it holds,
and it is in order. -/
theorem Coherent.put (h : s.Coherent) (i : Nat) {t : LockTask}
    (hknown : ∀ g ∈ t.refs, ∃ entry ∈ s.locks, (entry.1 == g.key) = true ∧ entry.2 = g.lock)
    (hexclusive : ∀ (j : Nat) (t' : LockTask), j ≠ i → s.tasks[j]? = some t' → ∀ g ∈ t.guards, ∀ g' ∈ t'.guards, g.lock ≠ g'.lock)
    (hordered : t.InOrder) : (s.put i t).Coherent where
  sorted := h.sorted
  fresh := h.fresh
  injective := h.injective
  known t' ht' := by
    rcases mem_put ht' with rfl | ht'
    · exact hknown
    · exact h.known t' ht'
  exclusive j k t₁ t₂ hjk hj hk g hg g' hg' := by
    rcases get_put hj with ⟨rfl, rfl⟩ | ⟨hji, hj'⟩ <;> rcases get_put hk with ⟨rfl, rfl⟩ | ⟨hki, hk'⟩
    · exact absurd rfl hjk
    · exact hexclusive k t₂ hki hk' g hg g' hg'
    · exact (hexclusive j t₁ hji hj' g' hg' g hg).symm
    · exact h.exclusive j k t₁ t₂ hjk hj' hk' g hg g' hg'
  ordered t' ht' := by
    rcases mem_put ht' with rfl | ht'
    · exact hordered
    · exact h.ordered t' ht'

/-- Asking for the lock of a key keeps everything together, and the lock is known afterwards. -/
theorem Coherent.lockFor (h : s.Coherent) (key : Path) :
    (s.lockFor key).2.Coherent ∧ (s.lockFor key).2.tasks = s.tasks ∧ (s.lockFor key).1.key = key ∧
      ∃ entry ∈ (s.lockFor key).2.locks, (entry.1 == key) = true ∧ entry.2 = (s.lockFor key).1.lock := by
  unfold Contention.lockFor
  split
  · rename_i lock hfind
    exact ⟨h, rfl, rfl, PathMap.exists_entry_of_find? hfind⟩
  · rename_i hfind
    have hmem : ∀ {entry : Path × Nat}, entry ∈ s.locks.insert key s.fresh ↔ entry = (key, s.fresh) ∨ entry ∈ s.locks :=
      PathMap.mem_insert_of_fresh (PathMap.not_beq_of_find?_none hfind)
    refine ⟨⟨PathMap.insert_sorted _ _ h.sorted, ?_, ?_, ?_, h.exclusive, h.ordered⟩, rfl, rfl, (key, s.fresh),
      hmem.mpr (Or.inl rfl), BEq.rfl, rfl⟩
    · intro entry hentry
      dsimp only
      rcases hmem.mp hentry with rfl | hentry
      · omega
      · have hlt := h.fresh entry hentry
        omega
    · intro entry hentry entry' hentry' hsame
      rcases hmem.mp hentry with rfl | hold <;> rcases hmem.mp hentry' with rfl | hold'
      · rfl
      · have hlt := h.fresh entry' hold'
        dsimp only at hsame
        omega
      · have hlt := h.fresh entry hold
        dsimp only at hsame
        omega
      · exact h.injective entry hold entry' hold' hsame
    · intro t ht g hg
      obtain ⟨entry, hentry, hfound⟩ := h.known t ht g hg
      exact ⟨entry, hmem.mpr (Or.inr hentry), hfound⟩

theorem Coherent.cleanup (h : s.Coherent) : s.cleanup.Coherent where
  sorted := List.Pairwise.filter _ h.sorted
  fresh entry hentry := h.fresh entry (List.mem_of_mem_filter hentry)
  injective entry hentry entry' hentry' := h.injective entry (List.mem_of_mem_filter hentry) entry' (List.mem_of_mem_filter hentry')
  known t ht g hg := by
    obtain ⟨entry, hentry, hkey, hlock⟩ := h.known t ht g hg
    refine ⟨entry, List.mem_filter.mpr ⟨hentry, ?_⟩, hkey, hlock⟩
    have hreferred : 0 < s.references entry.2 := by
      unfold references
      rw [List.countP_pos_iff]
      exact ⟨g, List.mem_flatMap.mpr ⟨t, ht, hg⟩, by simp [hlock]⟩
    simp only [decide_eq_true_eq]
    omega
  exclusive := h.exclusive
  ordered := h.ordered

/-! ## Steps -/

theorem Coherent.advances {i : Nat} {t : LockTask} (h : s.Coherent) (ht : s.tasks[i]? = some t)
    (hadvances : Advances s i t s') : s'.Coherent := by
  have hmem := List.mem_of_getElem? ht
  have horder := h.ordered t hmem
  cases hadvances with
  | within t' refs guards ordered =>
    refine h.put i (fun g hg => h.known t hmem g (refs hg)) (fun j t'' hj ht'' g hg g' hg' => ?_) (ordered horder)
    exact h.exclusive i j t t'' (Ne.symm hj) ht ht'' g (guards hg) g' hg'
  | fetch key rest taking =>
    obtain ⟨hcoherent, htasks, hkey, hknown⟩ := h.lockFor key
    have hawaited : t.awaited = key :: rest := by simp only [LockTask.awaited, taking]
    refine hcoherent.put i (fun g hg => ?_) (fun j t' hj ht' g hg g' hg' => ?_) ⟨fun hout => (Bool.false_ne_true hout).elim, ?_, ?_⟩
    · rcases List.mem_cons.mp hg with rfl | hg
      · rw [hkey]
        exact hknown
      · exact hcoherent.known t (by rw [htasks]; exact hmem) g (t.guards_subset_refs hg)
    · rw [htasks] at ht'
      exact h.exclusive i j t t' (Ne.symm hj) ht ht' g hg g' hg'
    · have hsorted := horder.sorted
      rw [hawaited] at hsorted
      simpa only [LockTask.awaited, hkey] using hsorted
    · have hbelow := horder.below
      rw [hawaited] at hbelow
      simpa only [LockTask.awaited, hkey] using hbelow
  | grant wanted rest waiting free =>
    have hawaited : t.awaited = wanted.key :: rest := by simp only [LockTask.awaited, waiting]
    have hrefs : t.refs = wanted :: t.guards := by simp [LockTask.refs, LockTask.wanted?, waiting]
    obtain ⟨hfirst, hrest⟩ := List.pairwise_cons.mp (hawaited ▸ horder.sorted : PathSet.Sorted (wanted.key :: rest))
    refine h.put i (fun g hg => ?_) (fun j t' hj ht' g hg g' hg' => ?_) ⟨fun hout => (Bool.false_ne_true hout).elim, hrest, ?_⟩
    · refine h.known t hmem g ?_
      rw [hrefs]
      have hg' : g ∈ t.guards ++ [wanted] := hg
      rcases List.mem_append.mp hg' with hg | hg
      · exact List.mem_cons_of_mem _ hg
      · exact List.mem_cons.mpr (Or.inl (List.mem_singleton.mp hg))
    · rcases List.mem_append.mp hg with hg | hg
      · exact h.exclusive i j t t' (Ne.symm hj) ht ht' g hg g' hg'
      · -- the lock was free, so no other call holds it
        obtain rfl := List.mem_singleton.mp hg
        have hfree := List.all_eq_true.mp (List.all_eq_true.mp free t' (List.mem_of_getElem? ht')) g' hg'
        exact Ne.symm (by simpa using hfree)
    · intro g hg key hkey
      rcases List.mem_append.mp hg with hg | hg
      · exact horder.below g hg key (hawaited ▸ List.mem_cons_of_mem _ hkey)
      · obtain rfl := List.mem_singleton.mp hg
        exact hfirst key hkey

theorem Coherent.step {event : LockEvent} (h : s.Coherent) (hstep : s.step keyOf event = some s') : s'.Coherent := by
  cases event with
  | move i m =>
    obtain ⟨t, ht, hadvance⟩ := Option.bind_eq_some_iff.mp hstep
    exact h.advances ht (advance_cases hadvance)
  | cleanup =>
    cases hstep
    exact h.cleanup

theorem Coherent.run {events : List LockEvent} (h : s.Coherent) (hrun : s.run keyOf events = some s') :
    s'.Coherent := by
  induction events generalizing s with
  | nil =>
    cases hrun
    exact h
  | cons event rest ih =>
    unfold Contention.run at hrun ih
    rw [List.foldlM_cons] at hrun
    obtain ⟨s₁, hstep, hrest⟩ := Option.bind_eq_some_iff.mp hrun
    exact ih (h.step hstep) hrest

/-! ## Exclusion and waiting -/

/-- A lock that a call refers to is that of a known key when the keys are the same. -/
theorem Coherent.lock_eq_known_iff (h : s.Coherent) {t : LockTask} (ht : t ∈ s.tasks) {g : Guard} (hg : g ∈ t.refs)
    {entry : Path × Nat} (hentry : entry ∈ s.locks) : g.lock = entry.2 ↔ (g.key == entry.1) = true := by
  obtain ⟨entry', hentry', hkey, hlock⟩ := h.known t ht g hg
  rw [Path.beq_iff] at hkey
  constructor
  · intro hsame
    rw [Path.beq_iff, ← hkey, h.injective entry' hentry' entry hentry (hlock.trans hsame)]
  · intro hsame
    rw [Path.beq_iff] at hsame
    have hbeq : (entry'.1 == entry.1) = true := (Path.beq_iff _ _).mpr (hkey.trans hsame)
    rw [← hlock, h.sorted.eq_of_beq hentry' hentry hbeq]

/-- Two locks in use are one when their keys are. -/
theorem Coherent.lock_eq_iff (h : s.Coherent) {t t' : LockTask} (ht : t ∈ s.tasks) (ht' : t' ∈ s.tasks) {g g' : Guard}
    (hg : g ∈ t.refs) (hg' : g' ∈ t'.refs) : g.lock = g'.lock ↔ (g.key == g'.key) = true := by
  obtain ⟨entry, hentry, hkey, hlock⟩ := h.known t' ht' g' hg'
  rw [← hlock, h.lock_eq_known_iff ht hg hentry, Path.beq_iff, Path.beq_iff, (Path.beq_iff _ _).mp hkey]

/-- No two calls hold the lock of one key. -/
theorem Coherent.keys_differ (h : s.Coherent) {i j : Nat} {t t' : LockTask} (hij : i ≠ j) (ht : s.tasks[i]? = some t)
    (ht' : s.tasks[j]? = some t') {g g' : Guard} (hg : g ∈ t.guards) (hg' : g' ∈ t'.guards) :
    (g.key == g'.key) = false := by
  rw [← Bool.not_eq_true]
  intro hsame
  have hiff := h.lock_eq_iff (List.mem_of_getElem? ht) (List.mem_of_getElem? ht') (t.guards_subset_refs hg)
    (t'.guards_subset_refs hg')
  exact h.exclusive i j t t' hij ht ht' g hg g' hg' (hiff.mpr hsame)

/-- Whoever waits holds smaller keys. -/
theorem Coherent.waiting_below (h : s.Coherent) {t : LockTask} (ht : t ∈ s.tasks) {wanted : Guard}
    (hwanted : wanted ∈ t.wanted?) {g : Guard} (hg : g ∈ t.guards) : g.key.cmp wanted.key = .lt :=
  (h.ordered t ht).below g hg wanted.key (LockTask.wanted_mem_awaited hwanted)

/-- Who is waited for wants a greater key, if it waits itself. -/
theorem Coherent.wanted_lt_of_waitsFor (h : s.Coherent) {i j : Nat} (hedge : s.WaitsFor i j) {t t' : LockTask}
    {wanted wanted' : Guard} (ht : t ∈ s.tasks[i]?) (hwanted : wanted ∈ t.wanted?) (ht' : t' ∈ s.tasks[j]?)
    (hwanted' : wanted' ∈ t'.wanted?) : wanted.key.cmp wanted'.key = .lt := by
  obtain ⟨t₁, ht₁, t₂, ht₂, wanted₁, hwanted₁, g, hg, hlock⟩ := hedge
  obtain rfl := Option.mem_unique ht₁ ht
  obtain rfl := Option.mem_unique ht₂ ht'
  obtain rfl := Option.mem_unique hwanted₁ hwanted
  have hmem := List.mem_of_getElem? ht
  have hmem' := List.mem_of_getElem? ht'
  have hkey := (h.lock_eq_iff hmem' hmem (t₂.guards_subset_refs hg) (LockTask.wanted_mem_refs hwanted)).mp hlock
  have hbelow := h.waiting_below hmem' hwanted' hg
  rw [Path.cmp, (Path.beq_iff _ _).mp hkey] at hbelow
  exact hbelow

/-- Along calls that wait for each other the wanted keys increase. -/
theorem Coherent.wanted_lt (h : s.Coherent) {i j : Nat} (hchain : Relation.TransGen s.WaitsFor i j) {t t' : LockTask}
    {wanted wanted' : Guard} (ht : t ∈ s.tasks[i]?) (hwanted : wanted ∈ t.wanted?) (ht' : t' ∈ s.tasks[j]?)
    (hwanted' : wanted' ∈ t'.wanted?) : wanted.key.cmp wanted'.key = .lt := by
  induction hchain generalizing t' wanted' with
  | single hedge => exact h.wanted_lt_of_waitsFor hedge ht hwanted ht' hwanted'
  | tail _ hedge ih =>
    obtain ⟨t₁, ht₁, _, _, wanted₁, hwanted₁, _⟩ := id hedge
    exact Path.cmp_lt_trans (ih ht₁ hwanted₁) (h.wanted_lt_of_waitsFor hedge ht₁ hwanted₁ ht' hwanted')

/-- No call waits for itself through others. -/
theorem Coherent.acyclic (h : s.Coherent) (i : Nat) : ¬Relation.TransGen s.WaitsFor i i := by
  intro hcycle
  obtain ⟨j, hedge, _⟩ := Relation.TransGen.head'_iff.mp hcycle
  obtain ⟨t, ht, _, _, wanted, hwanted, _⟩ := hedge
  have hlt := h.wanted_lt hcycle ht hwanted ht hwanted
  have hself := (Path.cmp_eq_iff wanted.key wanted.key).mpr BEq.rfl
  rw [hself] at hlt
  cases hlt

/-- Any number of calls, in any order of their steps: no two hold the lock of one key, one that waits holds smaller keys
only, none waits for itself through others, and one that has timed out holds nothing. -/
theorem exclusion (keyOf : Path → Path) (n : Nat) (events : List LockEvent) (hrun : (start n).run keyOf events = some s) :
    (∀ (i j : Nat) (t t' : LockTask), i ≠ j → s.tasks[i]? = some t → s.tasks[j]? = some t' →
      ∀ g ∈ t.guards, ∀ g' ∈ t'.guards, (g.key == g'.key) = false) ∧
    (∀ t ∈ s.tasks, ∀ wanted ∈ t.wanted?, ∀ g ∈ t.guards, g.key.cmp wanted.key = .lt) ∧
    (∀ i, ¬Relation.TransGen s.WaitsFor i i) ∧
    (∀ t ∈ s.tasks, t.hasTimedOut = true → t.guards = []) := by
  have h : s.Coherent := (start_coherent n).run hrun
  refine ⟨?_, ?_, h.acyclic, ?_⟩
  · intro i j t t' hij ht ht' g hg g' hg'
    exact h.keys_differ hij ht ht' hg hg'
  · intro t ht wanted hwanted g hg
    exact h.waiting_below ht hwanted hg
  · intro t ht htimedOut
    exact (h.ordered t ht).out (LockTask.isOut_of_hasTimedOut htimedOut)

/-- One call takes two locks with a cleanup in between, another one waits for the second of them, and a third one for
the first until its time is over. -/
def contending : List LockEvent :=
  [.move 0 (.start [⟨"/b"⟩, ⟨"/a"⟩]), .move 0 .key, .move 0 .key, .move 0 .key, .move 0 .fetch, .move 0 .grant,
    .move 1 (.start [⟨"/b"⟩]), .move 1 .key, .move 1 .key, .cleanup, .move 1 .fetch, .move 0 .fetch, .move 0 .grant,
    .move 2 (.start [⟨"/a"⟩]), .move 2 .key, .move 2 .key, .move 2 .fetch, .cleanup, .move 2 .expire, .move 2 .release,
    .move 0 .fetch]

theorem exclusion_contending : ∃ s, (start 3).run id contending = some s ∧ s.WaitsFor 1 0 ∧
    ¬Relation.TransGen s.WaitsFor 1 1 ∧ ∃ t ∈ s.tasks, t.hasTimedOut = true ∧ t.guards = [] := by
  have hruns : ((start 3).run id contending).any (fun s => decide (s.WaitsFor 1 0) && s.tasks.any LockTask.hasTimedOut) =
      true := by decide +kernel
  obtain ⟨s, hrun, hs⟩ := (Option.any_eq_true _ _).mp hruns
  rw [Bool.and_eq_true, decide_eq_true_iff] at hs
  obtain ⟨t, ht, htimedOut⟩ := List.any_eq_true.mp hs.2
  obtain ⟨_, _, hacyclic, hreleased⟩ := exclusion id 3 contending hrun
  exact ⟨s, hrun, hs.1, hacyclic 1, t, ht, htimedOut, hreleased t ht htimedOut⟩

end Contention

end Refactor
