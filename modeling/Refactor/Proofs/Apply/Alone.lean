import Refactor.Proofs.Apply.Begin
import Refactor.Proofs.Apply.Exclusion

/-!
# A call that no other one interrupts

The table of locks takes all keys of a call at once. A call whose steps no other one interrupts does the same: it ends
with its locks when the table grants them, and otherwise it waits for the first key that the table finds held.

* `Contention.Shows` — the table shows the known locks and who holds them
* `Contention.takeAll_alone`, `Contention.acquireKeys_alone` — taking keys
* `Contention.cleanup_shows` — forgetting locks
-/

namespace Refactor

theorem PathSet.insert_of_contains {p : Path} : ∀ {s : PathSet}, PathSet.Sorted s → s.contains p = true → insert p s = s
  | [], _, h => by simp at h
  | q :: rest, hsorted, h => by
    obtain ⟨hfirst, hrest⟩ := List.pairwise_cons.mp hsorted
    rw [insert]
    cases hpq : p.cmp q with
    | eq => rfl
    | lt =>
      -- everything after `q` is greater still
      rw [List.contains_cons, Path.not_beq_of_cmp_lt hpq, Bool.false_or] at h
      obtain ⟨r, hr, hpr⟩ := List.contains_iff_exists_mem_beq.mp h
      have hlt := Path.not_beq_of_cmp_lt (Path.cmp_lt_trans hpq (hfirst r hr))
      rw [hlt] at hpr
      cases hpr
    | gt =>
      have hne : (p == q) = false := by
        rw [Path.beq_comm]
        exact Path.not_beq_of_cmp_lt ((Path.cmp_gt_iff p q).mp hpq)
      rw [List.contains_cons, hne, Bool.false_or] at h
      dsimp only
      rw [insert_of_contains hrest h]

theorem PathMap.keys_insert {α : Type} (p : Path) (a : α) (m : PathMap α) :
    (m.insert p a).keys = PathSet.insert p m.keys := by
  induction m with
  | nil => rfl
  | cons first rest ih =>
    obtain ⟨q, b⟩ := first
    show (PathMap.insert p a ((q, b) :: rest)).keys = PathSet.insert p (q :: PathMap.keys rest)
    rw [PathMap.insert, PathSet.insert]
    cases p.cmp q with
    | lt => rfl
    | eq => rfl
    | gt => exact congrArg _ ih

namespace Contention

variable {keyOf : Path → Path} {s : Contention} {l : LockTable}

/-- The table knows the same locks, and those are held in it that the calls of some numbers hold. -/
structure Shows (s : Contention) (calls : Nat → Prop) (l : LockTable) : Prop where
  known : l.known = s.locks.keys
  held : ∀ key, l.isHeld key = true ↔
    ∃ j t, calls j ∧ s.tasks[j]? = some t ∧ ∃ g ∈ t.guards, (g.key == key) = true

theorem Shows.put {calls : Nat → Prop} (h : s.Shows calls l) {i : Nat} (hi : ¬calls i) (t : LockTask) :
    (s.put i t).Shows calls l where
  known := h.known
  held key := by
    rw [h.held]
    have hsame : ∀ j, calls j → (s.put i t).tasks[j]? = s.tasks[j]? := by
      intro j hj
      have hij : i ≠ j := fun heq => hi (heq ▸ hj)
      simp [Contention.put, hij]
    constructor
    · rintro ⟨j, t', hj, ht', hg⟩
      exact ⟨j, t', hj, (hsame j hj).trans ht', hg⟩
    · rintro ⟨j, t', hj, ht', hg⟩
      exact ⟨j, t', hj, (hsame j hj).symm.trans ht', hg⟩

theorem get_put_self {i : Nat} {t : LockTask} (h : s.tasks[i]? = some t) (t' : LockTask) :
    (s.put i t').tasks[i]? = some t' := by
  obtain ⟨hi, _⟩ := List.getElem?_eq_some_iff.mp h
  simp [Contention.put, hi]

/-- Asking for the lock of a key makes the key known. -/
theorem lockFor_keys (h : s.Coherent) (key : Path) : (s.lockFor key).2.locks.keys = PathSet.insert key s.locks.keys := by
  unfold lockFor
  split
  · rename_i lock hfind
    have hsorted : PathSet.Sorted s.locks.keys := List.pairwise_map.mpr h.sorted
    obtain ⟨entry, hentry, hbeq, _⟩ := PathMap.exists_entry_of_find? hfind
    refine (PathSet.insert_of_contains hsorted (List.contains_iff_exists_mem_beq.mpr ⟨entry.1, ?_, ?_⟩)).symm
    · exact List.mem_map_of_mem hentry
    · rw [Path.beq_comm]
      exact hbeq
  · exact PathMap.keys_insert key s.fresh s.locks

theorem Shows.lockFor {calls : Nat → Prop} (hshows : s.Shows calls l) (h : s.Coherent) (key : Path) :
    (s.lockFor key).2.Shows calls { l with known := PathSet.insert key l.known } where
  known := by rw [lockFor_keys h, hshows.known]
  held key' := by
    obtain ⟨_, htasks, _, _⟩ := h.lockFor key
    rw [htasks]
    exact hshows.held key'

/-- A lock that a call waits for is free when the table finds its key held by no other call. -/
theorem Coherent.isFree_eq (h : s.Coherent) {i : Nat} (hshows : s.Shows (· ≠ i) l) {t : LockTask}
    (ht : s.tasks[i]? = some t) {wanted : Guard} (hwaiting : wanted ∈ t.wanted?) :
    s.isFree wanted.lock = !l.isHeld wanted.key := by
  have hmem := List.mem_of_getElem? ht
  have hwanted := LockTask.wanted_mem_refs hwaiting
  have hlocks : ∀ t' ∈ s.tasks, ∀ g ∈ t'.guards, (g.lock = wanted.lock ↔ (g.key == wanted.key) = true) :=
    fun t' ht' g hg => h.lock_eq_iff ht' hmem (t'.guards_subset_refs hg) hwanted
  cases hheld : l.isHeld wanted.key with
  | true =>
    obtain ⟨j, t', _, ht', g, hg, hkey⟩ := (hshows.held wanted.key).mp hheld
    have hmem' := List.mem_of_getElem? ht'
    rw [Bool.not_true, ← Bool.not_eq_true]
    intro hfree
    have hother := List.all_eq_true.mp (List.all_eq_true.mp hfree t' hmem') g hg
    simp [(hlocks t' hmem' g hg).mpr hkey] at hother
  | false =>
    refine List.all_eq_true.mpr fun t' hmem' => List.all_eq_true.mpr fun g hg => ?_
    obtain ⟨j, ht'⟩ := List.getElem?_of_mem hmem'
    simp only [bne_iff_ne, ne_eq]
    intro hlock
    have hkey := (hlocks t' hmem' g hg).mp hlock
    by_cases hj : j = i
    · -- the keys that the call itself holds are smaller
      subst hj
      obtain rfl : t' = t := Option.some.inj (ht'.symm.trans ht)
      have hbelow := h.waiting_below hmem hwaiting hg
      rw [Path.not_beq_of_cmp_lt hbelow] at hkey
      cases hkey
    · have hfound := (hshows.held wanted.key).mpr ⟨j, t', hj, ht', g, hg, hkey⟩
      rw [hheld] at hfound
      cases hfound

/-! ## Taking keys -/

/-- Steps of one call and no other. -/
def runAlone (keyOf : Path → Path) (s : Contention) (i : Nat) (moves : List LockMove) : Option Contention :=
  s.run keyOf (moves.map (.move i))

theorem runAlone_cons {i : Nat} {t : LockTask} (ht : s.tasks[i]? = some t) {m : LockMove} {s₁ : Contention}
    (hadvance : s.advance keyOf i t m = some s₁) (moves : List LockMove) :
    s.runAlone keyOf i (m :: moves) = s₁.runAlone keyOf i moves := by
  have hstep : s.step keyOf (.move i m) = some s₁ := by rw [step, ht, Option.bind_some, hadvance]
  simp only [runAlone, run, List.map_cons, List.foldlM_cons, hstep, Option.bind_eq_bind, Option.bind_some]

/-- The call ends with the locks of all keys, or waits for the first one that the table finds held. -/
inductive TookAll (keyOf : Path → Path) (s : Contention) (i : Nat) (t : LockTask) (keys : List Path) (timeoutMs : Nat) :
    LockTable × Except Error Unit → Prop where
  | granted (l' : LockTable) (moves : List LockMove) (s' : Contention) (guards : List Guard)
    (ran : s.runAlone keyOf i moves = some s') (shows : s'.Shows (· ≠ i) l')
    (done : s'.tasks[i]? = some ⟨.holding, t.guards ++ guards⟩) (all : guards.map (·.key) = keys) :
    TookAll keyOf s i t keys timeoutMs (l', .ok ())
  | busy (l' : LockTable) (moves : List LockMove) (s' : Contention) (wanted : Guard) (rest : List Path) (guards : List Guard)
    (ran : s.runAlone keyOf i moves = some s') (shows : s'.Shows (· ≠ i) l')
    (waits : s'.tasks[i]? = some ⟨.waiting wanted rest, guards⟩) (held : s'.isFree wanted.lock = false) :
    TookAll keyOf s i t keys timeoutMs (l', .error (.busy wanted.key.raw timeoutMs))

theorem takeAll_alone (keyOf : Path → Path) (timeoutMs : Nat) {i : Nat} : ∀ {keys : List Path} {s : Contention}
    {l : LockTable} {t : LockTask}, s.Coherent → s.Shows (· ≠ i) l → s.tasks[i]? = some t → t.phase = .taking keys →
    TookAll keyOf s i t keys timeoutMs (l.takeAll timeoutMs keys)
  | [], s, l, ⟨_, guards⟩, h, hshows, ht, rfl => by
    have hadvance : s.advance keyOf i ⟨.taking [], guards⟩ .fetch = some (s.put i ⟨.holding, guards⟩) := rfl
    refine .granted l [.fetch] (s.put i ⟨.holding, guards⟩) [] ?_ (hshows.put (by simp) _) ?_ rfl
    · rw [runAlone_cons ht hadvance]
      rfl
    · rw [get_put_self ht, List.append_nil]
  | key :: rest, s, l, ⟨_, guards⟩, h, hshows, ht, rfl => by
    -- the lock of the key is fetched
    obtain ⟨hcoherent, htasks, hkey, _⟩ := h.lockFor key
    have hfetch : s.advance keyOf i ⟨.taking (key :: rest), guards⟩ .fetch =
        some ((s.lockFor key).2.put i ⟨.waiting (s.lockFor key).1 rest, guards⟩) := rfl
    have ht' : (s.lockFor key).2.tasks[i]? = some ⟨.taking (key :: rest), guards⟩ := by rw [htasks, ht]
    have hfetched := h.advances ht (advance_cases hfetch)
    have hself : ¬i ≠ i := by simp
    have hshown := (hshows.lockFor h key).put hself ⟨.waiting (s.lockFor key).1 rest, guards⟩
    have hwaits := get_put_self ht' ⟨.waiting (s.lockFor key).1 rest, guards⟩
    generalize hwanted : (s.lockFor key).1 = wanted at hkey hfetch hfetched hshown hwaits
    generalize (s.lockFor key).2.put i ⟨.waiting wanted rest, guards⟩ = s₁ at hfetch hfetched hshown hwaits
    have hfree := hfetched.isFree_eq hshown hwaits rfl
    unfold LockTable.takeAll
    dsimp only
    rw [hkey] at hfree
    split
    · rename_i hheld
      have hran : s.runAlone keyOf i [.fetch] = some s₁ := by
        rw [runAlone_cons ht hfetch]
        rfl
      have hbusy : TookAll keyOf s i ⟨.taking (key :: rest), guards⟩ (key :: rest) timeoutMs
          ({ l with known := PathSet.insert key l.known }, .error (.busy wanted.key.raw timeoutMs)) :=
        .busy _ [.fetch] s₁ wanted rest guards hran hshown hwaits (by rw [hfree, hheld, Bool.not_true])
      rwa [hkey] at hbusy
    · rename_i hheld
      -- nobody holds it, so it is granted, and the other keys follow
      have hgrant : s₁.advance keyOf i ⟨.waiting wanted rest, guards⟩ .grant =
          some (s₁.put i ⟨.taking rest, guards ++ [wanted]⟩) := by
        rw [Bool.not_eq_true] at hheld
        simp [advance, hfree, hheld]
      have hgranted := hfetched.advances hwaits (advance_cases hgrant)
      have htakes := get_put_self hwaits ⟨.taking rest, guards ++ [wanted]⟩
      have ih := takeAll_alone keyOf timeoutMs hgranted (hshown.put (by simp) _) htakes rfl
      generalize LockTable.takeAll _ timeoutMs rest = out at ih ⊢
      cases ih with
      | granted l' moves s' more ran shows done all =>
        refine .granted l' (.fetch :: .grant :: moves) s' (wanted :: more) ?_ shows ?_ ?_
        · rw [runAlone_cons ht hfetch, runAlone_cons hwaits hgrant, ran]
        · rw [done, List.append_assoc, List.singleton_append]
        · rw [List.map_cons, all, hkey]
      | busy l' moves s' wanted' rest' guards' ran shows waits held =>
        refine .busy l' (.fetch :: .grant :: moves) s' wanted' rest' guards' ?_ shows waits held
        rw [runAlone_cons ht hfetch, runAlone_cons hwaits hgrant, ran]

/-- When the table grants the keys, the call ends with the locks that the table shows for it. -/
theorem acquireKeys_alone (keyOf : Path → Path) (h : s.Coherent) {i : Nat} (hshows : s.Shows (· ≠ i) l)
    {keys : List Path} (ht : s.tasks[i]? = some ⟨.taking keys, []⟩) {holder : String} (hholder : l.holds holder = false)
    {timeoutMs : Nat} {l' : LockTable} {locked : List Path}
    (hacquire : l.acquireKeys holder keys timeoutMs = (l', .ok locked)) :
    ∃ moves s' guards, s.runAlone keyOf i moves = some s' ∧ s'.Shows (fun _ => True) l' ∧
      s'.tasks[i]? = some ⟨.holding, guards⟩ ∧ guards.map (·.key) = locked := by
  have htaken := takeAll_alone keyOf timeoutMs h hshows ht rfl
  have hheld := LockTable.takeAll_held timeoutMs keys l
  unfold LockTable.acquireKeys at hacquire
  generalize l.takeAll timeoutMs keys = out at htaken hheld hacquire
  cases htaken with
  | busy => cases hacquire
  | granted l₁ moves s' guards ran shows done all =>
    cases hacquire
    have hothers : l₁.held.filter (·.1 != holder) = l₁.held := by
      refine List.filter_eq_self.mpr fun entry hentry => ?_
      dsimp only at hheld
      rw [hheld] at hentry
      have hne := List.any_eq_false.mp hholder entry hentry
      simpa using hne
    have hisHeld : ∀ key, ({ l₁ with held := l₁.held.filter (·.1 != holder) ++ [(holder, keys)] } : LockTable).isHeld key =
        (l₁.isHeld key || keys.contains key) := by
      intro key
      simp [LockTable.isHeld, hothers]
    refine ⟨moves, s', guards, ran, ⟨shows.known, fun key => ?_⟩, by rw [done]; rfl, all⟩
    rw [hisHeld, Bool.or_eq_true, shows.held, ← all, List.contains_iff_exists_mem_beq]
    constructor
    · rintro (⟨j, t, _, ht', hg⟩ | ⟨key', hkey', hbeq⟩)
      · exact ⟨j, t, trivial, ht', hg⟩
      · obtain ⟨g, hg, rfl⟩ := List.mem_map.mp hkey'
        refine ⟨i, _, trivial, done, g, by simpa using hg, ?_⟩
        rw [Path.beq_comm]
        exact hbeq
    · rintro ⟨j, t, _, ht', g, hg, hbeq⟩
      by_cases hj : j = i
      · subst hj
        obtain rfl := Option.some.inj (ht'.symm.trans done)
        refine Or.inr ⟨g.key, List.mem_map_of_mem (by simpa using hg), ?_⟩
        rw [Path.beq_comm]
        exact hbeq
      · exact Or.inl ⟨j, t, hj, ht', g, hg, hbeq⟩

/-! ## Forgetting locks -/

theorem cleanup_shows (h : s.Coherent) (hshows : s.Shows (fun _ => True) l)
    (hwaiting : ∀ t ∈ s.tasks, t.refs = t.guards) : s.cleanup.Shows (fun _ => True) l.cleanup where
  known := by
    have hreferred : ∀ entry ∈ s.locks, l.isHeld entry.1 = decide (1 + s.references entry.2 > 1) := by
      intro entry hentry
      have hcount : 1 + s.references entry.2 > 1 ↔ ∃ t ∈ s.tasks, ∃ g ∈ t.guards, g.lock = entry.2 := by
        have hpos : 1 + s.references entry.2 > 1 ↔ 0 < s.references entry.2 := by omega
        rw [hpos, references, List.countP_pos_iff]
        constructor
        · rintro ⟨g, hg, hlock⟩
          obtain ⟨t, ht, hgt⟩ := List.mem_flatMap.mp hg
          exact ⟨t, ht, g, hwaiting t ht ▸ hgt, by simpa using hlock⟩
        · rintro ⟨t, ht, g, hg, hlock⟩
          exact ⟨g, List.mem_flatMap.mpr ⟨t, ht, t.guards_subset_refs hg⟩, by simpa using hlock⟩
      rw [Bool.eq_iff_iff, decide_eq_true_iff, hcount, hshows.held]
      constructor
      · rintro ⟨j, t, _, ht, g, hg, hkey⟩
        have hmem := List.mem_of_getElem? ht
        exact ⟨t, hmem, g, hg, (h.lock_eq_known_iff hmem (t.guards_subset_refs hg) hentry).mpr hkey⟩
      · rintro ⟨t, ht, g, hg, hlock⟩
        obtain ⟨j, hj⟩ := List.getElem?_of_mem ht
        exact ⟨j, t, trivial, hj, g, hg, (h.lock_eq_known_iff ht (t.guards_subset_refs hg) hentry).mp hlock⟩
    show l.known.filter l.isHeld = (s.locks.filter fun entry => 1 + s.references entry.2 > 1).map (·.1)
    rw [hshows.known, PathMap.keys, List.filter_map]
    exact congrArg _ (List.filter_congr hreferred)
  held := hshows.held

end Contention

end Refactor
