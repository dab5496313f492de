import Mathlib.Data.List.Dedup
import Mathlib.Data.List.Induction
import Refactor.Proofs.Plan.Standing

/-!
# A store is a bounded list of the latest names

Calls on a store come one after the other, at moments that never go back. What the store shows of a name then follows
from the calls alone: the plan or mark that was stored under it last, as long as that is young and few other names came
later.

* `StoreCall`, `PlanStore.after` — calls, and the store after them
* `PlanStore.history` — the same calls on a list in which nothing grows old or gives way
* `PlanStore.Follows` — a store is the end of that list, and what it has lost is too old or too far back
* `PlanStore.Latest`, `PlanStore.history_split` — what the list holds, read off the calls
* `PlanStore.showing_after` — what the store shows
-/

namespace Refactor

variable {α : Type}

/-! ## Calls -/

inductive StoreCall (α : Type) where
  | insert (id : PlanId) (plan : α)
  | take (id : PlanId)
  | markConsumed (id : PlanId)

namespace StoreCall

/-- What a call stores, and under which name. -/
def stored? : StoreCall α → Option (PlanId × StoredPlan α)
  | .insert id plan => some (id, .pending plan)
  | .take _ => none
  | .markConsumed id => some (id, .consumed)

def takes (id : PlanId) : StoreCall α → Bool
  | .take id' => id' == id
  | _ => false

end StoreCall

namespace PlanStore

/-- The store after a call at a moment. -/
def call (s : PlanStore α) : Nat × StoreCall α → PlanStore α
  | (now, .insert id plan) => s.insert now id plan
  | (now, .take id) => (s.take now id).1
  | (now, .markConsumed id) => s.markConsumed now id

def after (s : PlanStore α) (calls : List (Nat × StoreCall α)) : PlanStore α := calls.foldl call s

/-- What is under a name, unless it is too old. -/
def showing (s : PlanStore α) (now : Nat) (id : PlanId) : Option (StoredPlan α) := (s.dropExpired now).standing id

/-- The entries with one more, in the place of any other of its name. -/
def renewed (es : List (StoreEntry α)) (e : StoreEntry α) : List (StoreEntry α) := es.filter (·.id != e.id) ++ [e]

/-- A list of entries after a call, when nothing grows old or gives way. -/
def historyStep (es : List (StoreEntry α)) (c : Nat × StoreCall α) : List (StoreEntry α) :=
  match c.2 with
  | .insert id plan => renewed es ⟨id, .pending plan, c.1⟩
  | .take id => es.map (·.mark id)
  | .markConsumed id => renewed es ⟨id, .consumed, c.1⟩

/-- The entries that calls leave when nothing grows old or gives way, oldest first. -/
def history (calls : List (Nat × StoreCall α)) : List (StoreEntry α) := calls.foldl historyStep []

/-- Every call stores an entry or marks one. -/
theorem call_cases (c : Nat × StoreCall α) :
    (∃ id state, c.2.stored? = some (id, state) ∧ (∀ i, c.2.takes i = false) ∧
      (∀ s : PlanStore α, s.call c = s.put c.1 id state) ∧ ∀ es, historyStep es c = renewed es ⟨id, state, c.1⟩) ∨
    ∃ id, c.2.stored? = none ∧ (∀ i, c.2.takes i = (id == i)) ∧
      (∀ s : PlanStore α, s.call c = (s.take c.1 id).1) ∧ ∀ es, historyStep es c = es.map (·.mark id) := by
  obtain ⟨now, call⟩ := c
  cases call with
  | insert id plan => exact Or.inl ⟨id, .pending plan, rfl, fun _ => rfl, fun _ => rfl, fun _ => rfl⟩
  | take id => exact Or.inr ⟨id, rfl, fun _ => rfl, fun _ => rfl, fun _ => rfl⟩
  | markConsumed id => exact Or.inl ⟨id, .consumed, rfl, fun _ => rfl, fun _ => rfl, fun _ => rfl⟩

/-! ## Entries that nothing ages -/

variable {es : List (StoreEntry α)} {now now' : Nat} {id : PlanId}

theorem history_concat (calls : List (Nat × StoreCall α)) (c : Nat × StoreCall α) :
    history (calls ++ [c]) = historyStep (history calls) c := by
  rw [history, history, List.foldl_append]
  rfl

theorem after_concat (s : PlanStore α) (calls : List (Nat × StoreCall α)) (c : Nat × StoreCall α) :
    s.after (calls ++ [c]) = (s.after calls).call c := by
  rw [after, after, List.foldl_append]
  rfl

theorem map_mark_ids (es : List (StoreEntry α)) (id : PlanId) : (es.map (·.mark id)).map (·.id) = es.map (·.id) := by
  rw [List.map_map]
  exact List.map_congr_left fun e _ => e.mark_id id

/-- Entries in the order of their moments, one a name. -/
structure InOrder (es : List (StoreEntry α)) (now : Nat) : Prop where
  nodup : (es.map (·.id)).Nodup
  order : es.Pairwise fun e e' => e.storedAt ≤ e'.storedAt
  past : ∀ e ∈ es, e.storedAt ≤ now

theorem InOrder.mono (h : InOrder es now) (hle : now ≤ now') : InOrder es now' :=
  ⟨h.nodup, h.order, fun e he => Nat.le_trans (h.past e he) hle⟩

theorem InOrder.renewed (h : InOrder es now) (id : PlanId) (state : StoredPlan α) :
    InOrder (renewed es ⟨id, state, now⟩) now := by
  have hold : ∀ e ∈ es.filter (·.id != id), e.storedAt ≤ now := fun e he => h.past e (List.mem_of_mem_filter he)
  refine ⟨nodup_entriesWith (s := { capacity := 1, entries := es }) ⟨Nat.one_pos, h.nodup⟩ _, ?_, fun e he => ?_⟩
  · refine List.pairwise_append.mpr ⟨h.order.filter _, List.pairwise_singleton _ _, fun e he e' he' => ?_⟩
    rw [List.mem_singleton.mp he']
    exact hold e he
  · rcases List.mem_append.mp he with he | he
    · exact hold e he
    · obtain rfl := List.mem_singleton.mp he
      exact Nat.le_refl now

theorem InOrder.mark (h : InOrder es now) (id : PlanId) : InOrder (es.map (·.mark id)) now := by
  refine ⟨by rw [map_mark_ids]; exact h.nodup, ?_, fun e he => ?_⟩
  · rw [List.pairwise_map]
    simpa using h.order
  · obtain ⟨e₀, he₀, rfl⟩ := List.mem_map.mp he
    rw [StoreEntry.mark_storedAt]
    exact h.past e₀ he₀

theorem InOrder.historyStep {c : Nat × StoreCall α} (h : InOrder es now) (hle : now ≤ c.1) :
    InOrder (historyStep es c) c.1 := by
  obtain ⟨id, state, -, -, -, hstep⟩ | ⟨id, -, -, -, hstep⟩ := call_cases c
  · rw [hstep]
    exact (h.mono hle).renewed id state
  · rw [hstep]
    exact (h.mono hle).mark id

/-! ## A store follows the list -/

/-- A store holds the end of a list of entries; what it does not hold is too old, or too far back. -/
structure Follows (s : PlanStore α) (es : List (StoreEntry α)) (now : Nat) : Prop where
  suffix : s.entries <:+ es
  room : s.entries.length ≤ s.capacity
  gone : ∀ before e rest, es = before ++ e :: rest → s.entries.length ≤ rest.length →
    s.isExpired now e = true ∨ s.capacity ≤ rest.length

variable {s : PlanStore α} {e : StoreEntry α} {before rest : List (StoreEntry α)}

theorem isExpired_mono (h : s.isExpired now e = true) (hle : now ≤ now') : s.isExpired now' e = true := by
  rw [isExpired, decide_eq_true_eq] at h ⊢
  omega

theorem Follows.mono (h : s.Follows es now) (hle : now ≤ now') : s.Follows es now' :=
  ⟨h.suffix, h.room, fun before e rest heq hlen =>
    (h.gone before e rest heq hlen).imp_left fun hexpired => isExpired_mono hexpired hle⟩

theorem Follows.suffix_of_lt (h : s.Follows es now) (heq : es = before ++ e :: rest)
    (hlt : rest.length < s.entries.length) : e :: rest <:+ s.entries :=
  List.suffix_of_suffix_length_le ⟨before, heq.symm⟩ h.suffix hlt

theorem filter_young_cons (hyoung : s.isExpired now e = false) (hrest : ∀ e' ∈ rest, e.storedAt ≤ e'.storedAt) :
    (e :: rest).filter (fun e => !s.isExpired now e) = e :: rest := by
  refine List.filter_eq_self.mpr (List.forall_mem_cons.mpr ⟨by rw [hyoung]; rfl, fun e' he' => ?_⟩)
  have hle := hrest e' he'
  rw [isExpired, decide_eq_false_iff_not] at hyoung
  rw [isExpired, Bool.not_eq_true', decide_eq_false_iff_not]
  omega

/-- The entries that are not too old are the last ones. -/
theorem filter_young_suffix (s : PlanStore α) (now : Nat) :
    ∀ {es : List (StoreEntry α)}, (es.Pairwise fun e e' => e.storedAt ≤ e'.storedAt) →
      es.filter (fun e => !s.isExpired now e) <:+ es
  | [], _ => List.suffix_refl []
  | e :: es, horder => by
    obtain ⟨hfirst, hrest⟩ := List.pairwise_cons.mp horder
    cases hexpired : s.isExpired now e with
    | true =>
      rw [List.filter_cons_of_neg (by simp [hexpired])]
      exact (filter_young_suffix s now hrest).trans (List.suffix_cons e es)
    | false =>
      exact ⟨[], filter_young_cons hexpired hfirst⟩

theorem Follows.dropExpired (h : s.Follows es now) (hes : InOrder es now) : (s.dropExpired now).Follows es now := by
  have horder := hes.order.sublist h.suffix.sublist
  have hkept := filter_young_suffix s now horder
  refine ⟨hkept.trans h.suffix, Nat.le_trans hkept.length_le h.room, fun before e rest heq hlen => ?_⟩
  rcases Nat.lt_or_ge rest.length s.entries.length with hlt | hle
  · -- an entry of the store that is not kept is too old
    left
    by_contra hyoung
    have hheld := h.suffix_of_lt heq hlt
    have hfirst := (List.pairwise_cons.mp (horder.sublist hheld.sublist)).1
    have hmore := (hheld.filter fun e => !s.isExpired now e).length_le
    rw [filter_young_cons (Bool.not_eq_true _ ▸ hyoung) hfirst, List.length_cons] at hmore
    exact absurd hlen (Nat.not_le_of_lt hmore)
  · exact h.gone before e rest heq hle

theorem length_le_filter_id (hnodup : (es.map (·.id)).Nodup) (id : PlanId) :
    es.length ≤ (es.filter (·.id != id)).length + 1 := by
  induction es with
  | nil => simp
  | cons e es ih =>
    rw [List.map_cons, List.nodup_cons] at hnodup
    by_cases hid : e.id = id
    · -- no other entry has the name
      have hall : es.filter (·.id != id) = es := List.filter_eq_self.mpr fun e' he' => by
        have hne : e'.id ≠ id := fun h => hnodup.1 (hid.trans h.symm ▸ List.mem_map_of_mem he')
        simpa using hne
      rw [List.filter_cons_of_neg (by simpa using hid), hall]
      exact Nat.le_refl _
    · rw [List.filter_cons_of_pos (by simpa using hid), List.length_cons, List.length_cons]
      exact Nat.succ_le_succ (ih hnodup.2)

/-- What stands before the new entry stood in the old list; behind it only the entry of that name is lost. -/
theorem exists_of_renewed_eq {e' last : StoreEntry α}
    (heq : PlanStore.renewed es e' = before ++ e :: rest ++ [last]) :
    ∃ before' rest', es = before' ++ e :: rest' ∧ (e.id != e'.id) = true ∧ rest'.filter (·.id != e'.id) = rest := by
  obtain ⟨front, back, rfl, -, hback⟩ := List.filter_eq_append_iff.mp (List.append_inj' heq rfl).1
  obtain ⟨between, rest', rfl, -, hid, hrest⟩ := List.filter_eq_cons_iff.mp hback
  exact ⟨front ++ between, rest', (List.append_assoc _ _ _).symm, hid, hrest⟩

/-- A store that follows a list still does when both get an entry. -/
theorem Follows.renewed (h : s.Follows es now) (hes : InOrder es now) (id : PlanId) (state : StoredPlan α) :
    Follows { s with entries :=
      (renewed s.entries ⟨id, state, now⟩).drop ((renewed s.entries ⟨id, state, now⟩).length - s.capacity) }
      (PlanStore.renewed es ⟨id, state, now⟩) now := by
  have hsuffix : PlanStore.renewed s.entries ⟨id, state, now⟩ <:+ PlanStore.renewed es ⟨id, state, now⟩ := by
    obtain ⟨old, hold⟩ := h.suffix.filter (·.id != id)
    exact ⟨old, by rw [PlanStore.renewed, PlanStore.renewed, ← hold, List.append_assoc]⟩
  have hlength : (PlanStore.renewed s.entries ⟨id, state, now⟩).length =
      (s.entries.filter (·.id != id)).length + 1 := by
    rw [PlanStore.renewed, List.length_append, List.length_singleton]
  refine ⟨(List.drop_suffix _ _).trans hsuffix, ?_, fun before e rest heq hlen => ?_⟩
  · show (List.drop _ _).length ≤ s.capacity
    rw [List.length_drop]
    omega
  show s.isExpired now e = true ∨ s.capacity ≤ rest.length
  change (List.drop _ _).length ≤ rest.length at hlen
  rw [List.length_drop] at hlen
  by_cases hfull : s.capacity ≤ (PlanStore.renewed s.entries ⟨id, state, now⟩).length
  · right
    omega
  rcases List.eq_nil_or_concat' rest with rfl | ⟨rest, last, rfl⟩
  · rw [List.length_nil] at hlen
    omega
  rw [← List.cons_append, ← List.append_assoc] at heq
  obtain ⟨before', rest', rfl, hid, rfl⟩ : ∃ before' rest', es = before' ++ e :: rest' ∧ (e.id != id) = true ∧
      rest'.filter (·.id != id) = rest := exists_of_renewed_eq heq
  rw [List.length_append, List.length_singleton] at hlen ⊢
  rcases Nat.lt_or_ge rest'.length s.entries.length with hlt | hle
  · -- an entry that was held stays
    have hkept := ((h.suffix_of_lt rfl hlt).filter (·.id != id)).length_le
    rw [List.filter_cons_of_pos (p := fun x : StoreEntry α => x.id != id) hid, List.length_cons] at hkept
    omega
  · -- one that was not held loses at most one of those behind it, and gets another
    have hnodup : (rest'.map (·.id)).Nodup :=
      hes.nodup.sublist (((List.sublist_cons_self e rest').trans (List.sublist_append_right before' _)).map _)
    have hfew := length_le_filter_id hnodup id
    exact (h.gone before' e rest' rfl hle).imp_right fun hcapacity => by omega

theorem fresh_dropExpired (s : PlanStore α) (now : Nat) : (s.dropExpired now).Fresh now := by
  intro e he
  show s.isExpired now e = false
  simpa using (List.mem_filter.mp he).2

theorem take_dropExpired (s : PlanStore α) (now : Nat) (id : PlanId) :
    (s.dropExpired now).take now id = s.take now id := by
  unfold take
  rw [dropExpired_of_fresh (fresh_dropExpired s now)]

theorem take_eq_showing (s : PlanStore α) (now : Nat) (id : PlanId) : s.take now id =
    ((s.dropExpired now).marked id, match s.showing now id with
      | none => .error (.notFound ("plan " ++ id.text) none)
      | some (.pending p) => .ok p
      | some .consumed => .error (alreadyApplied id)) :=
  (take_dropExpired s now id).symm.trans (take_eq (fresh_dropExpired s now) id)

theorem Follows.marked (h : s.Follows es now) (id : PlanId) : (s.marked id).Follows (es.map (·.mark id)) now := by
  refine ⟨h.suffix.map _, by simpa [PlanStore.marked] using h.room, fun before e rest heq hlen => ?_⟩
  obtain ⟨front, back, rfl, -, hback⟩ := List.map_eq_append_iff.mp heq
  obtain ⟨e₀, rest₀, rfl, rfl, rfl⟩ := List.map_eq_cons_iff.mp hback
  rw [List.length_map] at hlen ⊢
  simp only [PlanStore.marked, List.length_map] at hlen
  have hold := h.gone front e₀ rest₀ rfl hlen
  rwa [isExpired, ← StoreEntry.mark_storedAt id e₀] at hold

theorem Follows.call {c : Nat × StoreCall α} (h : s.Follows es now) (hes : InOrder es now) (hle : now ≤ c.1) :
    (s.call c).Follows (historyStep es c) c.1 := by
  have hdropped := (h.mono hle).dropExpired (hes.mono hle)
  obtain ⟨id, state, -, -, hcall, hstep⟩ | ⟨id, -, -, hcall, hstep⟩ := call_cases c
  · rw [hcall, hstep]
    exact hdropped.renewed (hes.mono hle) id state
  · rw [hcall, hstep, take_eq_showing]
    exact hdropped.marked id

theorem call_limits (s : PlanStore α) (c : Nat × StoreCall α) :
    (s.call c).timeToLive = s.timeToLive ∧ (s.call c).capacity = s.capacity := by
  obtain ⟨id, state, -, -, hcall, -⟩ | ⟨id, -, -, hcall, -⟩ := call_cases c
  · rw [hcall]
    exact ⟨rfl, rfl⟩
  · rw [hcall, take_eq_showing]
    exact ⟨rfl, rfl⟩

/-- After calls in order, a store that was empty follows the list of what they stored. -/
theorem follows_after (s₀ : PlanStore α) (hempty : s₀.entries = []) (calls : List (Nat × StoreCall α)) {now : Nat}
    (htimes : (calls.map Prod.fst ++ [now]).Pairwise (· ≤ ·)) :
    ((s₀.after calls).timeToLive = s₀.timeToLive ∧ (s₀.after calls).capacity = s₀.capacity) ∧
      InOrder (history calls) now ∧ (s₀.after calls).Follows (history calls) now := by
  induction calls using List.reverseRecOn generalizing now with
  | nil =>
    refine ⟨⟨rfl, rfl⟩, ⟨List.nodup_nil, List.Pairwise.nil, by simp [history]⟩, ?_⟩
    refine ⟨?_, ?_, fun before e rest heq => ?_⟩
    · rw [after, List.foldl_nil, hempty]
      exact List.nil_suffix
    · rw [after, List.foldl_nil, hempty]
      exact Nat.zero_le _
    · simp [history] at heq
  | append_singleton calls c ih =>
    rw [List.map_append, List.map_singleton] at htimes
    have hle : c.1 ≤ now := (List.pairwise_append.mp htimes).2.2 c.1 (by simp) now (by simp)
    obtain ⟨⟨hlive, hcapacity⟩, horder, hfollows⟩ := ih (List.pairwise_append.mp htimes).1
    rw [after_concat, history_concat]
    obtain ⟨hlive', hcapacity'⟩ := call_limits (s₀.after calls) c
    exact ⟨⟨hlive'.trans hlive, hcapacity'.trans hcapacity⟩, (horder.historyStep (Nat.le_refl _)).mono hle,
      (hfollows.call horder (Nat.le_refl _)).mono hle⟩

/-! ## What the calls leave -/

def names (calls : List (Nat × StoreCall α)) : List PlanId := calls.filterMap fun c => c.2.stored?.map Prod.fst

/-- The latest call that stores something under a name, its moment, what it stores, and the calls behind it. -/
structure Latest (calls : List (Nat × StoreCall α)) (id : PlanId) (moment : Nat) (state : StoredPlan α)
    (later : List (Nat × StoreCall α)) : Prop where
  stored : ∃ before call, calls = before ++ (moment, call) :: later ∧ call.stored? = some (id, state)
  last : id ∉ names later

/-- What is left of a plan or mark after calls that store nothing under its name. -/
def leftBy (later : List (Nat × StoreCall α)) (id : PlanId) (state : StoredPlan α) : StoredPlan α :=
  if later.any (·.2.takes id) then .consumed else state

variable {calls later : List (Nat × StoreCall α)} {moment : Nat} {state : StoredPlan α}

theorem leftBy_concat (later : List (Nat × StoreCall α)) (c : Nat × StoreCall α) (id : PlanId)
    (state : StoredPlan α) :
    leftBy (later ++ [c]) id state = if c.2.takes id then .consumed else leftBy later id state := by
  rw [leftBy, leftBy, List.any_append, List.any_cons, List.any_nil, Bool.or_false]
  cases later.any (·.2.takes id) <;> cases c.2.takes id <;> rfl

theorem names_concat (calls : List (Nat × StoreCall α)) (c : Nat × StoreCall α) :
    names (calls ++ [c]) = names calls ++ (c.2.stored?.map Prod.fst).toList := by
  rw [names, names, List.filterMap_append]
  cases h : c.2.stored?.map Prod.fst <;> simp [h]

/-- What stands in the list behind the entry of a name has the names that were stored later. -/
theorem Latest.history_split (h : Latest calls id moment state later) :
    ∃ before rest, history calls = before ++ ⟨id, leftBy later id state, moment⟩ :: rest ∧
      ∀ i, i ∈ rest.map (·.id) ↔ i ∈ names later := by
  obtain ⟨⟨front, call, rfl, hstored⟩, hlast⟩ := h
  induction later using List.reverseRecOn with
  | nil =>
    obtain ⟨id', state', hstored', -, -, hstep⟩ | ⟨id', hnone, -, -, -⟩ := call_cases (moment, call)
    · obtain ⟨rfl, rfl⟩ : id' = id ∧ state' = state := by simpa using hstored'.symm.trans hstored
      exact ⟨_, [], by rw [history_concat, hstep]; rfl, by simp [names]⟩
    · rw [hstored] at hnone
      cases hnone
  | append_singleton later c ih =>
    rw [names_concat, List.mem_append, not_or] at hlast
    obtain ⟨before, rest, hhistory, hnames⟩ := ih hlast.1
    rw [← List.cons_append, ← List.append_assoc, history_concat, hhistory]
    obtain ⟨id', state', hstored', htakes, -, hstep⟩ | ⟨id', hnone, htakes, -, hstep⟩ := call_cases c
    · have hne : id ≠ id' := by simpa [hstored'] using hlast.2
      refine ⟨before.filter (·.id != id'), rest.filter (·.id != id') ++ [⟨id', state', c.1⟩], ?_, fun i => ?_⟩
      · rw [hstep, renewed, List.filter_append, List.filter_cons_of_pos (by simpa using hne)]
        simp [leftBy_concat, htakes]
      · rw [names_concat, hstored', List.map_append, List.mem_append, List.mem_append, ← hnames]
        by_cases hi : i = id'
        · simp [hi]
        · simp only [List.mem_map, List.mem_filter, List.map_cons, List.map_nil, List.mem_singleton, hi, or_false,
            Option.map_some, Option.toList_some]
          refine ⟨fun ⟨e, he, hid⟩ => ⟨e, he.1, hid⟩, fun ⟨e, he, hid⟩ => ⟨e, ⟨he, ?_⟩, hid⟩⟩
          simpa [hid] using hi
    · refine ⟨before.map (·.mark id'), rest.map (·.mark id'), ?_, fun i => ?_⟩
      · rw [hstep, List.map_append, List.map_cons]
        congr 2
        rw [StoreEntry.mark, leftBy_concat, htakes]
        by_cases hid : id' = id
        · simp [hid]
        · simp [hid, Ne.symm hid]
      · rw [map_mark_ids, hnames, names_concat, hnone]
        simp

theorem exists_latest {e : StoreEntry α} (he : e ∈ history calls) :
    ∃ moment state later, Latest calls e.id moment state later := by
  induction calls using List.reverseRecOn generalizing e with
  | nil => simp [history] at he
  | append_singleton calls c ih =>
    have hkept : ∀ {e₀ : StoreEntry α}, e₀ ∈ history calls → e₀.id ∉ (c.2.stored?.map Prod.fst).toList →
        ∃ moment state later, Latest (calls ++ [c]) e₀.id moment state later := by
      intro e₀ he₀ hother
      obtain ⟨moment, state, later, ⟨before, call, rfl, hstored⟩, hlast⟩ := ih he₀
      refine ⟨moment, state, later ++ [c], ⟨before, call, by simp, hstored⟩, ?_⟩
      rw [names_concat, List.mem_append, not_or]
      exact ⟨hlast, hother⟩
    rw [history_concat] at he
    obtain ⟨id, state, hstored, -, -, hstep⟩ | ⟨id, hnone, -, -, hstep⟩ := call_cases c
    · rw [hstep] at he
      rcases List.mem_append.mp he with he | he
      · obtain ⟨he, hne⟩ := List.mem_filter.mp he
        exact hkept he (by simpa [hstored] using hne)
      · rw [List.mem_singleton.mp he]
        exact ⟨c.1, state, [], ⟨calls, c.2, rfl, hstored⟩, by simp [names]⟩
    · rw [hstep] at he
      obtain ⟨e₀, he₀, rfl⟩ := List.mem_map.mp he
      rw [StoreEntry.mark_id]
      exact hkept he₀ (by simp [hnone])

/-! ## What a store shows -/

theorem showing_eq_some (hnodup : (s.entries.map (·.id)).Nodup) : s.showing now id = some state ↔
    ∃ e ∈ s.entries, e.id = id ∧ s.isExpired now e = false ∧ e.state = state := by
  rw [showing, standing, Option.map_eq_some_iff]
  constructor
  · rintro ⟨e, hfind, hstate⟩
    obtain ⟨he, hyoung⟩ := List.mem_filter.mp (List.mem_of_find?_eq_some hfind)
    exact ⟨e, he, id_of_find? hfind, by simpa using hyoung, hstate⟩
  · rintro ⟨e, he, rfl, hyoung, rfl⟩
    have hmem : e ∈ (s.dropExpired now).entries := List.mem_filter.mpr ⟨he, by simp [hyoung]⟩
    cases hfind : (s.dropExpired now).find? e.id with
    | none => exact absurd (beq_self_eq_true e.id) (List.find?_eq_none.mp hfind e hmem)
    | some e' =>
      have he' := (List.mem_filter.mp (List.mem_of_find?_eq_some hfind)).1
      rw [List.inj_on_of_nodup_map hnodup he' he (id_of_find? hfind)]
      exact ⟨e, rfl, rfl⟩

theorem Follows.mem_iff (h : s.Follows es now) (hes : InOrder es now) (heq : es = before ++ e :: rest) :
    e ∈ s.entries ↔ rest.length < s.entries.length := by
  refine ⟨fun he => Nat.lt_of_not_le fun hle => ?_, fun hlt => (h.suffix_of_lt heq hlt).subset List.mem_cons_self⟩
  have hrest : e ∈ rest :=
    (List.suffix_of_suffix_length_le h.suffix ⟨before ++ [e], by simp [heq]⟩ hle).subset he
  have hnodup := hes.nodup
  rw [heq, List.map_append, List.map_cons] at hnodup
  exact (List.nodup_cons.mp hnodup.of_append_right).1 (List.mem_map_of_mem hrest)

/-- The entry of a name is held and young when its moment is near and few enough names were stored later. -/
theorem Follows.young_iff_of_latest (h : s.Follows (history calls) now) (hes : InOrder (history calls) now)
    (hlatest : Latest calls id moment state later) :
    ∃ e ∈ history calls, e.id = id ∧ e.state = leftBy later id state ∧
      (e ∈ s.entries ∧ s.isExpired now e = false ↔
        now - moment < s.timeToLive ∧ (names later).dedup.length < s.capacity) := by
  obtain ⟨before, rest, hsplit, hnames⟩ := hlatest.history_split
  have hnodup : (rest.map (·.id)).Nodup := by
    have hall := hes.nodup
    rw [hsplit, List.map_append, List.map_cons] at hall
    exact (List.nodup_cons.mp hall.of_append_right).2
  have hcount : (names later).dedup.length = rest.length := by
    have hperm : (names later).dedup.Perm (rest.map (·.id)) :=
      (List.perm_ext_iff_of_nodup (List.nodup_dedup _) hnodup).mpr fun i => by rw [List.mem_dedup, hnames]
    rw [hperm.length_eq, List.length_map]
  refine ⟨⟨id, leftBy later id state, moment⟩, hsplit ▸ by simp, rfl, rfl, ?_⟩
  rw [h.mem_iff hes hsplit, isExpired, decide_eq_false_iff_not, Nat.not_le, hcount]
  constructor
  · rintro ⟨hheld, hyoung⟩
    exact ⟨hyoung, Nat.lt_of_lt_of_le hheld h.room⟩
  · rintro ⟨hyoung, hroom⟩
    refine ⟨Nat.lt_of_not_le fun hle => ?_, hyoung⟩
    rcases h.gone _ _ _ hsplit hle with hexpired | hfar
    · rw [isExpired, decide_eq_true_eq] at hexpired
      exact absurd hyoung (Nat.not_lt_of_le hexpired)
    · exact absurd hroom (Nat.not_lt_of_le hfar)

/-- For calls in order on a store that begins empty: the store is never over full, a name shows when the latest call
that stored something under it is young and fewer other names than the store holds came later, it shows the plan that
was stored last until that is taken, and `take` answers by what shows. -/
theorem showing_after (timeToLive capacity : Nat) (calls : List (Nat × StoreCall α)) (now : Nat)
    (htimes : (calls.map Prod.fst ++ [now]).Pairwise (· ≤ ·)) :
    let s := ({ timeToLive, capacity := max capacity 1 } : PlanStore α).after calls
    s.entries.length ≤ max capacity 1 ∧
    (∀ id shown, s.showing now id = some shown ↔ ∃ moment state later, Latest calls id moment state later ∧
      now - moment < timeToLive ∧ (names later).dedup.length < max capacity 1 ∧ shown = leftBy later id state) ∧
    ∀ id, (s.take now id).2 = match s.showing now id with
      | none => .error (.notFound ("plan " ++ id.text) none)
      | some (.pending plan) => .ok plan
      | some .consumed => .error (alreadyApplied id) := by
  intro s
  obtain ⟨⟨hlive, hcapacity⟩, horder, hfollows⟩ :=
    follows_after ({ timeToLive, capacity := max capacity 1 } : PlanStore α) rfl calls htimes
  change s.timeToLive = timeToLive at hlive
  change s.capacity = max capacity 1 at hcapacity
  change s.Follows (history calls) now at hfollows
  rw [← hlive, ← hcapacity]
  refine ⟨hfollows.room, fun id shown => ?_, fun id => by rw [take_eq_showing]⟩
  have hheld : s.entries ⊆ history calls := hfollows.suffix.subset
  rw [showing_eq_some (horder.nodup.sublist (hfollows.suffix.sublist.map _))]
  constructor
  · rintro ⟨e, he, rfl, hyoung, rfl⟩
    obtain ⟨moment, state, later, hlatest⟩ := exists_latest (hheld he)
    obtain ⟨e', he', hid, hstate, hiff⟩ := hfollows.young_iff_of_latest horder hlatest
    obtain rfl : e' = e := List.inj_on_of_nodup_map horder.nodup he' (hheld he) hid
    obtain ⟨hnear, hroom⟩ := hiff.mp ⟨he, hyoung⟩
    exact ⟨moment, state, later, hlatest, hnear, hroom, hstate⟩
  · rintro ⟨moment, state, later, hlatest, hnear, hroom, rfl⟩
    obtain ⟨e, -, hid, hstate, hiff⟩ := hfollows.young_iff_of_latest horder hlatest
    obtain ⟨he, hyoung⟩ := hiff.mpr ⟨hnear, hroom⟩
    exact ⟨e, he, hid, hyoung, hstate⟩

/-- Three names in a store of two: the first gives way though it was taken later, and the second is stored anew. -/
def crowded : List (Nat × StoreCall Nat) :=
  [(0, .insert ⟨1⟩ 10), (1, .insert ⟨2⟩ 20), (2, .take ⟨1⟩), (3, .markConsumed ⟨3⟩), (5, .insert ⟨2⟩ 21)]

theorem showing_after_crowded :
    (crowded.map Prod.fst ++ [12]).Pairwise (· ≤ ·) ∧
    let s := ({ timeToLive := 10, capacity := max 2 1 } : PlanStore Nat).after crowded
    s.showing 12 ⟨1⟩ = none ∧ s.showing 12 ⟨3⟩ = some .consumed ∧ (s.take 12 ⟨2⟩).2 = .ok 21 := by
  have htimes : (crowded.map Prod.fst ++ [12]).Pairwise (· ≤ ·) := by decide
  obtain ⟨-, hshows, htakes⟩ := showing_after 10 2 crowded 12 htimes
  have hsecond := (hshows ⟨2⟩ (.pending 21)).mpr
    ⟨5, .pending 21, [], ⟨⟨crowded.take 4, .insert ⟨2⟩ 21, rfl, rfl⟩, by decide⟩, by decide, by decide, rfl⟩
  have hthird := (hshows ⟨3⟩ .consumed).mpr
    ⟨3, .consumed, _, ⟨⟨crowded.take 3, .markConsumed ⟨3⟩, rfl, rfl⟩, by decide⟩, by decide, by decide, rfl⟩
  refine ⟨htimes, rfl, hthird, ?_⟩
  rw [htakes, hsecond]

end PlanStore

end Refactor
