import Mathlib.Data.List.Induction
import Mathlib.Data.List.Lex
import Mathlib.Data.List.Pairwise
import Mathlib.Data.Prod.Lex
import Refactor.Proofs.Path.Order

/-!
# Sorted maps and sets of paths

The order of paths is that of their components, name by name. Maps and sets that are built by insertion are strictly
sorted, so no path is in them twice, however it is written.

* `Path.cmp_lt_iff` — the order of paths is a linear one
* `PathMap.Sorted`, `PathMap.insert_sorted` — maps
* `PathMap.Sorted.ofList_perm` — a map is made from its entries in any order
* `PathSet.Sorted`, `PathSet.union_sorted` — sets
* `PathSet.mem_union_of_unique` — a path that is written in one way only is in a union as it is
* `PathSet.ofList_congr` — a set is given by its members
* `PathMap.insert_comm`, `PathSet.insert_comm` — different paths go in in either order
-/

namespace Refactor

/-! ## The order -/

namespace Component

def key : Component → Nat ×ₗ String
  | .name s => toLex (3, s)
  | c => toLex (c.rank, "")

theorem key_injective : Function.Injective key := by
  intro a b h
  cases a <;> cases b <;> simp_all [key, rank]

theorem cmp_lt_iff (a b : Component) : a.cmp b = .lt ↔ a.key < b.key := by
  cases a <;> cases b <;> unfold cmp <;> refine compareOfLessAndEq_eq_lt.trans ?_ <;>
    simp [key, rank, Prod.Lex.toLex_lt_toLex]

end Component

namespace Path

theorem cmpComponents_lt_iff : ∀ as bs : List Component,
    cmpComponents as bs = .lt ↔ as.map Component.key < bs.map Component.key
  | [], [] => by simp [cmpComponents]
  | [], b :: bs => by simp [cmpComponents]
  | a :: as, [] => by simp [cmpComponents]
  | a :: as, b :: bs => by
    rw [cmpComponents, Ordering.then_eq_lt, Component.cmp_lt_iff, Component.cmp_eq_iff, cmpComponents_lt_iff as bs,
      List.map_cons, List.map_cons, List.cons_lt_cons_iff, Component.key_injective.eq_iff]

theorem cmp_lt_iff (p q : Path) : p.cmp q = .lt ↔ p.components.map Component.key < q.components.map Component.key :=
  cmpComponents_lt_iff _ _

theorem cmp_lt_trans {p q r : Path} (h : p.cmp q = .lt) (h' : q.cmp r = .lt) : p.cmp r = .lt := by
  rw [cmp_lt_iff] at h h' ⊢
  exact h.trans h'

theorem cmp_gt_iff (p q : Path) : p.cmp q = .gt ↔ q.cmp p = .lt := by
  have hne : ∀ p q : Path, p.components.map Component.key = q.components.map Component.key ↔ p.cmp q = .eq :=
    fun p q => by
      rw [(List.map_injective_iff.mpr Component.key_injective).eq_iff, cmp_eq_iff, beq_iff]
  cases h : p.cmp q with
  | lt =>
    simp only [reduceCtorEq, false_iff, cmp_lt_iff]
    exact ((cmp_lt_iff p q).mp h).asymm
  | eq =>
    simp only [reduceCtorEq, false_iff, cmp_lt_iff]
    rw [(hne p q).mpr h]
    exact lt_irrefl _
  | gt =>
    refine iff_of_true rfl ((cmp_lt_iff q p).mpr ?_)
    refine lt_of_le_of_ne (le_of_not_gt fun hlt => ?_) fun heq => ?_
    · rw [(cmp_lt_iff p q).mpr hlt] at h
      cases h
    · rw [(hne p q).mp heq.symm] at h
      cases h

theorem not_beq_of_cmp_lt {p q : Path} (h : p.cmp q = .lt) : (p == q) = false := by
  rw [← Bool.not_eq_true, ← cmp_eq_iff, h]
  simp

theorem cmp_congr_right {q r : Path} (h : q.cmp r = .eq) (p : Path) : p.cmp q = p.cmp r := by
  have hcomponents := (beq_iff q r).mp ((cmp_eq_iff q r).mp h)
  simp only [cmp, hcomponents]

end Path

/-! ## Maps -/

namespace PathMap

variable {α : Type}

def Sorted (m : PathMap α) : Prop := m.Pairwise fun a b => a.1.cmp b.1 = .lt

theorem Sorted.empty : Sorted ([] : PathMap α) := List.Pairwise.nil

theorem mem_insert {p : Path} {a : α} {m : PathMap α} {entry : Path × α} (h : entry ∈ insert p a m) :
    entry.1 = p ∨ ∃ old ∈ m, entry.1 = old.1 := by
  induction m with
  | nil =>
    rw [insert, List.mem_singleton] at h
    exact Or.inl (by rw [h])
  | cons first rest ih =>
    obtain ⟨q, b⟩ := first
    rw [insert] at h
    split at h
    · rcases List.mem_cons.mp h with rfl | h
      · exact Or.inl rfl
      · exact Or.inr ⟨entry, h, rfl⟩
    · rcases List.mem_cons.mp h with rfl | h
      · exact Or.inr ⟨(q, b), by simp, rfl⟩
      · exact Or.inr ⟨entry, List.mem_cons_of_mem _ h, rfl⟩
    · rcases List.mem_cons.mp h with rfl | h
      · exact Or.inr ⟨(q, b), by simp, rfl⟩
      · rcases ih h with h | ⟨old, hold, h⟩
        · exact Or.inl h
        · exact Or.inr ⟨old, List.mem_cons_of_mem _ hold, h⟩

theorem insert_sorted (p : Path) (a : α) {m : PathMap α} (h : Sorted m) : Sorted (insert p a m) := by
  induction m with
  | nil => exact List.pairwise_singleton _ _
  | cons first rest ih =>
    obtain ⟨q, b⟩ := first
    obtain ⟨hfirst, hrest⟩ := List.pairwise_cons.mp h
    rw [insert]
    split
    · rename_i hlt
      refine List.pairwise_cons.mpr ⟨fun entry hentry => ?_, h⟩
      rcases List.mem_cons.mp hentry with rfl | hentry
      · exact hlt
      · exact Path.cmp_lt_trans hlt (hfirst entry hentry)
    · exact List.pairwise_cons.mpr ⟨fun entry hentry => hfirst entry hentry, hrest⟩
    · rename_i hgt
      refine List.pairwise_cons.mpr ⟨fun entry hentry => ?_, ih hrest⟩
      show q.cmp entry.1 = .lt
      rcases mem_insert hentry with heq | ⟨old, hold, heq⟩
      · rw [heq]
        exact (Path.cmp_gt_iff p q).mp hgt
      · rw [heq]
        exact hfirst old hold

theorem alter_sorted (p : Path) (d : α) (f : α → α) {m : PathMap α} (h : Sorted m) : Sorted (m.alter p d f) :=
  insert_sorted p _ h

theorem mem_insert_of_fresh {p : Path} {a : α} {m : PathMap α} (h : ∀ old ∈ m, (p == old.1) = false)
    {entry : Path × α} : entry ∈ insert p a m ↔ entry = (p, a) ∨ entry ∈ m := by
  induction m with
  | nil => simp [insert]
  | cons first rest ih =>
    obtain ⟨q, b⟩ := first
    rw [insert]
    split
    · exact List.mem_cons
    · rename_i heq
      rw [Path.cmp_eq_iff, h (q, b) (by simp)] at heq
      cases heq
    · rw [List.mem_cons, List.mem_cons, ih fun old hold => h old (List.mem_cons_of_mem _ hold)]
      exact or_left_comm

theorem Sorted.eq_of_beq {m : PathMap α} (h : Sorted m) {a b : Path × α} (ha : a ∈ m) (hb : b ∈ m)
    (hab : (a.1 == b.1) = true) : a = b := by
  induction m with
  | nil => cases ha
  | cons first rest ih =>
    obtain ⟨hfirst, hrest⟩ := List.pairwise_cons.mp h
    have hdiffer : ∀ c ∈ rest, (first.1 == c.1) = false := fun c hc => Path.not_beq_of_cmp_lt (hfirst c hc)
    rcases List.mem_cons.mp ha with ha | ha <;> rcases List.mem_cons.mp hb with hb | hb
    · rw [ha, hb]
    · rw [ha, hdiffer b hb] at hab
      cases hab
    · rw [hb, Path.beq_comm, hdiffer a ha] at hab
      cases hab
    · exact ih hrest ha hb

theorem Sorted.find?_of_mem {m : PathMap α} (h : Sorted m) {p : Path} {a : α} (hmem : (p, a) ∈ m) :
    m.find? p = some a := by
  induction m with
  | nil => cases hmem
  | cons first rest ih =>
    obtain ⟨hfirst, hrest⟩ := List.pairwise_cons.mp h
    unfold find? at ih ⊢
    rw [List.lookup_cons]
    rcases List.mem_cons.mp hmem with rfl | hmem
    · simp
    · have hne : (p == first.1) = false := by
        rw [Path.beq_comm]
        exact Path.not_beq_of_cmp_lt (hfirst _ hmem)
      rw [hne]
      exact ih hrest hmem

theorem insert_comm_of_lt {p q : Path} (h : p.cmp q = .lt) (a b : α) (m : PathMap α) :
    insert p a (insert q b m) = insert q b (insert p a m) := by
  have hswap : q.cmp p = .gt := (Path.cmp_gt_iff q p).mpr h
  induction m with
  | nil => simp [insert, h, hswap]
  | cons first rest ih =>
    obtain ⟨r, c⟩ := first
    cases hp : p.cmp r with
    | lt => cases hq : q.cmp r <;> simp [insert, hp, hq, h, hswap]
    | eq =>
      have hq : q.cmp r = .gt := by rw [← Path.cmp_congr_right hp q, hswap]
      simp [insert, hp, hq]
    | gt =>
      have hq : q.cmp r = .gt := (Path.cmp_gt_iff q r).mpr (Path.cmp_lt_trans ((Path.cmp_gt_iff p r).mp hp) h)
      simp [insert, hp, hq, ih]

theorem insert_comm {p q : Path} (h : (p == q) = false) (a b : α) (m : PathMap α) :
    insert p a (insert q b m) = insert q b (insert p a m) := by
  cases hpq : p.cmp q with
  | lt => exact insert_comm_of_lt hpq a b m
  | eq =>
    rw [Path.cmp_eq_iff, h] at hpq
    cases hpq
  | gt => exact (insert_comm_of_lt ((Path.cmp_gt_iff p q).mp hpq) b a m).symm

theorem insert_of_last {p : Path} {a : α} {m : PathMap α} (h : ∀ entry ∈ m, entry.1.cmp p = .lt) :
    insert p a m = m ++ [(p, a)] := by
  induction m with
  | nil => rfl
  | cons first rest ih =>
    obtain ⟨q, b⟩ := first
    have hgt : p.cmp q = .gt := (Path.cmp_gt_iff p q).mpr (h (q, b) (by simp))
    rw [insert, hgt]
    exact congrArg _ (ih fun entry hentry => h entry (List.mem_cons_of_mem _ hentry))

theorem Sorted.ofList_eq {m : PathMap α} (h : Sorted m) : ofList m = m := by
  induction m using List.reverseRecOn with
  | nil => rfl
  | append_singleton m entry ih =>
    obtain ⟨hm, -, hlast⟩ := List.pairwise_append.mp h
    have hstep : ofList (m ++ [entry]) = insert entry.1 entry.2 (ofList m) := by
      rw [ofList, List.foldl_append]
      rfl
    rw [hstep, ih hm]
    exact insert_of_last fun old hold => hlast old hold entry (by simp)

theorem Sorted.ofList_perm {m : PathMap α} (h : Sorted m) {entries : List (Path × α)} (hperm : entries.Perm m) :
    ofList entries = m := by
  refine Eq.trans (hperm.foldl_eq' (fun a ha b hb m' => ?_) []) h.ofList_eq
  cases hab : a.1 == b.1 with
  | true => rw [h.eq_of_beq (hperm.mem_iff.mp ha) (hperm.mem_iff.mp hb) hab]
  | false => exact insert_comm (by rw [Path.beq_comm]; exact hab) b.2 a.2 m'

end PathMap

/-! ## Sets -/

namespace PathSet

def Sorted (s : PathSet) : Prop := s.Pairwise fun p q => p.cmp q = .lt

theorem insert_sorted (p : Path) {s : PathSet} (h : Sorted s) : Sorted (insert p s) := by
  induction s with
  | nil => exact List.pairwise_singleton _ _
  | cons q rest ih =>
    obtain ⟨hfirst, hrest⟩ := List.pairwise_cons.mp h
    rw [insert]
    split
    · rename_i hlt
      refine List.pairwise_cons.mpr ⟨fun r hr => ?_, h⟩
      rcases List.mem_cons.mp hr with rfl | hr
      · exact hlt
      · exact Path.cmp_lt_trans hlt (hfirst r hr)
    · exact h
    · rename_i hgt
      refine List.pairwise_cons.mpr ⟨fun r hr => ?_, ih hrest⟩
      rcases mem_insert hr with rfl | hr
      · exact (Path.cmp_gt_iff r q).mp hgt
      · exact hfirst r hr

theorem union_sorted {ps : List Path} : ∀ {s : PathSet}, Sorted s → Sorted (union s ps) := by
  induction ps with
  | nil => exact fun h => h
  | cons p ps ih => exact fun h => ih (insert_sorted p h)

theorem ofList_sorted (ps : List Path) : Sorted (ofList ps) := union_sorted List.Pairwise.nil

/-- A path that is written in one way only is in a union as it is. -/
theorem mem_union_of_unique {p : Path} {s : PathSet} {ps : List Path} (hp : p ∈ s ∨ p ∈ ps)
    (hunique : ∀ q, q ∈ s ∨ q ∈ ps → (p == q) = true → q = p) : p ∈ union s ps := by
  have hcontains : (union s ps).contains p = true := by
    have hself : (p == p) = true := by simp
    rw [contains_union, Bool.or_eq_true, List.contains_iff_exists_mem_beq, List.contains_iff_exists_mem_beq]
    exact hp.imp (fun h => ⟨p, h, hself⟩) fun h => ⟨p, h, hself⟩
  obtain ⟨q, hq, hpq⟩ := List.contains_iff_exists_mem_beq.mp hcontains
  rwa [hunique q (mem_union hq) hpq] at hq

theorem Sorted.nodup {s : PathSet} (h : Sorted s) : s.Nodup :=
  h.imp fun hlt heq => by
    have hself := Path.not_beq_of_cmp_lt hlt
    simp [heq] at hself

theorem ofList_congr {ps qs : List Path} (h : ∀ p, p ∈ ps ↔ p ∈ qs)
    (hunique : ∀ p ∈ ps, ∀ q ∈ ps, (p == q) = true → p = q) : ofList ps = ofList qs := by
  have hmem : ∀ {rs : List Path}, (∀ p, p ∈ ps ↔ p ∈ rs) → ∀ p, p ∈ ofList rs ↔ p ∈ ps := by
    refine fun {rs} hrs p => ⟨fun hp => (hrs p).mpr (mem_ofList hp), fun hp => ?_⟩
    refine mem_union_of_unique (Or.inr ((hrs p).mp hp)) fun q hq hpq => ?_
    exact (hunique p hp q ((hrs q).mpr (hq.resolve_left (by simp))) hpq).symm
  have hperm : (ofList ps).Perm (ofList qs) :=
    (List.perm_ext_iff_of_nodup (ofList_sorted ps).nodup (ofList_sorted qs).nodup).mpr fun p =>
      (hmem (fun _ => Iff.rfl) p).trans (hmem h p).symm
  refine hperm.eq_of_pairwise (fun p q _ _ hpq hqp => ?_) (ofList_sorted ps) (ofList_sorted qs)
  rw [← Path.cmp_gt_iff, hpq] at hqp
  cases hqp

theorem map_insert (p : Path) (s : PathSet) : (insert p s).map (·, ()) = PathMap.insert p () (s.map (·, ())) := by
  induction s with
  | nil => rfl
  | cons q rest ih =>
    rw [List.map_cons, insert, PathMap.insert]
    cases p.cmp q with
    | lt => rfl
    | eq => rfl
    | gt => exact congrArg _ ih

theorem insert_comm {p q : Path} (h : (p == q) = false) (s : PathSet) :
    insert p (insert q s) = insert q (insert p s) := by
  have hinjective : Function.Injective fun r : Path => (r, ()) := fun _ _ heq => congrArg Prod.fst heq
  refine List.map_injective_iff.mpr hinjective ?_
  rw [map_insert, map_insert, map_insert, map_insert, PathMap.insert_comm h]

theorem union_perm {ps qs : List Path} (h : ps.Perm qs) (hdiffer : ps.Pairwise fun p q => (p == q) = false)
    (s : PathSet) : union s ps = union s qs := by
  refine h.foldl_eq' (fun p hp q hq s => ?_) s
  by_cases heq : p = q
  · rw [heq]
  · have hsymm : Std.Symm fun p q : Path => (p == q) = false := ⟨fun p q hpq => by rw [Path.beq_comm]; exact hpq⟩
    exact insert_comm (hdiffer.forall hq hp (Ne.symm heq)) s

end PathSet

end Refactor
