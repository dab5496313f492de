import Mathlib.Data.List.Induction
import Refactor.Proofs.Path.Sorted
import Refactor.Proofs.Reference.Alike

/-!
# The two indexes of the cache

One index of the cache has the targets of every file, the other one the importers of every target. The second one is
kept up call by call: a new entry of a file takes back the links of the old one, and an invalidated path loses the links
from it and the links to it. The files behind the links to it keep their entries, so until such a file is stored again
the second index lacks a link that the first one has; nothing else sets the two apart.

* `CacheCall`, `ImportCache.after` — calls, and the cache after them
* `ImportCache.removeReverse_importers`, `ImportCache.contains_link` — links taken back and links added
* `ImportCache.Severed` — a target was invalidated after its importer was stored
* `ImportCache.importersOf_after` — the importers after any calls
-/

namespace Refactor

/-! ## Calls -/

inductive CacheCall where
  | insert (file : Path) (info : FileImportInfo)
  | invalidate (paths : List Path)
  | clear

namespace CacheCall

def stores (file : Path) : CacheCall → Bool
  | .insert p _ => file == p
  | _ => false

def drops (target : Path) : CacheCall → Bool
  | .invalidate paths => paths.contains target
  | _ => false

end CacheCall

namespace ImportCache

def call (c : ImportCache) : CacheCall → ImportCache
  | .insert file info => c.insert file info
  | .invalidate paths => c.invalidate paths
  | .clear => c.clear

def after (c : ImportCache) (calls : List CacheCall) : ImportCache := calls.foldl call c

/-- A target was invalidated, and the file that refers to it not stored again. -/
def Severed (calls : List CacheCall) (file target : Path) : Prop :=
  ∃ before call later, calls = before ++ call :: later ∧ call.drops target = true ∧
    ∀ call ∈ later, call.stores file = false

variable {c : ImportCache} {reverse : PathMap PathSet} {file target t f : Path}

theorem severed_concat (calls : List CacheCall) (call : CacheCall) (file target : Path) :
    Severed (calls ++ [call]) file target ↔
      call.drops target = true ∨ call.stores file = false ∧ Severed calls file target := by
  constructor
  · rintro ⟨before, severing, later, heq, hdrops, hlater⟩
    rcases List.eq_nil_or_concat' later with rfl | ⟨later, last, rfl⟩
    · obtain ⟨-, hlast⟩ := List.append_inj' heq rfl
      obtain rfl := (List.cons.inj hlast).1
      exact Or.inl hdrops
    · rw [← List.cons_append, ← List.append_assoc] at heq
      obtain ⟨rfl, hlast⟩ := List.append_inj' heq rfl
      obtain rfl := (List.cons.inj hlast).1
      exact Or.inr ⟨hlater call (by simp), before, severing, later, rfl, hdrops, fun c hc => hlater c (by simp [hc])⟩
  · rintro (hdrops | ⟨hstores, before, severing, later, rfl, hdrops, hlater⟩)
    · exact ⟨calls, call, [], rfl, hdrops, by simp⟩
    · refine ⟨before, severing, later ++ [call], by simp, hdrops, fun c hc => ?_⟩
      rcases List.mem_append.mp hc with hc | hc
      · exact hlater c hc
      · rw [List.mem_singleton.mp hc]
        exact hstores

/-! ## Links -/

def importersIn (reverse : PathMap PathSet) (target : Path) : PathSet := (reverse.find? target).getD []

def targetsOf (c : ImportCache) (file : Path) : List Path := ((c.forward.find? file).map (·.targets)).getD []

theorem contains_targetsOf : (c.targetsOf file).contains target = true ↔
    ∃ info, c.forward.find? file = some info ∧ info.targets.contains target = true := by
  rw [targetsOf]
  cases h : c.forward.find? file <;> simp

theorem contains_without (s : PathSet) (file f : Path) :
    (s.filter fun p => !(p == file)).contains f = (s.contains f && !(f == file)) := by
  induction s with
  | nil => simp
  | cons p s ih =>
    have hcongr : (f == p) = true → (p == file) = (f == file) := fun h => by
      rw [Bool.eq_iff_iff, Path.beq_iff, Path.beq_iff, (Path.beq_iff f p).mp h]
    rw [List.filter_cons, List.contains_cons]
    cases hf : f == p with
    | false => split <;> simp [hf, ih]
    | true =>
      rw [hcongr hf]
      cases hfile : f == file with
      | false => simp [hf]
      | true => simp [ih, hfile]

/-- Taking back one link. -/
theorem importersIn_unlink (reverse : PathMap PathSet) (file target t : Path) :
    importersIn (unlink reverse file target) t =
      if t == target then (importersIn reverse t).filter (fun p => !(p == file)) else importersIn reverse t := by
  have hsame : (t == target) = true → reverse.find? t = reverse.find? target :=
    fun h => PathMap.find?_congr ((Path.beq_iff _ _).mp h) _
  rw [unlink]
  split
  next hnone =>
    split
    next ht => rw [importersIn, hsame ht, hnone]; rfl
    next => rfl
  next importers hsome =>
    dsimp only
    split
    next hempty =>
      rw [importersIn, importersIn, PathMap.find?_erase]
      split
      next ht => rw [hsame ht, hsome]; exact (List.isEmpty_iff.mp hempty).symm
      next => rfl
    next =>
      rw [importersIn, importersIn, PathMap.find?_insert]
      split
      next ht => rw [hsame ht, hsome]; rfl
      next => rfl

theorem importersIn_foldl_unlink (file t : Path) : ∀ (targets : List Path) (reverse : PathMap PathSet),
    importersIn (targets.foldl (fun r t => unlink r file t) reverse) t =
      if targets.contains t then (importersIn reverse t).filter (fun p => !(p == file)) else importersIn reverse t
  | [], _ => rfl
  | target :: targets, reverse => by
    rw [List.foldl_cons, importersIn_foldl_unlink, importersIn_unlink, List.contains_cons]
    cases t == target <;> cases targets.contains t <;> simp

/-- A file that is taken out of the importers of its targets has no links left to them. -/
theorem removeReverse_importers (c : ImportCache) (file t : Path) :
    (c.removeReverse file).importersOf t =
      if (c.targetsOf file).contains t then (c.importersOf t).filter (fun p => !(p == file)) else c.importersOf t := by
  rw [removeReverse, targetsOf]
  split
  next hnone => simp [hnone]
  next old hsome =>
    rw [hsome]
    exact importersIn_foldl_unlink file t old.targets c.reverse

theorem contains_alter (reverse : PathMap PathSet) (file target t f : Path) :
    (importersIn (reverse.alter target [] (PathSet.insert file)) t).contains f =
      ((t == target && f == file) || (importersIn reverse t).contains f) := by
  rw [importersIn, importersIn, PathMap.alter, PathMap.find?_insert]
  split
  next ht =>
    rw [PathMap.find?_congr ((Path.beq_iff _ _).mp ht), Option.getD_some, PathSet.contains_insert, ht, Bool.true_and]
  next ht => simp [ht]

/-- Links from a file to its targets are added, and the others stay. -/
theorem contains_link (file t f : Path) : ∀ (targets : List Path) (reverse : PathMap PathSet),
    (importersIn (targets.foldl (fun r t => r.alter t [] (PathSet.insert file)) reverse) t).contains f =
      ((targets.contains t && f == file) || (importersIn reverse t).contains f)
  | [], _ => by simp
  | target :: targets, reverse => by
    rw [List.foldl_cons, contains_link, contains_alter, List.contains_cons]
    cases t == target <;> cases targets.contains t <;> cases f == file <;> simp

theorem sorted_link {file : Path} : ∀ (targets : List Path) {reverse : PathMap PathSet},
    (∀ t, PathSet.Sorted (importersIn reverse t)) →
    ∀ t, PathSet.Sorted (importersIn (targets.foldl (fun r t => r.alter t [] (PathSet.insert file)) reverse) t)
  | [], _, h => h
  | target :: targets, reverse, h => sorted_link targets fun t => by
    show PathSet.Sorted (importersIn (reverse.alter target [] (PathSet.insert file)) t)
    rw [importersIn, PathMap.alter, PathMap.find?_insert]
    split
    · exact PathSet.insert_sorted file (h target)
    · exact h t

/-! ## What one call keeps -/

/-- The two indexes agree, but for links that were cut off. -/
structure Agrees (c : ImportCache) (severed : Path → Path → Prop) : Prop where
  enabled : c.enabled = true
  sorted : ∀ t, PathSet.Sorted (c.importersOf t)
  links : ∀ f t, (c.importersOf t).contains f = true ↔ (c.targetsOf f).contains t = true ∧ ¬ severed f t

variable {severed : Path → Path → Prop}

theorem Agrees.congr {severed' : Path → Path → Prop} (h : c.Agrees severed) (hiff : ∀ f t, severed f t ↔ severed' f t) :
    c.Agrees severed' :=
  ⟨h.enabled, h.sorted, fun f t => by rw [h.links, hiff]⟩

theorem Agrees.sorted_removeReverse (h : c.Agrees severed) (file t : Path) :
    PathSet.Sorted ((c.removeReverse file).importersOf t) := by
  rw [removeReverse_importers]
  split
  · exact List.Pairwise.filter _ (h.sorted t)
  · exact h.sorted t

theorem Agrees.contains_removeReverse (h : c.Agrees severed) (file f t : Path) :
    ((c.removeReverse file).importersOf t).contains f = ((c.importersOf t).contains f && !(f == file)) := by
  rw [removeReverse_importers]
  split
  next => exact contains_without _ _ _
  next ht =>
    cases hf : f == file with
    | false => simp
    | true =>
      -- no entry, no link
      have hsame : c.targetsOf f = c.targetsOf file := by
        rw [targetsOf, targetsOf, PathMap.find?_congr ((Path.beq_iff _ _).mp hf)]
      have hnot : ¬(c.importersOf t).contains f = true := fun hlink => ht (hsame ▸ ((h.links f t).mp hlink).1)
      simpa using hnot

theorem Agrees.insert (h : c.Agrees severed) (file : Path) (info : FileImportInfo) :
    (c.insert file info).Agrees fun f t => (f == file) = false ∧ severed f t := by
  have hinsert : c.insert file info = { c.removeReverse file with
      reverse := info.targets.foldl (fun r t => r.alter t [] (PathSet.insert file)) (c.removeReverse file).reverse
      forward := (c.removeReverse file).forward.insert file info } := by
    rw [ImportCache.insert, h.enabled]
    rfl
  rw [hinsert]
  refine ⟨?_, sorted_link _ (h.sorted_removeReverse file), fun f t => ?_⟩
  · rw [← h.enabled]
    exact removeReverse_enabled c file
  show (importersIn _ t).contains f = true ↔ _
  have hold : (importersIn (c.removeReverse file).reverse t).contains f = _ := h.contains_removeReverse file f t
  rw [contains_link, hold, targetsOf]
  simp only [removeReverse_forward, PathMap.find?_insert]
  cases hf : f == file with
  | true => simp
  | false =>
    have hlinks := h.links f t
    rw [targetsOf] at hlinks
    simpa [hf] using hlinks

theorem Agrees.forget (h : c.Agrees severed) (p : Path) :
    (c.forget p).Agrees fun f t => (t == p) = true ∨ severed f t := by
  have himporters : ∀ t, (c.forget p).importersOf t =
      if t == p then [] else (c.removeReverse p).importersOf t := fun t => by
    rw [importersOf, ImportCache.forget]
    simp only [PathMap.find?_erase]
    split <;> rfl
  refine ⟨(removeReverse_enabled c p).trans h.enabled, fun t => ?_, fun f t => ?_⟩
  · rw [himporters]
    split
    · exact List.Pairwise.nil
    · exact h.sorted_removeReverse p t
  · have hlinks := h.links f t
    rw [himporters, targetsOf, ImportCache.forget]
    simp only [PathMap.find?_erase, removeReverse_forward]
    cases ht : t == p with
    | true => simp
    | false =>
      rw [if_neg Bool.false_ne_true, h.contains_removeReverse p f t]
      cases hf : f == p with
      | true => simp
      | false => simpa [targetsOf] using hlinks

theorem Agrees.invalidate : ∀ (paths : List Path) {c : ImportCache} {severed : Path → Path → Prop}, c.Agrees severed →
    (c.invalidate paths).Agrees fun f t => paths.contains t = true ∨ severed f t
  | [], _, _, h => h.congr fun f t => by simp
  | p :: paths, _, _, h => (Agrees.invalidate paths (h.forget p)).congr fun f t => by
    rw [List.contains_cons, Bool.or_eq_true, or_left_comm, or_assoc]

theorem Agrees.clear (h : c.Agrees severed) : c.clear.Agrees severed :=
  ⟨h.enabled, fun _ => List.Pairwise.nil, fun f t => by simp [importersOf, ImportCache.clear, targetsOf, PathMap.find?]⟩

theorem Agrees.call {calls : List CacheCall} (h : c.Agrees (Severed calls)) (call : CacheCall) :
    (c.call call).Agrees (Severed (calls ++ [call])) := by
  cases call with
  | insert file info =>
    exact (h.insert file info).congr fun f t => by simp [severed_concat, CacheCall.drops, CacheCall.stores]
  | invalidate paths =>
    exact (Agrees.invalidate paths h).congr fun f t => by simp [severed_concat, CacheCall.drops, CacheCall.stores]
  | clear => exact h.clear.congr fun f t => by simp [severed_concat, CacheCall.drops, CacheCall.stores]

/-! ## Runs -/

theorem agrees_after (calls : List CacheCall) : (({} : ImportCache).after calls).Agrees (Severed calls) := by
  induction calls using List.reverseRecOn with
  | nil => exact ⟨rfl, fun _ => List.Pairwise.nil, fun f t => by simp [after, importersOf, targetsOf, PathMap.find?]⟩
  | append_singleton calls call ih =>
    rw [after, List.foldl_append]
    exact ih.call call

/-- After any calls the importers of a path are sorted, and they are the files with an entry that has the path among its
targets, but for those that were not stored again after the path was invalidated. -/
theorem importersOf_after (calls : List CacheCall) (target : Path) :
    let c := ({} : ImportCache).after calls
    PathSet.Sorted (c.importersOf target) ∧
    ∀ file, (c.importersOf target).contains file = true ↔
      (∃ info, c.forward.find? file = some info ∧ info.targets.contains target = true) ∧
        ¬ Severed calls file target := by
  intro c
  have hagrees := agrees_after calls
  refine ⟨hagrees.sorted target, fun file => ?_⟩
  rw [hagrees.links, contains_targetsOf]

/-- The importer of an invalidated path keeps its entry, but not its link. -/
theorem importersOf_after_invalidate :
    ¬ ∀ (calls : List CacheCall) (target file : Path),
      let c := ({} : ImportCache).after calls
      (c.importersOf target).contains file = true ↔
        ∃ info, c.forward.find? file = some info ∧ info.targets.contains target = true := by
  intro h
  let info : FileImportInfo := ⟨"f", [], [⟨"/p/a.ts"⟩]⟩
  have hlinked := (h [.insert ⟨"/p/b.ts"⟩ info, .invalidate [⟨"/p/a.ts"⟩]] ⟨"/p/a.ts"⟩ ⟨"/p/b.ts"⟩).mpr
    ⟨info, rfl, rfl⟩
  revert hlinked
  decide

end ImportCache

end Refactor
