import Refactor.Proofs.Path.Sorted
import Refactor.Reference.Update

/-!
# Moves in another order

The search for references asks moves for the new places of files and where a path ends up. Moves that agree on
both get the same edits, however they are listed.

* `Moves.Same` — moves that agree
* `PathMap.ofList_flatten_perm` — groups of different paths make the same map in every order
* `findSome?_perm` — a search that one member alone answers finds it in every order
* `References.planMoves_congr` — moves that agree get the same edits
-/

namespace Refactor

/-! ## Maps and searches -/

namespace PathMap

variable {α : Type}

theorem insert_foldl_comm {p : Path} {a : α} : ∀ {entries : List (Path × α)},
    (∀ entry ∈ entries, (p == entry.1) = false) → ∀ m : PathMap α,
    insert p a (entries.foldl (fun m entry => insert entry.1 entry.2 m) m) =
      entries.foldl (fun m entry => insert entry.1 entry.2 m) (insert p a m)
  | [], _, _ => rfl
  | entry :: rest, h, m => by
    rw [List.foldl_cons, List.foldl_cons, insert_foldl_comm fun e he => h e (List.mem_cons_of_mem _ he),
      insert_comm (h entry (by simp))]

theorem foldl_foldl_comm {entries : List (Path × α)} : ∀ {others : List (Path × α)},
    (∀ entry ∈ others, ∀ entry' ∈ entries, (entry.1 == entry'.1) = false) → ∀ m : PathMap α,
    others.foldl (fun m entry => insert entry.1 entry.2 m) (entries.foldl (fun m entry => insert entry.1 entry.2 m) m) =
      entries.foldl (fun m entry => insert entry.1 entry.2 m) (others.foldl (fun m entry => insert entry.1 entry.2 m) m)
  | [], _, _ => rfl
  | entry :: rest, h, m => by
    rw [List.foldl_cons, List.foldl_cons, insert_foldl_comm (h entry (by simp)),
      foldl_foldl_comm fun e he => h e (List.mem_cons_of_mem _ he)]

/-- Groups of entries of different paths make the same map in every order. -/
theorem ofList_flatten_perm {groups groups' : List (List (Path × α))} (h : groups.Perm groups')
    (hdiffer : groups.Pairwise fun g g' => ∀ entry ∈ g, ∀ entry' ∈ g', (entry.1 == entry'.1) = false) :
    ofList groups.flatten = ofList groups'.flatten := by
  unfold ofList
  rw [List.foldl_flatten, List.foldl_flatten]
  refine h.foldl_eq' (fun g hg g' hg' m => ?_) []
  by_cases heq : g = g'
  · rw [heq]
  · have hsymm : Std.Symm fun g g' : List (Path × α) =>
        ∀ entry ∈ g, ∀ entry' ∈ g', (entry.1 == entry'.1) = false :=
      ⟨fun g g' hgg' entry hentry entry' hentry' => by rw [Path.beq_comm]; exact hgg' entry' hentry' entry hentry⟩
    exact foldl_foldl_comm (hdiffer.forall hg' hg (Ne.symm heq)) m

end PathMap

theorem findSome?_perm {α β : Type} {f : α → Option β} {l l' : List α} (h : l.Perm l')
    (hone : l.Pairwise fun a b => f a = none ∨ f b = none) : l.findSome? f = l'.findSome? f := by
  induction h with
  | nil => rfl
  | cons a _ ih =>
    obtain ⟨_, hrest⟩ := List.pairwise_cons.mp hone
    rw [List.findSome?_cons, List.findSome?_cons, ih hrest]
  | swap a b l =>
    have hab : f b = none ∨ f a = none := (List.pairwise_cons.mp hone).1 a (by simp)
    simp only [List.findSome?_cons]
    rcases hab with hb | ha
    · rw [hb]
    · rw [ha]
  | trans hfirst _ ih ih' =>
    exact (ih hone).trans (ih' (hfirst.pairwise hone fun hab => hab.symm))

/-! ## Moves that agree -/

/-- Moves of the same files that take every path to the same place. -/
structure Moves.Same (m m' : Moves) : Prop where
  files : m.files = m'.files
  newLocation : ∀ p, m.newLocation? p = m'.newLocation? p

namespace References

variable {r : References} {t : Tree} {known : KnownFiles} {m m' : Moves}

theorem updateSpecifier_congr (h : m.Same m') (old new : Path) (specifier : String) :
    r.updateSpecifier known m old new specifier = r.updateSpecifier known m' old new specifier := by
  simp only [updateSpecifier, h.newLocation]

theorem planRef_congr (h : m.Same m') (new : Path) (generic : Bool) (o : FileOutcome) (ref : ImportRef) (location : Span) :
    r.planRef known m new generic o ref location = r.planRef known m' new generic o ref location := by
  simp only [planRef, updateSpecifier_congr h, h.newLocation]

theorem planRefs_congr (h : m.Same m') (new : Path) (generic : Bool) (refs : List ImportRef) (seen : List Span)
    (o : FileOutcome) : r.planRefs known m new generic refs seen o = r.planRefs known m' new generic refs seen o := by
  induction refs generalizing seen o with
  | nil => rfl
  | cons ref rest ih =>
    cases hlocation : ref.location with
    | none => simp only [planRefs, hlocation, ih]
    | some location => simp only [planRefs, hlocation, ih, planRef_congr h]

theorem planFile_congr (h : m.Same m') (file : Path) : r.planFile t known m file = r.planFile t known m' file := by
  simp only [planFile, h.newLocation, h.files, planRefs_congr h]

theorem collect_congr (h : m.Same m') (acc : ReferenceEdits) (o : FileOutcome) : collect m acc o = collect m' acc o := by
  have hmoved : m.isMoved o.path = m'.isMoved o.path := by rw [Moves.isMoved, h.files, Moves.isMoved]
  unfold collect
  rw [hmoved]

/-- Moves that agree get the same edits. -/
theorem planMoves_congr (h : m.Same m') : r.planMoves t m = r.planMoves t m' := by
  have hfile : ∀ known, r.planFile t known m = r.planFile t known m' := fun known => funext (planFile_congr h)
  have hcollect : collect m = collect m' := funext fun acc => funext (collect_congr h acc)
  simp only [planMoves, hfile, hcollect]

end References

end Refactor
