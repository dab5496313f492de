import Refactor.Reference.Update
import Refactor.Proofs.Disk.Locate
import Refactor.Proofs.Edit.Merge
import Refactor.Proofs.Steps

/-!
# What planned edits are of

Edits of references are of files of the project, and merging keeps to the paths that were edited.

* `WorkspaceEdit.Only` — all text edits are of paths with a property
* `WorkspaceEdit.merge_keeps` — a merged edit has the same operations and edits no other path
* `Tree.projectFiles_places` — files of a project stand in its root
* `References.planMoves_edits` — the edits of moves are of files of the project
-/

namespace Refactor

open Tree (pathOf placeOf)
open Path (IsName)

/-! ## Edited paths -/

def WorkspaceEdit.Only (P : Path → Prop) (w : WorkspaceEdit) : Prop := ∀ entry ∈ w.changes, P entry.1

namespace WorkspaceEdit

variable {P : Path → Prop} {w w' : WorkspaceEdit}

theorem Only.empty : Only P {} := by simp [Only]

theorem Only.mono {P' : Path → Prop} (h : w.Only P) (hP : ∀ p, P p → P' p) : w.Only P' := fun entry hentry =>
  hP _ (h entry hentry)

theorem Only.alter {m : PathMap (List TextEdit)} (h : ∀ entry ∈ m, P entry.1) {p : Path} (hp : P p)
    (d : List TextEdit) (f : List TextEdit → List TextEdit) : ∀ entry ∈ m.alter p d f, P entry.1 := by
  intro entry hentry
  rcases PathMap.mem_insert hentry with heq | ⟨old, hold, heq⟩
  · exact heq ▸ hp
  · exact heq ▸ h old hold

theorem Only.addEdits (h : w.Only P) {p : Path} (hp : P p) (es : List TextEdit) : (w.addEdits p es).Only P :=
  Only.alter (m := w.changes) h hp [] (· ++ es)

theorem Only.editedFiles (h : w.Only P) : ∀ p ∈ w.editedFiles, P p := by
  intro p hp
  obtain ⟨entry, hentry, rfl⟩ := List.mem_map.mp hp
  exact h entry (List.mem_of_mem_filter hentry)

/-- The union with an edit brings in its paths only. -/
theorem Only.union (h : w.Only P) (h' : w'.Only P) : (w.union w').Only P := by
  have hfold : ∀ {changes m : PathMap (List TextEdit)}, (∀ entry ∈ changes, P entry.1) → (∀ entry ∈ m, P entry.1) →
      ∀ entry ∈ changes.foldl (fun m file => m.alter file.1 [] (addDistinct · file.2)) m, P entry.1 := by
    intro changes
    induction changes with
    | nil => exact fun _ hm => hm
    | cons first rest ih =>
      intro m hchanges hm
      refine ih (fun entry hentry => hchanges entry (List.mem_cons_of_mem _ hentry)) ?_
      exact Only.alter hm (hchanges first (by simp)) _ _
  exact hfold h' h

theorem merge_keeps (h : merge [w] = .ok w') : w'.operations = w.operations ∧ (w.Only P → w'.Only P) := by
  obtain ⟨rfl, _⟩ := merge_eq_ok_iff_combined.mp h
  refine ⟨by simp [combined, WorkspaceEdit.union], fun honly entry hentry => ?_⟩
  obtain ⟨first, hfirst, rfl⟩ := List.mem_map.mp (List.mem_of_mem_filter hentry)
  exact (Only.empty.union honly) first hfirst

theorem addOperations_eq {α : Type} (f : α → FileOperation) (l : List α) (w : WorkspaceEdit) :
    l.foldl (fun w a => w.addOperation (f a)) w = { w with operations := w.operations ++ l.map f } := by
  induction l generalizing w with
  | nil => simp
  | cons a l ih =>
    rw [List.foldl_cons, ih]
    simp [addOperation]

end WorkspaceEdit

/-! ## Files of a project -/

/-- Files of a project stand in its root. -/
theorem Tree.projectFiles_places {t : Tree} (ht : t.Named) (ignored : List String) {root : Place}
    (hroot : ∀ s ∈ root, IsName s) {p : Path} (hp : p ∈ t.projectFiles ignored (pathOf root)) :
    ∃ place, (∀ s ∈ place, IsName s) ∧ root <+: place ∧ p = pathOf place := by
  unfold projectFiles at hp
  split at hp
  · rename_i place hentry
    obtain ⟨⟨names, e⟩, hbelow, hsome⟩ := List.mem_filterMap.mp hp
    obtain ⟨⟨q, f⟩, hq, hdrop⟩ := List.mem_filterMap.mp hbelow
    dsimp only at hsome hdrop
    split_ifs at hdrop with hcond
    cases hdrop
    have hnames : ∀ s ∈ q.drop place.length, IsName s := fun s hs =>
      ht q e hq s (List.mem_of_mem_drop hs)
    have hunder : under (pathOf root) (q.drop place.length) = p := by
      cases e with
      | file b =>
        dsimp only at hsome
        split_ifs at hsome
        exact Option.some.inj hsome
      | dir => cases hsome
      | link target => cases hsome
    refine ⟨root ++ q.drop place.length, fun s hs => ?_, List.prefix_append _ _, ?_⟩
    · rcases List.mem_append.mp hs with hs | hs
      · exact hroot s hs
      · exact hnames s hs
    · rw [← hunder, Path.under_pathOf (fun s hs => (hroot s hs).1) fun s hs => (hnames s hs).1]
  · rw [List.mem_singleton] at hp
    exact ⟨root, hroot, List.prefix_rfl, hp⟩
  · cases hp

/-! ## Edits of references -/

namespace References

variable {r : References} {t : Tree} {known : KnownFiles} {moves : Moves}

theorem planRef_path (new : Path) (generic : Bool) (o : FileOutcome) (ref : ImportRef) (location : Span) :
    (r.planRef known moves new generic o ref location).path = o.path := by
  unfold planRef
  dsimp only
  split
  · rfl
  · rfl
  · split <;> rfl
  · split <;> rfl

theorem planRefs_path (new : Path) (generic : Bool) (refs : List ImportRef) (seen : List Span) (o : FileOutcome) :
    (r.planRefs known moves new generic refs seen o).path = o.path := by
  induction refs generalizing seen o with
  | nil => rfl
  | cons ref rest ih =>
    rw [planRefs]
    split
    · exact ih _ _
    · split
      · exact ih _ _
      · rw [ih, planRef_path]

theorem planFile_path (file : Path) :
    Ends (fun _ => True) (r.planFile t known moves file) (fun o _ => ∀ outcome ∈ o, outcome.path = file) := by
  unfold planFile
  refine Ends.bind (Q := fun _ _ => True) (fun _ _ => trivial) fun scanned => ?_
  cases scanned with
  | none => exact Ends.pure _ fun _ _ => by simp
  | some scanned =>
    refine Ends.pure _ fun _ _ outcome houtcome => ?_
    rw [Option.mem_def, Option.ite_none_left_eq_some, Option.some.injEq] at houtcome
    obtain ⟨_, rfl⟩ := houtcome
    cases scanned with
    | refs refs generic => exact planRefs_path _ _ _ _ _
    | whole content move => rfl

theorem collect_keeps {P : Path → Prop} {acc : ReferenceEdits} {o : FileOutcome}
    (h : acc.edit.operations = [] ∧ acc.edit.Only P) (ho : P o.path) :
    (collect moves acc o).edit.operations = [] ∧ (collect moves acc o).edit.Only P := by
  unfold collect
  dsimp only
  split_ifs
  · exact h
  · exact ⟨h.1, h.2.addEdits ho _⟩

theorem planMoves_edits : Ends (fun _ => True) (r.planMoves t moves) (fun found _ =>
    found.edit.operations = [] ∧ found.edit.Only (· ∈ r.projectFiles t)) := by
  unfold planMoves
  refine (Ends.mapM (P := fun _ => True) (C := fun file (o : Option FileOutcome) => ∀ outcome ∈ o, outcome.path = file)
    (fun file => (planFile_path file).conseq (fun _ h => h) fun _ _ h => ⟨trivial, h⟩) _).bind
    fun outcomes => Ends.pure _ fun _ ⟨_, houtcomes⟩ => ?_
  have hfound : ∀ o ∈ outcomes.filterMap id, o.path ∈ r.projectFiles t := by
    intro o ho
    obtain ⟨_, hmem, rfl⟩ := List.mem_filterMap.mp ho
    obtain ⟨file, hfile, hpath⟩ := houtcomes _ hmem
    exact hpath o rfl ▸ hfile
  have hfold : ∀ {l : List FileOutcome} {acc : ReferenceEdits}, (∀ o ∈ l, o.path ∈ r.projectFiles t) →
      acc.edit.operations = [] ∧ acc.edit.Only (· ∈ r.projectFiles t) →
      (l.foldl (collect moves) acc).edit.operations = [] ∧
        (l.foldl (collect moves) acc).edit.Only (· ∈ r.projectFiles t) := by
    intro l
    induction l with
    | nil => exact fun _ h => h
    | cons o l ih =>
      exact fun hl h => ih (fun o' ho' => hl o' (List.mem_cons_of_mem _ ho')) (collect_keeps h (hl o (by simp)))
  exact hfold hfound ⟨rfl, WorkspaceEdit.Only.empty⟩

end References

end Refactor
