import Refactor.Proofs.Apply.Targets
import Refactor.Proofs.Planning.Records

/-!
# All or nothing

An apply that fails after the writing has begun, on a file system that from then on fails without a reason no more, says
that it put everything back; the tree is the one of before exactly when no directory was made in the place of a file or
of an empty directory.

* `Workspace.attempt_sound` — wherever the writing or the check fails, the records account for the tree
* `Workspace.apply_rolled_back` — what a failed apply leaves
-/

set_option linter.unusedSectionVars false

namespace Refactor

open Tree (pathOf placeOf)

variable {σ : Type} [TreeBacked σ]

/-! ## Where the writing starts and ends -/

theorem Plan.sourceDirs_ends (plan : Plan) (root : Path) (t : Tree) (C : Prop) :
    Ends (fun s : σ => TreeBacked.tree s = t ∧ (C → TreeBacked.steady s)) (plan.sourceDirs root)
      (fun sources s => (TreeBacked.tree s = t ∧ (C → TreeBacked.steady s)) ∧
        sources = plan.dirCandidates.filter fun c => t.isDir c.path && !(c.path == root)) := by
  refine Ends.filterM (fun c => ?_) _
  rintro s ⟨rfl, hcalm⟩
  obtain ⟨htree, hsteady⟩ := TreeBacked.looks (FileSystem.isDir_looks c.path s)
  show (TreeBacked.tree ((FileSystem.isDir c.path).run s).2 = _ ∧ _) ∧ (((FileSystem.isDir c.path).run s).1 && _) = _
  rw [TreeBacked.isDir_answer]
  exact ⟨⟨htree, fun h => hsteady (hcalm h)⟩, rfl⟩

/-! ## Planned paths -/

theorem Planning.Planned.grounded {env : Planner} {root : Place} {plan : Plan} (henv : env.Rooted root)
    (h : Planning.Planned env root plan) : plan.Grounded where
  edited := h.edited.editedFiles
  operations := (h.arranged.straight henv.wellFormed henv.below).1
  dirs := (h.arranged.straight henv.wellFormed henv.below).2

namespace Workspace

/-- The check leaves the tree alone. -/
def QuietHook (w : Workspace σ) : Prop :=
  ∀ hook ∈ w.hook, ∀ s, TreeBacked.tree ((hook w.root).run s).2 = TreeBacked.tree s

variable {plan : Plan} {w w₁ : Workspace σ} {snapshots : Snapshots} {started : ApplyResult}

/-- What the writing starts with. -/
def outset (started : ApplyResult) (heeds : Bool) (disk : σ) : Transaction σ :=
  { disk, heeds, result := started.enter .writing }

/-- The directories in the tree that a plan moves or deletes as a whole. -/
def wholeDirs (w : Workspace σ) (plan : Plan) : List SourceDir :=
  plan.dirCandidates.filter fun c => (TreeBacked.tree w.disk).isDir c.path && !(c.path == w.root)

theorem writing_eq (w : Workspace σ) (plan : Plan) (snapshots : Snapshots) (started : ApplyResult) (heeds : Bool) :
    ∃ disk : σ, TreeBacked.tree disk = TreeBacked.tree w.disk ∧ (TreeBacked.steady w.disk → TreeBacked.steady disk) ∧
      w.writing plan snapshots started heeds =
        (Transaction.writeAll plan snapshots (w.wholeDirs plan)).run.run (outset started heeds disk) := by
  obtain ⟨⟨htree, hsteady⟩, hsources⟩ :=
    plan.sourceDirs_ends w.root (TreeBacked.tree w.disk) (TreeBacked.steady w.disk) w.disk ⟨rfl, id⟩
  refine ⟨((plan.sourceDirs w.root).run w.disk).2, htree, hsteady, ?_⟩
  unfold wholeDirs
  rw [← hsources]
  rfl

theorem writing_sound {t₀ : Tree} {G : Written → Prop} (h : plan.edit.Admitted t₀ G) (h₀ : t₀.WellFormed)
    (hdirs : ∀ c ∈ plan.dirCandidates, c.Straight) (htree : TreeBacked.tree w.disk = t₀) (snapshots : Snapshots)
    (started : ApplyResult) (heeds : Bool) : Transaction.Sound t₀ G (w.writing plan snapshots started heeds).2.moment := by
  obtain ⟨disk, hstart, _, hwriting⟩ := writing_eq w plan snapshots started heeds
  rw [hwriting]
  have hsources : ∀ c ∈ w.wholeDirs plan, c.Straight := fun c hc => hdirs c (List.mem_of_mem_filter hc)
  have hwrite := Transaction.writeAll_sound (σ := σ) (C := False) h h₀ snapshots hsources heeds (outset started heeds disk)
    ⟨by rw [← htree, ← hstart]; rfl, False.elim⟩
  generalize (Transaction.writeAll (σ := σ) plan snapshots (w.wholeDirs plan)).run.run _ = out at hwrite ⊢
  obtain ⟨e | _, tx⟩ := out
  · exact hwrite
  · exact hwrite.1

theorem QuietHook.begun (hquiet : w.QuietHook) (h : Begun plan w snapshots w₁) : w₁.QuietHook := by
  obtain ⟨hroot, _, hhook⟩ := h.unharmed.1
  unfold QuietHook
  rw [hhook, hroot]
  exact hquiet

theorem verify_moment (hquiet : w.QuietHook) (tx : Transaction σ) : (w.verify tx).1.moment = tx.moment := by
  unfold verify
  split
  · rfl
  · rename_i hook hhook
    have htree : ∀ tx : Transaction σ, ((Transaction.ask (hook w.root)).run tx).2.moment = tx.moment := by
      intro tx
      show Transaction.Moment.mk (TreeBacked.tree ((hook w.root).run tx.disk).2) _ _ _ _ = _
      rw [hquiet hook hhook]
      rfl
    have hverified := htree { tx with result := tx.result.enter .verifying }
    dsimp only
    generalize (Transaction.ask (hook w.root)).run _ = out at hverified ⊢
    obtain ⟨e | v, tx'⟩ := out
    · exact hverified
    · dsimp only
      split <;> exact hverified

/-- Wherever the writing or the check fails, the records account for the tree. -/
theorem attempt_sound {t₀ : Tree} {G : Written → Prop} (h : plan.edit.Admitted t₀ G) (h₀ : t₀.WellFormed)
    (hdirs : ∀ c ∈ plan.dirCandidates, c.Straight) (htree : TreeBacked.tree w.disk = t₀) (hquiet : w.QuietHook)
    (snapshots : Snapshots) (started : ApplyResult) (heeds : Bool) :
    Transaction.Sound t₀ G (w.attempt plan snapshots started heeds).1.moment := by
  have hsound := writing_sound h h₀ hdirs htree snapshots started heeds
  unfold attempt
  generalize w.writing plan snapshots started heeds = out at hsound ⊢
  obtain ⟨e | _, tx⟩ := out
  · exact hsound
  · rw [verify_moment hquiet]
    exact hsound

/-! ## Putting back -/

/-- A result that says that everything was put back. -/
structure SaysRolledBack (r : ApplyResult) : Prop where
  rolledBack : r.rolledBack = true
  success : r.success = false
  filesModified : r.filesModified = []
  filesCreated : r.filesCreated = []
  filesDeleted : r.filesDeleted = []

theorem abort_says {tx : Transaction σ} (h : tx.result.success = false) (snapshots : Snapshots) (e : Error)
    (w : Workspace σ) : SaysRolledBack ((abort tx snapshots e).run w).1 := by
  have hstanding := Transaction.rollback_standing snapshots (tx.failed e)
  simp only [ApplyResult.standing, Prod.mk.injEq] at hstanding
  obtain ⟨_, _, hsuccess, hrolled, _⟩ := hstanding
  exact ⟨hrolled, hsuccess.trans h, rfl, rfl, rfl⟩

theorem abort_tree {t₀ : Tree} (h₀ : t₀.WellFormed) {tx : Transaction σ}
    (h : Transaction.Sound t₀ (Written.Recorded t₀ snapshots) tx.moment) (hsteady : TreeBacked.steady tx.disk)
    (e : Error) (w : Workspace σ) :
    TreeBacked.tree ((abort tx snapshots e).run w).2.disk = t₀ ↔ ¬Clobbers t₀ (tx.createdDirs.map placeOf) := by
  have hback := Transaction.putBack_ends (σ := σ) h₀ h (tx.failed e).rollingBack ⟨rfl, fun _ => hsteady⟩
  exact hback.1

/-- An apply of a grounded plan that fails after the writing has begun answers that it put everything back. The tree is as it was exactly
when none of the directories that it made took the place of a file or of an empty directory. -/
theorem apply_rolled_back {heeds : Bool} (hplan : plan.Grounded) (ht : (TreeBacked.tree w.disk).WellFormed)
    (hquiet : w.QuietHook) (hbegin : (begin plan heeds).run.run w = (.ok (snapshots, started), w₁)) {tx : Transaction σ}
    {e : Error} (hfails : w₁.attempt plan snapshots started heeds = (tx, some e)) (hsteady : TreeBacked.steady tx.disk) :
    ∃ r w', (apply plan heeds).run.run w = (.ok r, w') ∧ SaysRolledBack r ∧
      (TreeBacked.tree w'.disk = TreeBacked.tree w.disk ↔
        ¬Clobbers (TreeBacked.tree w.disk) (tx.createdDirs.map placeOf)) := by
  have hbegun := begin_ok hbegin
  have hsound := attempt_sound (hbegun.admitted hplan ht) ht hplan.dirs hbegun.tree_eq.1 (hquiet.begun hbegun) snapshots
    started heeds
  obtain ⟨state, hstanding⟩ := attempt_standing hbegin
  rw [hfails] at hsound hstanding
  simp only [ApplyResult.standing, Prod.mk.injEq] at hstanding
  obtain ⟨_, _, hsuccess, _, _⟩ := hstanding
  refine ⟨((abort tx snapshots e).run w₁).1, ((abort tx snapshots e).run w₁).2, ?_, abort_says hsuccess snapshots e w₁,
    abort_tree ht hsound hsteady e w₁⟩
  unfold apply
  rw [run_bindExcept, hbegin]
  show (ExceptT.lift (transact plan snapshots started heeds)).run.run w₁ = _
  unfold transact
  show (Except.ok ((conclude plan snapshots (w₁.attempt plan snapshots started heeds)).run w₁).1,
    ((conclude plan snapshots (w₁.attempt plan snapshots started heeds)).run w₁).2) = _
  rw [hfails]
  rfl

/-! ## Built plans -/

/-- A built plan that fails after the writing has begun is rolled back, and the answer says so. When no call fails for
no reason from then on, the tree is as it was exactly when none of the directories that were made took the place of a
file or of an empty directory. -/
theorem apply_built_rolled_back {env : Planner} {root : Place} (henv : env.Rooted root)
    (htree : env.tree = TreeBacked.tree w.disk) {id : PlanId} {op : Operation}
    (hbuilds : Planning.Builds env id op plan) (hquiet : w.QuietHook)
    {heeds : Bool} (hbegin : (begin plan heeds).run.run w = (.ok (snapshots, started), w₁)) {tx : Transaction σ} {e : Error}
    (hfails : w₁.attempt plan snapshots started heeds = (tx, some e)) (hsteady : TreeBacked.steady tx.disk) :
    ∃ r w', (apply plan heeds).run.run w = (.ok r, w') ∧ SaysRolledBack r ∧
      (TreeBacked.tree w'.disk = TreeBacked.tree w.disk ↔
        ¬Clobbers (TreeBacked.tree w.disk) (tx.createdDirs.map placeOf)) := by
  exact apply_rolled_back ((hbuilds.planned henv).grounded henv) (htree ▸ henv.wellFormed) hquiet hbegin hfails hsteady

end Workspace

/-! ## An empty directory that is lost -/

/-- A directory whose inner one holds a file and an empty directory, and one with a file and an inner one that holds an
empty directory of the same name. -/
def Tree.twoDirectories : Tree := ⟨[(["w"], .dir), (["w", "a"], .dir), (["w", "a", "e"], .dir),
  (["w", "a", "e", "f"], .file (Bytes.ofText "1")), (["w", "a", "e", "sub"], .dir), (["w", "b"], .dir),
  (["w", "b", "e"], .dir), (["w", "b", "e", "sub"], .dir), (["w", "b", "x"], .file (Bytes.ofText "2"))]⟩

theorem Tree.twoDirectories_wellFormed : Tree.twoDirectories.WellFormed := .ofEntries (by decide +kernel) (by decide +kernel)

namespace Workspace

/-- The workspace of the two directories, with a check that fails. -/
def refusing : Workspace Disk where
  root := ⟨"/w"⟩
  disk := { tree := .twoDirectories }
  hook := some fun _ => pure (.error (.cancelled "check"))

/-- An apply fails after the writing, on a steady disk, when these directories were made. -/
def failsHaving (made : List Place) (w : Workspace Disk) (plan : Plan) : Bool :=
  match (begin plan false).run.run w with
  | (.ok (snapshots, started), w₁) =>
    match w₁.attempt plan snapshots started false with
    | (tx, some _) => decide tx.disk.Steady && tx.createdDirs.map placeOf == made
    | _ => false
  | _ => false

theorem exists_of_failsHaving {made : List Place} {w : Workspace Disk} {plan : Plan} (h : failsHaving made w plan = true) :
    ∃ snapshots started w₁ tx e, (begin plan false).run.run w = (.ok (snapshots, started), w₁) ∧
      w₁.attempt plan snapshots started false = (tx, some e) ∧ tx.disk.Steady ∧ tx.createdDirs.map placeOf = made := by
  unfold failsHaving at h
  split at h
  · rename_i snapshots started w₁ hbegin
    split at h
    · rename_i tx e hattempt
      rw [Bool.and_eq_true, decide_eq_true_eq, beq_iff_eq] at h
      exact ⟨snapshots, started, w₁, tx, e, hbegin, hattempt, h⟩
    · cases h
  · cases h

/-- The inner directory goes elsewhere and the other directory takes its place, which makes the empty directory
anew. The check refuses this, and putting back removes what was made, the empty directory of before with it. -/
theorem apply_built_loses_directory : ∃ plan, Planning.Builds (.inDirectory .twoDirectories) ⟨1⟩
      (.batchMove [⟨⟨"/w/a/e"⟩, ⟨"/w/d"⟩⟩, ⟨⟨"/w/b"⟩, ⟨"/w/a"⟩⟩] true) plan ∧
    ∃ r w', (apply plan false).run.run refusing = (.ok r, w') ∧ SaysRolledBack r ∧ w'.disk.tree ≠ .twoDirectories := by
  obtain ⟨plan, hbuilds, hfails⟩ := Planning.exists_builds (.inDirectory .twoDirectories) ⟨1⟩
    (.batchMove [⟨⟨"/w/a/e"⟩, ⟨"/w/d"⟩⟩, ⟨⟨"/w/b"⟩, ⟨"/w/a"⟩⟩] true)
    (failsHaving [["w", "d"], ["w", "d", "sub"], ["w", "a", "e"], ["w", "a", "e", "sub"]] refusing) (by decide +kernel)
  obtain ⟨snapshots, started, w₁, tx, e, hbegin, hattempt, hsteady, hmade⟩ := exists_of_failsHaving hfails
  obtain ⟨r, w', hrun, hsays, htree⟩ := apply_built_rolled_back
    (Planner.inDirectory_rooted Tree.twoDirectories_wellFormed) rfl hbuilds
    (fun hook hhook s => by cases hhook; rfl) hbegin hattempt hsteady
  refine ⟨plan, hbuilds, r, w', hrun, hsays, fun heq => htree.mp heq ?_⟩
  refine ⟨[["w", "d"], ["w", "d", "sub"], ["w", "a", "e"]], ["w", "a", "e", "sub"], [], hmade, Or.inr ⟨rfl, ?_, ?_⟩⟩
  · intro s
    show Tree.twoDirectories.get? ["w", "a", "e", "sub", s] = none
    simp [Tree.twoDirectories, Tree.get?]
  · intro q hq hbelow
    simp only [List.mem_cons, List.not_mem_nil, or_false] at hq
    rcases hq with rfl | rfl | rfl <;> exact absurd hbelow.1 (by decide)

end Workspace

end Refactor
