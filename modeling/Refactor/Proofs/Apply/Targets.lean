import Refactor.Proofs.Apply.Course
import Refactor.Proofs.Apply.PutBack
import Refactor.Proofs.Edit.Validate

/-!
# What the writing starts from

On a file system over a tree, an apply that gets to the writing has found every path as it has to be, and its snapshots
tell what the tree holds.

* `FileOperation.Meets` — an operation finds its source, and its destination free unless it may overwrite
* `SnapshotState.Of` — a record tells what a tree holds
* `Plan.Grounded` — plans whose paths name places below the top
* `Workspace.Begun.recorded`, `Workspace.Begun.admitted` — snapshots and edits when the writing starts
-/

set_option linter.unusedSectionVars false

namespace Refactor

open Tree (pathOf placeOf)
open FileSystem (Looks)

variable {σ : Type} [TreeBacked σ] {t : Tree}

/-! ## Targets -/

/-- An operation finds its source, and its destination free unless it may overwrite. -/
def FileOperation.Meets (t : Tree) : FileOperation → Prop
  | .move a b overwrite => t.exists? a = true ∧ (overwrite = false → t.exists? b = false)
  | .create p _ overwrite => overwrite = false → t.exists? p = false
  | .delete p => t.exists? p = true

namespace Plan

variable {E : σ → Prop}

theorem exists?_runs (p : Path) : Runs (fun s : σ => TreeBacked.tree s = t) (Checking.ask (FileSystem.exists? p))
    (fun there s => TreeBacked.tree s = t ∧ there = t.exists? p) E := by
  rintro s rfl
  show TreeBacked.tree ((FileSystem.exists? p).run s).2 = _ ∧ ((FileSystem.exists? p).run s).1 = _
  exact ⟨(TreeBacked.looks (FileSystem.exists?_looks p s)).1, TreeBacked.exists?_answer p s⟩

theorem checkPresent_runs (p : Path) : Runs (fun s : σ => TreeBacked.tree s = t) (checkPresent p)
    (fun _ s => TreeBacked.tree s = t ∧ t.exists? p = true) (fun _ => ¬t.exists? p = true) := by
  unfold checkPresent
  refine (exists?_runs p).bind fun there => ?_
  cases there
  · exact Runs.throw _ fun _ h => by simp [← h.2]
  · exact Runs.pure _ fun _ h => ⟨h.1, h.2.symm⟩

theorem checkFree_runs (p : Path) (overwrite : Bool) : Runs (fun s : σ => TreeBacked.tree s = t)
    (checkFree p overwrite) (fun _ s => TreeBacked.tree s = t ∧ (overwrite = false → t.exists? p = false))
    (fun _ => ¬(overwrite = false → t.exists? p = false)) := by
  unfold checkFree
  cases overwrite
  · refine (exists?_runs p).bind fun there => ?_
    cases there
    · exact Runs.pure _ fun _ h => ⟨h.1, fun _ => h.2.symm⟩
    · exact Runs.throw _ fun _ h => by simp [← h.2]
  · exact Runs.pure _ fun _ h => ⟨h, by simp⟩

theorem checkOperation_runs (op : FileOperation) : Runs (fun s : σ => TreeBacked.tree s = t) (checkOperation op)
    (fun _ s => TreeBacked.tree s = t ∧ op.Meets t) (fun _ => ¬op.Meets t) := by
  cases op with
  | move a b overwrite =>
    refine ((checkPresent_runs a).conseq (fun _ h => h) (fun _ _ h => h) fun _ h hmeets => h hmeets.1).bind fun _ => ?_
    by_cases ha : t.exists? a = true
    · exact (checkFree_runs b overwrite).conseq (fun _ h => h.1) (fun _ _ h => ⟨h.1, ha, h.2⟩)
        fun _ h hmeets => h hmeets.2
    · exact fun _ h => absurd h.2 ha
  | create p content overwrite => exact checkFree_runs p overwrite
  | delete p => exact checkPresent_runs p

/-- Every edited file is there, and every operation meets the tree. -/
def TargetsMet (p : Plan) (t : Tree) : Prop :=
  (∀ q ∈ p.edit.editedFiles, t.exists? q = true) ∧ ∀ op ∈ p.edit.operations, op.Meets t

theorem checkTargets_runs (p : Plan) : Runs (fun s : σ => TreeBacked.tree s = t) p.checkTargets
    (fun _ _ => p.TargetsMet t) (fun _ => ¬p.TargetsMet t) := by
  refine Runs.bind (Q := fun _ s => TreeBacked.tree s = t ∧ ∀ q ∈ p.edit.editedFiles, t.exists? q = true) ?_
    fun _ => ?_
  · exact Runs.forM_all _ fun q hq => (checkPresent_runs q).conseq (fun _ h => h) (fun _ _ h => h)
      fun _ h hmet => h (hmet.1 q hq)
  by_cases hedited : ∀ q ∈ p.edit.editedFiles, t.exists? q = true
  · refine Runs.conseq (Runs.forM_all (C := fun op => op.Meets t) _ fun op hop => (checkOperation_runs op).conseq
      (fun _ h => h) (fun _ _ h => h) fun _ h hmet => ?_) (fun _ h => h.1) (fun _ _ h => ⟨hedited, h.2⟩) fun _ h => h
    exact h (hmet.2 op hop)
  · exact fun _ h => absurd h.2 hedited

end Plan

/-! ## Snapshots -/

/-- A record tells what a tree holds at a path. -/
def SnapshotState.Of (t : Tree) (p : Path) : SnapshotState → Prop
  | .content b => t.read p = .ok b
  | .absent => t.read p = .error .notFound

namespace Snapshots

theorem stateOf_ok {p : Path} {s s' : σ} {state : SnapshotState} (h : (stateOf p).run s = (.ok state, s')) :
    state.Of (TreeBacked.tree s) p ∧ TreeBacked.tree s' = TreeBacked.tree s := by
  have hlook := (TreeBacked.looks (stateOf_looks p s)).1
  rw [h] at hlook
  refine ⟨?_, hlook⟩
  unfold stateOf at h
  rw [StateT.run_bind] at h
  have hanswer := TreeBacked.read_answer p s
  generalize (FileSystem.read p).run s = out at h hanswer
  obtain ⟨r, s₁⟩ := out
  dsimp only at hanswer
  subst hanswer
  cases hread : (TreeBacked.tree s).read p with
  | ok b =>
    rw [hread] at h
    cases h
    exact hread
  | error fault =>
    rw [hread] at h
    -- only a missing file gets a record
    cases fault <;> cases h
    exact hread

/-- Every record is one of before, or it tells what the tree holds at one of the paths. -/
theorem captureAll_of {ps : List Path} {s s' : Snapshots} {d d' : σ} (h : (s.captureAll ps).run d = ((s', .ok ()), d')) :
    ∀ entry ∈ s'.entries, entry ∈ s.entries ∨ entry.1 ∈ ps ∧ entry.2.Of (TreeBacked.tree d) entry.1 :=
  captureAll_all (I := fun s => TreeBacked.tree s = TreeBacked.tree d)
    (fun _ _ _ _ hs hstate => ⟨hs ▸ (stateOf_ok hstate).1, (stateOf_ok hstate).2.trans hs⟩) rfl h

end Snapshots

/-! ## Plans with places -/

/-- The paths of operations and source directories name places below the top, and edited files have absolute paths. -/
structure Plan.Grounded (p : Plan) : Prop where
  edited : ∀ q ∈ p.edit.editedFiles, q.isAbsolute = true
  operations : ∀ op ∈ p.edit.operations, ∀ q ∈ op.paths, q.Straight
  dirs : ∀ c ∈ p.dirCandidates, c.Straight

theorem Path.Straight.isAbsolute {p : Path} (h : p.Straight) : p.isAbsolute = true := by
  obtain ⟨place, _, _, rfl⟩ := h
  exact Path.isAbsolute_pathOf place

theorem Path.Straight.finds_iff {p : Path} (h : p.Straight) (ht : t.WellFormed) (e : Entry) :
    t.Finds p e ↔ t.get? (placeOf p) = some e := by
  obtain ⟨place, hplace, _, rfl⟩ := h
  rw [Tree.finds_names_iff ht hplace, Tree.placeOf_names hplace]

theorem WorkspaceEdit.mem_touchedPaths {w : WorkspaceEdit} {p : Path} (h : p ∈ w.touchedPaths) :
    p ∈ w.editedFiles ∨ ∃ op ∈ w.operations, p ∈ op.paths := by
  unfold WorkspaceEdit.touchedPaths at h
  rcases PathSet.mem_union h with h | h
  · exact Or.inl (PathSet.mem_ofList h)
  · exact Or.inr (List.mem_flatMap.mp h)

theorem WorkspaceEdit.exists_touched {w : WorkspaceEdit} {p : Path}
    (h : p ∈ w.editedFiles ∨ ∃ op ∈ w.operations, p ∈ op.paths) : ∃ q ∈ w.touchedPaths, q.components = p.components := by
  have hcontains : List.contains w.touchedPaths p = true := by
    unfold WorkspaceEdit.touchedPaths
    rw [PathSet.contains_union, PathSet.contains_ofList, Bool.or_eq_true]
    exact h.imp (fun h => List.contains_iff_exists_mem_beq.mpr ⟨p, h, BEq.rfl⟩)
      fun h => List.contains_iff_exists_mem_beq.mpr ⟨p, List.mem_flatMap.mpr h, BEq.rfl⟩
  obtain ⟨q, hq, hpq⟩ := List.contains_iff_exists_mem_beq.mp hcontains
  exact ⟨q, hq, ((Path.beq_iff p q).mp hpq).symm⟩

namespace Snapshots

theorem find?_congr {p q : Path} (h : p.components = q.components) (s : Snapshots) : s.find? p = s.find? q :=
  PathMap.find?_congr h s.entries

theorem exists_entry_of_find? {s : Snapshots} {p : Path} {state : SnapshotState} (h : s.find? p = some state) :
    ∃ q, (q, state) ∈ s.entries ∧ p.components = q.components := by
  obtain ⟨entries⟩ := s
  unfold find? at h
  dsimp only at h ⊢
  induction entries with
  | nil => cases h
  | cons entry rest ih =>
    rw [List.lookup_cons] at h
    split at h
    · rename_i hp
      cases h
      exact ⟨entry.1, by simp, (Path.beq_iff _ _).mp hp⟩
    · obtain ⟨q, hq, hpq⟩ := ih h
      exact ⟨q, List.mem_cons_of_mem _ hq, hpq⟩

end Snapshots

namespace Workspace

variable {plan : Plan} {w w' : Workspace σ} {snapshots : Snapshots}

theorem Begun.tree_eq (h : Begun plan w snapshots w') :
    TreeBacked.tree w'.disk = TreeBacked.tree w.disk ∧ (TreeBacked.steady w.disk → TreeBacked.steady w'.disk) :=
  TreeBacked.looks h.unharmed.2

theorem Begun.targets_met (h : Begun plan w snapshots w') : plan.TargetsMet (TreeBacked.tree w.disk) := by
  obtain ⟨s, hs, htargets⟩ := h.targets
  have hrun := Plan.checkTargets_runs plan s (TreeBacked.looks hs).1
  change After _ _ (plan.checkTargets.run s) at hrun
  generalize plan.checkTargets.run s = out at htargets hrun
  obtain ⟨r, s'⟩ := out
  dsimp only at htargets
  subst htargets
  exact hrun

/-- What a path was found to hold, under some writing of it. -/
theorem Begun.found (h : Begun plan w snapshots w') {p : Path}
    (hp : p ∈ plan.edit.editedFiles ∨ ∃ op ∈ plan.edit.operations, p ∈ op.paths) :
    ∃ state q, snapshots.find? p = some state ∧ q ∈ plan.edit.touchedPaths ∧ p.components = q.components ∧
      state.Of (TreeBacked.tree w.disk) q := by
  obtain ⟨s₁, s₂, hs₁, hcapture, _⟩ := h.captured
  obtain ⟨q, hq, hqp⟩ := WorkspaceEdit.exists_touched hp
  have hsome := Snapshots.captureAll_covers hcapture q (Or.inr hq)
  rw [Snapshots.find?_congr hqp] at hsome
  obtain ⟨state, hstate⟩ := Option.isSome_iff_exists.mp hsome
  obtain ⟨q', hq', hpq'⟩ := Snapshots.exists_entry_of_find? hstate
  rcases Snapshots.captureAll_of hcapture _ hq' with hmem | ⟨hmem, hof⟩
  · simp at hmem
  · rw [(TreeBacked.looks hs₁).1] at hof
    exact ⟨state, q', hstate, hmem, hpq', hof⟩

/-- A path of the plan is absolute; an edited file is there, and the other paths are straight. -/
theorem Begun.path_cases (h : Begun plan w snapshots w') (hplan : plan.Grounded) (ht : (TreeBacked.tree w.disk).WellFormed)
    {p : Path} (hp : p ∈ plan.edit.editedFiles ∨ ∃ op ∈ plan.edit.operations, p ∈ op.paths) :
    p.isAbsolute = true ∧ ((∃ e, (TreeBacked.tree w.disk).Finds p e) ∨ p.Straight) := by
  rcases hp with hp | ⟨op, hop, hp⟩
  · exact ⟨hplan.edited p hp, Or.inl ((Tree.exists?_iff ht p).mp (h.targets_met.1 p hp))⟩
  · exact ⟨(hplan.operations op hop p hp).isAbsolute, Or.inr (hplan.operations op hop p hp)⟩

/-- The snapshot of a path is that of the file at its place, or nothing is there and no file is above. -/
theorem Begun.state (h : Begun plan w snapshots w') (hplan : plan.Grounded) (ht : (TreeBacked.tree w.disk).WellFormed)
    {p : Path} (hp : p ∈ plan.edit.editedFiles ∨ ∃ op ∈ plan.edit.operations, p ∈ op.paths) :
    (∃ b, snapshots.find? p = some (.content b) ∧ (TreeBacked.tree w.disk).get? (placeOf p) = some (.file b)) ∨
      snapshots.find? p = some .absent ∧ (TreeBacked.tree w.disk).get? (placeOf p) = none ∧
        (TreeBacked.tree w.disk).Clear (placeOf p) := by
  obtain ⟨state, q, hfind, hq, hpq, hof⟩ := h.found hp
  obtain ⟨_, hqcase⟩ := h.path_cases hplan ht (WorkspaceEdit.mem_touchedPaths hq)
  rw [Tree.placeOf_congr (h.path_cases hplan ht hp).1 hpq]
  cases state with
  | content b => exact Or.inl ⟨b, hfind, ((Tree.read_eq_ok_iff ht q b).mp hof).2.2⟩
  | absent =>
    have hread : (TreeBacked.tree w.disk).read q = .error .notFound := hof
    refine Or.inr ⟨hfind, ?_⟩
    rcases hqcase with ⟨e, he⟩ | ⟨place, hnames, _, rfl⟩
    · have hentry := (Tree.entry_eq_ok_iff_finds ht true q _ e).mpr ⟨rfl, he⟩
      unfold Tree.read at hread
      rw [hentry] at hread
      rcases ht.file_or_dir he.2.2 with rfl | ⟨b, rfl⟩ <;> cases hread
    · rw [Tree.placeOf_names hnames]
      exact (Tree.read_notFound_iff ht hnames).mp hread

/-- The snapshot of every path of the plan tells what the tree holds there. -/
theorem Begun.recorded (h : Begun plan w snapshots w') (hplan : plan.Grounded) (ht : (TreeBacked.tree w.disk).WellFormed)
    {p : Path} (hp : p ∈ plan.edit.editedFiles ∨ ∃ op ∈ plan.edit.operations, p ∈ op.paths) :
    Recorded (TreeBacked.tree w.disk) snapshots p := by
  obtain ⟨habsolute, hcase⟩ := h.path_cases hplan ht hp
  rcases h.state hplan ht hp with ⟨b, hfind, hget⟩ | ⟨hfind, hfree, _⟩
  · refine .content b hfind habsolute ?_
    rcases hcase with ⟨e, he⟩ | hstraight
    · have heq := he.2.2
      rw [hget] at heq
      rwa [Option.some.inj heq]
    · exact (hstraight.finds_iff ht _).mpr hget
  · rcases hcase with ⟨e, he⟩ | hstraight
    · have heq := he.2.2
      rw [hfree] at heq
      cases heq
    · exact .absent hfind hstraight hfree

/-- No file is above a path of an operation. -/
theorem Begun.clear (h : Begun plan w snapshots w') (hplan : plan.Grounded) (ht : (TreeBacked.tree w.disk).WellFormed)
    {op : FileOperation} (hop : op ∈ plan.edit.operations) {p : Path} (hp : p ∈ op.paths) :
    (TreeBacked.tree w.disk).Clear (placeOf p).dropLast := by
  rcases h.state hplan ht (Or.inr ⟨op, hop, hp⟩) with ⟨b, _, hget⟩ | ⟨_, _, hclear⟩
  · obtain ⟨place, hplace, hne, rfl⟩ := hplan.operations op hop p hp
    rw [Tree.placeOf_names hplace] at hget ⊢
    rw [← List.dropLast_append_getLast hne] at hget
    exact Tree.Clear.of_dir ht (ht.parents _ _ (by rw [hget]; simp))
  · exact fun q b hq => hclear q b (hq.trans (List.dropLast_prefix _))

theorem Begun.source_file (h : Begun plan w snapshots w') (hplan : plan.Grounded)
    (ht : (TreeBacked.tree w.disk).WellFormed) {op : FileOperation} (hop : op ∈ plan.edit.operations) {a : Path}
    (ha : a ∈ op.source?) : ∃ b, (TreeBacked.tree w.disk).get? (placeOf a) = some (.file b) := by
  have hmem : a ∈ op.paths := by
    cases op <;> simp_all [FileOperation.paths, FileOperation.source?]
  have hthere : (TreeBacked.tree w.disk).exists? a = true := by
    have hmeets := h.targets_met.2 op hop
    cases op with
    | move a' b o =>
      obtain rfl : a' = a := Option.some.inj ha
      exact hmeets.1
    | create p c o => cases ha
    | delete p =>
      obtain rfl : p = a := Option.some.inj ha
      exact hmeets
  cases h.recorded hplan ht (Or.inr ⟨op, hop, hmem⟩) with
  | content b _ _ hfinds => exact ⟨b, hfinds.2.2⟩
  | absent _ _ hfree =>
    obtain ⟨e, he⟩ := (Tree.exists?_iff ht a).mp hthere
    have heq := he.2.2
    rw [hfree] at heq
    cases heq

/-- The edits can be written and put back. -/
theorem Begun.admitted (h : Begun plan w snapshots w') (hplan : plan.Grounded)
    (ht : (TreeBacked.tree w.disk).WellFormed) :
    plan.edit.Admitted (TreeBacked.tree w.disk) (Written.Recorded (TreeBacked.tree w.disk) snapshots) := by
  have hchecked := WorkspaceEdit.validate_checked h.checked
  refine ⟨fun p es hmem hes => ?_, fun op hop => ?_, hplan.operations, fun op hop a ha => h.source_file hplan ht hop ha,
    ?_⟩
  · refine ⟨fun q hq => ?_, by simp⟩
    rw [List.mem_singleton.mp hq]
    refine h.recorded hplan ht (Or.inl ?_)
    unfold WorkspaceEdit.editedFiles
    exact List.mem_map.mpr ⟨(p, es), List.mem_filter.mpr ⟨hmem, by simpa using hes⟩, rfl⟩
  · have hpaths : op.written.paths = op.paths := by cases op <;> rfl
    refine ⟨fun q hq => h.recorded hplan ht (Or.inr ⟨op, hop, hpaths ▸ hq⟩), fun a b hab => ?_⟩
    refine h.source_file hplan ht hop ?_
    cases op <;> simp_all [FileOperation.written, FileOperation.source?]
  · refine hchecked.apart.imp_of_mem fun {op op'} hop hop' hapart a ha a' ha' => ?_
    have hpaths : ∀ {op : FileOperation} {a : Path}, a ∈ op.source? → a ∈ op.paths := by
      intro op a ha
      cases op <;> simp_all [FileOperation.paths, FileOperation.source?]
    obtain ⟨place, hplace, _, rfl⟩ := hplan.operations op hop a (hpaths ha)
    obtain ⟨place', hplace', _, rfl⟩ := hplan.operations op' hop' a' (hpaths ha')
    have hne := hapart.sources _ ha _ ha'
    rw [← Bool.not_eq_true, Path.pathOf_beq_iff hplace hplace'] at hne
    rwa [Tree.placeOf_names hplace, Tree.placeOf_names hplace']

end Workspace

end Refactor
