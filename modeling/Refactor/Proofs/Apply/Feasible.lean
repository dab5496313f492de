import Refactor.Proofs.Apply.Committed
import Refactor.Proofs.Apply.Prepared
import Refactor.Proofs.Apply.Unhindered

/-!
# Plans that commit

A built plan that is applied at once, on a steady file system and without a cancellation or a check, commits just when it
is feasible: its text edits fit, nothing stands in the way of a target, and no file comes to stand above the counterpart
of a directory that moves. Planning alone does not make sure of that.

* `Plan.Feasible` — what a plan needs of the tree
* `Planning.Builds.prepared` — what a built plan needs before the writing it has, up to what stands in its way
* `Workspace.writing_succeeds`, `Workspace.writing_feasible` — the writing of feasible plans
* `Workspace.apply_built_commits_iff` — a built plan commits just when it is feasible
-/

set_option linter.unusedSectionVars false

namespace Refactor

open Tree (Below Beside pathOf placeOf)
open Path (IsName)

/-- Text edits fit, nothing stands in the way of a target, and no file comes to stand above the counterpart of a
directory that moves. -/
structure Plan.Feasible (t : Tree) (plan : Plan) : Prop where
  fits : plan.edit.Fits t.fileAt
  unhindered : plan.edit.Unhindered t
  room : ∀ c ∈ plan.dirCandidates, t.get? (placeOf c.path) = some .dir → ∀ d ∈ c.destination, ∀ names,
    t.get? (placeOf c.path ++ names) = some .dir → Files.FreeAbove (plan.edit.result t.fileAt) (placeOf d ++ names)

/-! ## Before the writing -/

theorem Tree.Recordable.of_place {t : Tree} (ht : t.WellFormed) {p : Path} (hp : p.Straight)
    (hdir : t.get? (placeOf p) ≠ some .dir) (habove : Files.FreeAbove t.fileAt (placeOf p)) : t.Recordable p := by
  cases hget : t.get? (placeOf p) with
  | some e =>
    rcases ht.file_or_dir hget with rfl | ⟨b, rfl⟩
    · exact absurd hget hdir
    · exact Or.inl ⟨b, (Tree.read_eq_ok_iff ht p b).mpr ((hp.finds_iff ht _).mpr hget)⟩
  | none =>
    obtain ⟨place, hplace, _, rfl⟩ := hp
    rw [Tree.placeOf_names hplace] at hget habove
    refine Or.inr ((Tree.read_notFound_iff ht hplace).mpr ⟨hget, fun q b hq hfile => ?_⟩)
    by_cases heq : place = q
    · rw [heq, hfile] at hget
      cases hget
    · have hnone := habove q ⟨hq, heq⟩
      rw [Tree.fileAt_eq_some_iff.mpr hfile] at hnone
      cases hnone

/-- Destinations are free unless they may be overwritten. -/
theorem Arranged.meets {t : Tree} {root : Place} {dirs : List SourceDir} {ops : List FileOperation}
    (h : Arranged t root dirs ops) (ht : t.WellFormed) {op : FileOperation} (hop : op ∈ ops)
    (hsource : ∀ a ∈ op.source?, t.exists? a = true) : op.Meets t := by
  have hmoves : ∀ {overwrite : Bool} {ms : List (Place × Place)}, MovesOk t root overwrite ms →
      op ∈ t.moveOperations overwrite ms → op.Meets t := by
    intro overwrite ms hok hop
    obtain ⟨m, hm, rest, ⟨b, hfile⟩, rfl⟩ := (mem_moveOperations ht).mp hop
    refine ⟨hsource _ rfl, fun hsparing => ?_⟩
    have hnames := ht.isName (p := m.1 ++ rest) (by rw [hfile]; simp)
    have hfree := hok.free hsparing m hm _ ((Tree.mem_filesAt ht).mpr ⟨List.prefix_append _ _, b, hfile⟩)
    rw [counterpart, List.drop_left] at hfree
    rw [← Bool.not_eq_true, Tree.exists?_names_iff ht, not_not]
    · exact hfree
    · intro s hs
      rcases List.mem_append.mp hs with hs | hs
      · exact (hok.ok m hm).dst_names s hs
      · exact hnames s (List.mem_append_right _ hs)
  have hdeletes : ∀ {place : Place}, op ∈ t.deleteOperations place → op.Meets t := by
    intro place hop
    obtain ⟨_, _, _, rfl⟩ := (mem_deleteOperations ht).mp hop
    exact hsource _ rfl
  cases h with
  | moves hok => exact hmoves hok hop
  | moveFile hok => exact hmoves hok hop
  | deleteDirectory => exact hdeletes hop
  | deleteFile => exact hdeletes hop
  | edits => cases hop

/-- A built plan finds what it needs before the writing, when nothing stands in the way of a target. -/
theorem Planning.Builds.prepared {env : Planner} {root : Place} (henv : env.Rooted root) {id : PlanId} {op : Operation}
    {plan : Plan} (hbuilds : Planning.Builds env id op plan) (h : plan.edit.Unhindered env.tree) :
    plan.Prepared env.tree := by
  have hplanned := hbuilds.planned henv
  have hgrounded := hplanned.grounded henv
  have hrecords := hbuilds.records henv.sited
  have hexists : ∀ p, plan.edit.Affects p → env.tree.exists? p = true := by
    intro p hp
    obtain ⟨b, hread, _⟩ := hrecords.affected p hp
    exact (Tree.exists?_iff henv.wellFormed p).mpr ⟨_, (Tree.read_eq_ok_iff henv.wellFormed p b).mp hread⟩
  refine ⟨hrecords.fresh, hbuilds.valid henv.sited, ⟨fun q hq => hexists q (Or.inl hq), fun op hop => ?_⟩, fun p hp => ?_⟩
  · exact hplanned.arranged.meets henv.wellFormed hop fun a ha => hexists a (Or.inr ⟨op, hop, ha⟩)
  · have hread : plan.edit.Affects p → env.tree.Recordable p := fun hp => by
      obtain ⟨b, hread, _⟩ := hrecords.affected p hp
      exact Or.inl ⟨b, hread⟩
    rcases WorkspaceEdit.mem_touchedPaths hp with hp | ⟨op, hop, hp⟩
    · exact hread (Or.inl hp)
    · rcases FileOperation.mem_paths_iff.mp hp with hsource | htarget
      · exact hread (Or.inr ⟨op, hop, hsource⟩)
      · have hplace : placeOf p ∈ op.targetPlace? := Option.mem_map_of_mem placeOf htarget
        exact .of_place henv.wellFormed (hgrounded.operations op hop p hp) (h.target op hop _ hplace)
          (h.above op hop _ hplace)

variable {σ : Type} [TreeBacked σ]

namespace Transaction

/-- Files that were changed had text edits that fit. -/
theorem writeFiles_fits (plan : Plan) (snapshots : Snapshots) : Runs (fun _ : Transaction σ => True)
    (writeFiles plan snapshots)
    (fun _ _ => ∀ change ∈ plan.edit.changes, change.2 ≠ [] → ∃ out, Edits snapshots change.1 change.2 out)
    (fun _ => True) := by
  unfold writeFiles
  refine Runs.bind (Runs.forM_all (C := fun change => change.2 ≠ [] → ∃ out, Edits snapshots change.1 change.2 out)
    (E := fun _ => True) _ fun change _ => ?_) fun _ => ?_
  · refine (writeEdits_runs (C := False) (P := fun _ => True) (E := fun _ => True) plan snapshots change.1 change.2
      (fun _ _ _ => trivial) fun _ _ _ _ => trivial).conseq (fun _ _ => ⟨trivial, False.elim⟩) ?_ fun _ h => h
    rintro _ tx ⟨⟨hnil, _⟩ | ⟨_, _, out, _, hedits, _⟩, _⟩
    · exact ⟨trivial, fun hne => absurd hnil hne⟩
    · exact ⟨trivial, fun _ => ⟨out, hedits⟩⟩
  · exact (Runs.const _).conseq (fun _ h => h.2) (fun _ _ h => h) fun _ _ => trivial

end Transaction

namespace Workspace

variable {plan : Plan} {w w₁ w' : Workspace σ} {snapshots : Snapshots} {r started : ApplyResult} {root : Place}

/-! ## The writing of feasible plans -/

/-- The writing of a feasible plan does not fail. -/
theorem writing_succeeds (hbegun : Begun plan w snapshots w₁) (hplan : plan.Grounded) (hdistinct : plan.edit.Distinct)
    (ht : (TreeBacked.tree w.disk).WellFormed) (hsteady : TreeBacked.steady w.disk)
    (hapart : Transaction.SourcesApart (w₁.wholeDirs plan)) (hfeasible : plan.Feasible (TreeBacked.tree w.disk))
    (hroomy : ∀ m, Transaction.Underway (TreeBacked.tree w.disk) snapshots plan.edit [] m → m.heeds = false →
      m.tree.fileAt = plan.edit.result (TreeBacked.tree w.disk).fileAt → Transaction.Roomy (w₁.wholeDirs plan) m)
    (started : ApplyResult) : ∃ tx, w₁.writing plan snapshots started false = (.ok (), tx) := by
  obtain ⟨disk, htree, hsteady', heq⟩ := writing_eq w₁ plan snapshots started false
  obtain ⟨htree₁, hsteady₁⟩ := hbegun.tree_eq
  have hadmitted := hbegun.admitted hplan ht
  have hfiles := (Transaction.writeFiles_runs (σ := σ) (C := True) hadmitted ht false).and
    (Transaction.writeFiles_succeeds (σ := σ) hadmitted ht hfeasible.unhindered hfeasible.fits)
  have hruns : Runs (Transaction.At (σ := σ) True (· = .start (TreeBacked.tree w.disk) false))
      (Transaction.writeAll plan snapshots (w₁.wholeDirs plan)) (fun _ _ => True) (fun _ => False) := by
    rw [Transaction.writeAll_eq]
    refine (hfiles.conseq (fun _ h => ⟨h, h⟩) (fun _ _ h => h) fun _ h => h.2).bind fun _ => ?_
    refine Runs.bind (Q := fun _ => Transaction.At True (Transaction.Roomy (w₁.wholeDirs plan))) ?_ fun _ => ?_
    · refine (Transaction.removeAllEmptied_succeeds hapart).conseq (fun tx htx => ⟨?_, htx.1.2⟩) (fun _ _ h => h)
        fun _ h => h
      obtain ⟨⟨⟨hunderway, hfiles⟩, _⟩, hready, _⟩ := htx
      exact hroomy _ hunderway hready.heedless (hfiles.trans (filesAfter_eq hbegun hplan hdistinct _))
    · refine (Transaction.heedCancel_runs (E := fun _ => False) fun m hm hheeds => ?_).conseq (fun _ h => h)
        (fun _ _ _ => trivial) fun _ h => h
      rw [hm.heedless] at hheeds
      cases hheeds
  have hrun := hruns (outset started false disk) ⟨?_, fun _ => hsteady' (hsteady₁ hsteady)⟩
  · rw [heq]
    generalize (Transaction.writeAll plan snapshots (w₁.wholeDirs plan)).run.run (outset started false disk) = out at hrun ⊢
    obtain ⟨e | _, tx⟩ := out
    · exact hrun.elim
    · exact ⟨tx, rfl⟩
  · show Transaction.Moment.start (TreeBacked.tree disk) false = _
    rw [htree, htree₁]

/-- After the passes of a feasible plan the destinations of whole directories stand, and no file stands above the
counterpart of one of their directories. -/
theorem underway_roomy (hbegun : Begun plan w snapshots w₁) (hplan : plan.Grounded)
    (ht : (TreeBacked.tree w.disk).WellFormed)
    (harranged : Arranged (TreeBacked.tree w.disk) root plan.dirCandidates plan.edit.operations)
    (haside : DirsAside (TreeBacked.tree w.disk) plan.dirCandidates) (hfeasible : plan.Feasible (TreeBacked.tree w.disk))
    {m : Transaction.Moment} (hm : Transaction.Underway (TreeBacked.tree w.disk) snapshots plan.edit [] m)
    (hheeds : m.heeds = false) (hfiles : m.tree.fileAt = plan.edit.result (TreeBacked.tree w.disk).fileAt) :
    Transaction.Roomy (w₁.wholeDirs plan) m := by
  have hmem : ∀ c ∈ w₁.wholeDirs plan, c ∈ plan.dirCandidates ∧ (TreeBacked.tree w.disk).get? (placeOf c.path) = some .dir :=
    fun c hc => ⟨((hbegun.mem_wholeDirs hplan ht).mp hc).1, ((hbegun.mem_wholeDirs hplan ht).mp hc).2.1⟩
  have hapart := (WorkspaceEdit.validate_checked hbegun.checked).placesApart hplan.operations
  refine ⟨hm.whole.1.wellFormed, hheeds, fun c hc d hd => ?_, fun c hc d hd names hdir => ?_⟩
  · obtain ⟨hcmem, hcdir⟩ := hmem c hc
    -- a file of the directory goes below the destination
    obtain ⟨op, hop, rest, ⟨b, hfile⟩, hsource, htarget⟩ := harranged.exists_carried ht hcmem hd
    have hrest : rest ≠ [] := by
      rintro rfl
      rw [List.append_nil, hcdir] at hfile
      cases hfile
    have hthere : m.tree.fileAt (placeOf d ++ rest) ≠ none := by
      rw [hfiles]
      refine WorkspaceEdit.result_ne_none hapart hfeasible.fits hop (fun p hp => ?_) htarget
      obtain rfl := Option.some.inj (hsource.symm.trans hp)
      rw [Tree.fileAt_eq_some_iff.mpr hfile]
      simp
    obtain ⟨b', hb'⟩ := Option.ne_none_iff_exists'.mp hthere
    exact hm.whole.1.wellFormed.dir_of_lt rest hrest (by rw [Tree.fileAt_eq_some_iff.mp hb']; simp)
  · obtain ⟨hcmem, hcdir⟩ := hmem c hc
    have hvacant := underway_vacant harranged ht (fun _ => Iff.rfl) haside hcmem hcdir hm hfiles _
      (List.prefix_append _ names)
    rw [hdir] at hvacant
    rw [hfiles]
    refine hfeasible.room c hcmem hcdir d hd names ?_
    by_contra hnot
    rw [if_neg hnot] at hvacant
    cases hvacant

/-- A plan whose writing does not fail was feasible. -/
theorem writing_feasible (hbegun : Begun plan w snapshots w₁) (hplan : plan.Grounded) (hdistinct : plan.edit.Distinct)
    (ht : (TreeBacked.tree w.disk).WellFormed)
    (htransferred : ∀ {tx : Transaction σ}, w₁.writing plan snapshots started false = (.ok (), tx) →
      ∀ c ∈ plan.dirCandidates, (TreeBacked.tree w.disk).get? (placeOf c.path) = some .dir →
      Transaction.Transferred (TreeBacked.tree w.disk) c (TreeBacked.tree tx.disk))
    {tx : Transaction σ} (hwriting : w₁.writing plan snapshots started false = (.ok (), tx)) :
    plan.Feasible (TreeBacked.tree w.disk) := by
  have hadmitted := hbegun.admitted hplan ht
  have hapart := (WorkspaceEdit.validate_checked hbegun.checked).placesApart hplan.operations
  have hfiles := writing_files hbegun hplan hdistinct ht hwriting
  have hsound := writing_sound hadmitted ht hplan.dirs hbegun.tree_eq.1 snapshots started false
  rw [hwriting] at hsound
  have hwellFormed : (TreeBacked.tree tx.disk).WellFormed := hsound.wellFormed
  have hfits : plan.edit.Fits (TreeBacked.tree w.disk).fileAt := by
    intro p es hmem hes
    obtain ⟨disk, _, _, heq⟩ := writing_eq w₁ plan snapshots started false
    have hrun := ((Transaction.writeFiles_fits (σ := σ) plan snapshots).bind
      (f := fun _ => do Transaction.removeAllEmptied (w₁.wholeDirs plan); Transaction.heedCancel)
      fun _ => (Runs.const _).conseq (fun _ h => h) (fun _ _ h => h) fun _ _ => trivial) (outset started false disk) trivial
    rw [← Transaction.writeAll_eq, ← heq, hwriting] at hrun
    obtain ⟨out, hedits⟩ := hrun (p, es) hmem hes
    rw [hedits.rendered (hadmitted.edited p es hmem hes)]
    simp
  have hstands : ∀ op ∈ plan.edit.operations, ∀ place ∈ op.targetPlace?,
      (TreeBacked.tree tx.disk).fileAt place ≠ none := by
    intro op hop place hplace
    rw [hfiles]
    refine WorkspaceEdit.result_ne_none hapart hfits hop (fun p hp => ?_) hplace
    obtain ⟨a, ha, rfl⟩ := Option.map_eq_some_iff.mp hp
    obtain ⟨b, hb⟩ := hadmitted.sources op hop a ha
    rw [Tree.fileAt_eq_some_iff.mpr hb]
    simp
  have htaken : ∀ {place : Place}, (TreeBacked.tree tx.disk).fileAt place ≠ none →
      (TreeBacked.tree tx.disk).get? place ≠ none := by
    intro place hplace hnone
    unfold Tree.fileAt at hplace
    rw [hnone] at hplace
    exact hplace rfl
  refine ⟨hfits, ⟨fun op hop place hplace => ?_, fun op hop place hplace => ?_,
    fun op hop place hplace op' hop' place' hplace' hbelow => ?_⟩, fun c hc hdir d hd names hnames => ?_⟩
  · obtain ⟨b, hb, rfl⟩ := Option.map_eq_some_iff.mp hplace
    have hpaths := FileOperation.destination_mem_paths hb
    have hclear := hbegun.clear hplan ht hop hpaths
    obtain ⟨names, hnames, hne, rfl⟩ := hplan.operations op hop b hpaths
    rw [Tree.placeOf_names hnames] at hclear ⊢
    rw [← List.dropLast_append_getLast hne]
    exact Tree.clear_iff_freeAbove.mp hclear
  · obtain ⟨b, hb, rfl⟩ := Option.map_eq_some_iff.mp hplace
    rcases hbegun.state hplan ht (Or.inr ⟨op, hop, FileOperation.destination_mem_paths hb⟩) with
      ⟨c, _, hget⟩ | ⟨_, hget, _⟩
    · rw [hget]
      simp
    · rw [hget]
      simp
  · exact hstands op hop place hplace (Tree.freeAbove_of_taken hwellFormed (htaken (hstands op' hop' place' hplace')) place hbelow)
  · rw [← hfiles]
    exact Tree.freeAbove_of_taken hwellFormed ((htransferred hwriting c hc hdir).carried d hd names hnames)

/-! ## Applies of feasible plans -/

/-- Without a check, an apply whose writing does not fail commits. -/
theorem apply_of_writing {heeds : Bool} (hhook : w₁.hook = none)
    (hbegin : (begin plan heeds).run.run w = (.ok (snapshots, started), w₁)) {tx : Transaction σ} (hwriting : w₁.writing plan snapshots started heeds = (.ok (), tx)) :
    ∃ r w', (apply plan heeds).run.run w = (.ok r, w') ∧ r.success = true := by
  have hattempt : w₁.attempt plan snapshots started heeds = (tx, none) := by
    unfold attempt
    rw [hwriting]
    show w₁.verify tx = _
    unfold verify
    rw [hhook]
  refine ⟨((conclude plan snapshots (tx, none)).run w₁).1, ((conclude plan snapshots (tx, none)).run w₁).2, ?_, rfl⟩
  unfold apply
  rw [run_bindExcept, hbegin]
  show (Except.ok ((conclude plan snapshots (w₁.attempt plan snapshots started heeds)).run w₁).1,
    ((conclude plan snapshots (w₁.attempt plan snapshots started heeds)).run w₁).2) = _
  rw [hattempt]

/-- A built plan that is applied at once, on a steady file system, without a cancellation, a check or a lock in the way,
commits just when it is feasible. This takes that no destination is a directory that moves as a whole or contains one. -/
theorem apply_built_commits_iff {env : Planner} (henv : env.Rooted root) (hroot : w.root = env.root)
    (htree : env.tree = TreeBacked.tree w.disk) {id : PlanId} {op : Operation}
    (hbuilds : Planning.Builds env id op plan) (hdistinct : op.isSymbolRename = true → plan.edit.Distinct)
    (hsteady : TreeBacked.steady w.disk) (hhook : w.hook = none) (hlocks : w.locks.held = [])
    (haside : DirsAside env.tree plan.dirCandidates) :
    (∃ r w', (apply plan false).run.run w = (.ok r, w') ∧ r.success = true) ↔ plan.Feasible env.tree := by
  have hplanned := hbuilds.planned henv
  have hgrounded := hplanned.grounded henv
  have hdistinct' := hbuilds.distinct henv.sited hdistinct
  have hprepared := hbuilds.prepared henv
  have harranged := hplanned.arranged
  have ht := henv.wellFormed
  rw [htree] at ht hprepared harranged haside ⊢
  have hmem : ∀ {snapshots : Snapshots} {w₁ : Workspace σ}, Begun plan w snapshots w₁ → ∀ c, c ∈ w₁.wholeDirs plan ↔
      c ∈ plan.dirCandidates ∧ (TreeBacked.tree w.disk).get? (placeOf c.path) = some .dir := fun hbegun c =>
    hbegun.mem_wholeDirs_iff hgrounded ht harranged (hroot.trans henv.root_eq) henv.names
  have hapart : ∀ {snapshots : Snapshots} {w₁ : Workspace σ}, Begun plan w snapshots w₁ →
      Transaction.SourcesApart (w₁.wholeDirs plan) := fun hbegun =>
    harranged.sourcesApart ht henv.below haside List.filter_sublist fun c hc => ((hmem hbegun c).mp hc).2
  constructor
  · rintro ⟨r, w', hrun, hsuccess⟩
    have hquiet : w.QuietHook := fun hook hhook' => by
      rw [hhook] at hhook'
      cases hhook'
    obtain ⟨snapshots, started, w₁, tx, hbegin, hwriting, _⟩ := apply_success hquiet hrun hsuccess
    have hbegun := begin_ok hbegin
    refine writing_feasible hbegun hgrounded hdistinct' ht (fun hwriting c hc hdir => ?_) hwriting
    refine writing_transfers hbegun hgrounded hdistinct' ht hsteady (hapart hbegun) (fun m hm hfiles c hc => ?_) hwriting c
      ((hmem hbegun c).mpr ⟨hc, hdir⟩)
    obtain ⟨hc, hdir⟩ := (hmem hbegun c).mp hc
    exact underway_vacant harranged ht (fun _ => Iff.rfl) haside hc hdir hm hfiles
  · intro hfeasible
    obtain ⟨snapshots, started, w₁, hbegin⟩ := begin_succeeds (hprepared hfeasible.unhindered) hlocks
    have hbegun := begin_ok hbegin
    obtain ⟨tx, hwriting⟩ := writing_succeeds hbegun hgrounded hdistinct' ht hsteady (hapart hbegun) hfeasible
      (fun m hm hheeds hfiles => underway_roomy hbegun hgrounded ht harranged haside hfeasible hm hheeds hfiles) started
    exact apply_of_writing (hbegun.unharmed.1.2.2.trans hhook) hbegin hwriting

end Workspace

/-- A directory with a file, and a file beside it. -/
def Tree.directoryAndFile : Tree := ⟨[(["w"], .dir), (["w", "d"], .file (Bytes.ofText "2")), (["w", "s"], .dir),
  (["w", "s", "f"], .file (Bytes.ofText "1"))]⟩

theorem Tree.directoryAndFile_wellFormed : Tree.directoryAndFile.WellFormed :=
  .ofEntries (by decide +kernel) (by decide +kernel)

namespace Workspace

/-- Two directories move, and their plan is feasible. That of a directory that moves over a file is not, although it is
built. -/
theorem apply_built_commits_iff_directory :
    (∃ plan, Planning.Builds (.inDirectory .twoDirectories) ⟨1⟩
        (.batchMove [⟨⟨"/w/a"⟩, ⟨"/w/c/d"⟩⟩, ⟨⟨"/w/b"⟩, ⟨"/w/e"⟩⟩] false) plan ∧
      plan.Feasible .twoDirectories ∧
      ∃ r w', (apply plan false).run.run (ofTree .twoDirectories) = (.ok r, w') ∧ r.success = true) ∧
    ∃ plan, Planning.Builds (.inDirectory .directoryAndFile) ⟨1⟩ (.move ⟨"/w/s"⟩ ⟨"/w/d"⟩ true) plan ∧
      ¬plan.Feasible .directoryAndFile ∧
      ¬∃ r w', (apply plan false).run.run (ofTree .directoryAndFile) = (.ok r, w') ∧ r.success = true := by
  constructor
  · obtain ⟨plan, hbuilds, htest⟩ := Planning.exists_builds (.inDirectory .twoDirectories) ⟨1⟩
      (.batchMove [⟨⟨"/w/a"⟩, ⟨"/w/c/d"⟩⟩, ⟨⟨"/w/b"⟩, ⟨"/w/e"⟩⟩] false)
      (fun plan => commits (ofTree .twoDirectories) plan && decide (DirsAside .twoDirectories plan.dirCandidates))
      (by decide +kernel)
    rw [Bool.and_eq_true, decide_eq_true_eq] at htest
    have hcommits := commits_iff.mp htest.1
    exact ⟨plan, hbuilds, (apply_built_commits_iff (Planner.inDirectory_rooted Tree.twoDirectories_wellFormed) rfl rfl
      hbuilds (fun hop => by cases hop) trivial rfl rfl htest.2).mp hcommits, hcommits⟩
  · obtain ⟨plan, hbuilds, htest⟩ := Planning.exists_builds (.inDirectory .directoryAndFile) ⟨1⟩
      (.move ⟨"/w/s"⟩ ⟨"/w/d"⟩ true)
      (fun plan => !commits (ofTree .directoryAndFile) plan && decide (DirsAside .directoryAndFile plan.dirCandidates))
      (by decide +kernel)
    rw [Bool.and_eq_true, Bool.not_eq_true', ← Bool.not_eq_true, commits_iff, decide_eq_true_eq] at htest
    refine ⟨plan, hbuilds, fun hfeasible => htest.1 ?_, htest.1⟩
    exact (apply_built_commits_iff (Planner.inDirectory_rooted Tree.directoryAndFile_wellFormed) rfl rfl
      hbuilds (fun hop => by cases hop) trivial rfl rfl htest.2).mpr hfeasible

end Workspace

end Refactor
