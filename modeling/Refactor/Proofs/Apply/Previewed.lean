import Refactor.Proofs.Apply.Committed
import Refactor.Proofs.Plan.Preview
import Refactor.Proofs.Text.Encoding

/-!
# What a preview promises

After a committed apply of a built plan, the entries of its preview tell what the tree holds, with two exceptions. A
file with text edits that a move puts another file over has the content of that file, and a directory may stand where
a file was moved away, when a directory was moved over one that held the file.

* `FilePreview.Matches` — an entry tells what a tree holds
* `Plan.Displaces` — what stands there instead
* `Plan.Shows.matches_or_displaced` — entries after the files have changed as the plan says
* `Workspace.apply_built_previewed` — previews of built plans
-/

set_option linter.unusedSectionVars false

namespace Refactor

open Tree (pathOf placeOf Beside)

/-! ## Promises -/

namespace FilePreview

def StandsAt (e : FilePreview) (t : Tree) (p : Path) : Prop :=
  ∃ s ∈ e.rendered, t.fileAt (placeOf p) = some (Bytes.ofText s)

def Arrives (e : FilePreview) (t : Tree) : Prop := e.rendered ≠ none → ∃ b ∈ e.newPath, e.StandsAt t b

/-- An entry tells what a tree holds. -/
def Matches (e : FilePreview) (t : Tree) : Prop :=
  match e.status with
  | .modified => e.StandsAt t e.path
  | .created => e.StandsAt t e.path
  | .moved => t.get? (placeOf e.path) = none ∧ e.Arrives t
  | .deleted => t.get? (placeOf e.path) = none

end FilePreview

namespace Plan

/-- A whole directory moves to a place above. -/
def MovesOver (plan : Plan) (t : Tree) (q : Place) : Prop :=
  ∃ c ∈ plan.dirCandidates, t.get? (placeOf c.path) = some .dir ∧ ∃ d ∈ c.destination, placeOf d <+: q

/-- What stands in the place of an entry that does not match: the file of a move that goes where a file with text edits
was, or a part of a directory that moved over one that held a moved file. -/
def Displaces (plan : Plan) (t t' : Tree) (e : FilePreview) : Prop :=
  match e.status with
  | .modified => ∃ a b o, .move a b o ∈ plan.edit.operations ∧ placeOf b = placeOf e.path ∧
      t'.fileAt (placeOf e.path) = plan.edit.edited t.fileAt (placeOf a)
  | .moved => (t'.get? (placeOf e.path) = some .dir ∧ plan.MovesOver t (placeOf e.path)) ∧ e.Arrives t'
  | _ => False

end Plan

theorem Path.OfPlace.beq_of_place {p q : Path} (hp : p.OfPlace) (hq : q.Straight) (h : placeOf p = placeOf q) :
    (p == q) = true := by
  obtain ⟨place, hplace, rfl⟩ := hp
  obtain ⟨place', hplace', _, rfl⟩ := hq
  rw [Tree.placeOf_names hplace, Tree.placeOf_names hplace'] at h
  rw [h]
  exact BEq.rfl

/-! ## Entries -/

namespace Plan

variable {plan : Plan} {t t' : Tree}

/-- The files of one tree are those of another one with the edit of a plan, and nothing stands where a file was taken
away, unless a directory moved over it. -/
structure Realized (plan : Plan) (t t' : Tree) : Prop where
  files : t'.fileAt = plan.edit.result t.fileAt
  left : ∀ op ∈ plan.edit.operations, ∀ q, op.sourcePlace? = some q →
    t'.get? q = none ∨ op.isMove = true ∧ t'.get? q = some .dir ∧ plan.MovesOver t q

/-- What makes the parts of an edit independent of each other: its operations meet nowhere, edited files lie at
different places, and they have one writing when there are operations. -/
structure Independent (plan : Plan) : Prop where
  apart : plan.edit.operations.Pairwise FileOperation.PlacesApart
  distinct : plan.edit.Distinct
  edited : plan.edit.operations = [] ∨ plan.edit.Only Path.OfPlace
  straight : ∀ op ∈ plan.edit.operations, ∀ p ∈ op.paths, p.Straight

theorem Independent.beq_of_place (h : plan.Independent) {p : Path} {es : List TextEdit}
    (hmem : (p, es) ∈ plan.edit.changes) {op : FileOperation} (hop : op ∈ plan.edit.operations) {q : Path}
    (hq : q ∈ op.paths) (hplace : placeOf p = placeOf q) : (p == q) = true := by
  rcases h.edited with hnone | honly
  · rw [hnone] at hop
    cases hop
  · exact (honly _ hmem).beq_of_place (h.straight op hop q hq) hplace

theorem Shows.matches_or_displaced {e : FilePreview} (hshows : plan.Shows t e) (h : plan.Independent)
    (hdone : plan.Realized t t') : e.Matches t' ∨ plan.Displaces t t' e := by
  have hfiles : ∀ q, t'.fileAt q = plan.edit.result t.fileAt q := fun q => congrFun hdone.files q
  cases hshows with
  | @edited p es before out hmem hes hrendered hkept =>
    have hedited : plan.edit.edited t.fileAt (placeOf p) = some (Bytes.ofText out) :=
      (WorkspaceEdit.edited_of_mem h.distinct hmem hes).trans hrendered
    cases hdestination : plan.destination? p with
    | none =>
      have hstatus : (plan.editedEntry p before out).status = .modified := by simp [editedEntry, hdestination]
      unfold FilePreview.Matches Displaces
      rw [hstatus]
      by_cases htarget : ∃ op ∈ plan.edit.operations, op.targetPlace? = some (placeOf p)
      · obtain ⟨op, hop, htarget⟩ := htarget
        cases op with
        | move a b o =>
          refine Or.inr ⟨a, b, o, hop, Option.some.inj htarget, ?_⟩
          exact (hfiles _).trans (FileOperation.substitute_of_target h.apart hop htarget)
        | create q content o =>
          have hbeq := h.beq_of_place hmem hop (q := q) (by simp [FileOperation.paths]) (Option.some.inj htarget).symm
          rw [hkept _ hop rfl q (by simp [FileOperation.paths])] at hbeq
          cases hbeq
        | delete q => cases htarget
      · push Not at htarget
        refine Or.inl ⟨out, rfl, (hfiles _).trans ?_⟩
        refine (FileOperation.substitute_of_free htarget fun op hop hsource => ?_).trans hedited
        cases op with
        | move a b o =>
          have hbeq := h.beq_of_place hmem hop (q := a) (by simp [FileOperation.paths]) (Option.some.inj hsource).symm
          rw [no_move_of_destination? hdestination hop] at hbeq
          cases hbeq
        | create q content o => cases hsource
        | delete q =>
          have hbeq := h.beq_of_place hmem hop (q := q) (by simp [FileOperation.paths]) (Option.some.inj hsource).symm
          rw [hkept _ hop rfl q (by simp [FileOperation.paths])] at hbeq
          cases hbeq
    | some b =>
      have hstatus : (plan.editedEntry p before out).status = .moved := by simp [editedEntry, hdestination]
      obtain ⟨a, o, hop, hbeq⟩ := exists_move_of_destination? hdestination
      have hplace : placeOf p = placeOf a := by
        rw [Path.beq_iff] at hbeq
        exact (Tree.placeOf_congr (h.straight _ hop a (by simp [FileOperation.paths])).isAbsolute hbeq.symm).symm
      have harrives : (plan.editedEntry p before out).Arrives t' := by
        refine fun _ => ⟨b, hdestination, out, rfl, (hfiles _).trans ?_⟩
        refine (FileOperation.substitute_of_target h.apart hop rfl).trans ?_
        show plan.edit.edited t.fileAt (placeOf a) = _
        rw [← hplace]
        exact hedited
      unfold FilePreview.Matches Displaces
      rw [hstatus]
      refine (hdone.left _ hop (placeOf p) (congrArg some hplace.symm)).imp (fun hnone => ⟨hnone, harrives⟩)
        fun hdir => ⟨hdir.2, harrives⟩
  | @operation op hop hunedited =>
    cases op with
    | move a b o =>
      have harrives : (FileOperation.entry t.fileAt (.move a b o)).Arrives t' := by
        intro hsome
        obtain ⟨s, hs⟩ := Option.ne_none_iff_exists'.mp hsome
        refine ⟨b, rfl, s, hs, (hfiles _).trans ?_⟩
        refine (FileOperation.substitute_of_target h.apart hop rfl).trans ?_
        have hfree : plan.edit.edited t.fileAt (placeOf a) = t.fileAt (placeOf a) :=
          WorkspaceEdit.edited_of_free fun p es hmem hes hplace => by
            have hbeq := h.beq_of_place hmem hop (q := a) (by simp [FileOperation.paths]) hplace
            have hne : (p == a) = false := hunedited rfl p es hmem hes
            rw [hne] at hbeq
            cases hbeq
        obtain ⟨bytes, hbytes, htext⟩ := Option.bind_eq_some_iff.mp hs
        refine hfree.trans ?_
        rw [hbytes, Bytes.ofText_of_text? htext]
      exact (hdone.left _ hop (placeOf a) rfl).imp (fun hnone => ⟨hnone, harrives⟩) fun hdir => ⟨hdir.2, harrives⟩
    | create p content o =>
      exact Or.inl ⟨content, rfl, (hfiles _).trans (FileOperation.substitute_of_target h.apart hop rfl)⟩
    | delete p =>
      refine Or.inl ((hdone.left _ hop (placeOf p) rfl).resolve_right fun hmove => ?_)
      cases hmove.1

end Plan

/-! ## Sources -/

namespace Arranged

variable {t : Tree} {root : Place} {dirs : List SourceDir} {ops : List FileOperation}

theorem source_ne_target (h : Arranged t root dirs ops) (ht : t.WellFormed) {op : FileOperation} (hop : op ∈ ops)
    {q : Place} (hq : op.sourcePlace? = some q) : op.targetPlace? ≠ some q := by
  have hmoves : ∀ {overwrite : Bool} {ms : List (Place × Place)}, MovesOk t root overwrite ms →
      op ∈ t.moveOperations overwrite ms → op.targetPlace? ≠ some q := by
    intro overwrite ms hok hop htarget
    obtain ⟨m, hm, rest, _, hsource, htarget'⟩ := hok.operation_places ht hop
    have heq := (Option.some.inj (hsource.symm.trans hq)).trans (Option.some.inj (htarget'.symm.trans htarget)).symm
    exact (hok.ok m hm).ne (List.append_cancel_right heq)
  have hdeletes : ∀ {place : Place}, op ∈ t.deleteOperations place → op.targetPlace? ≠ some q := by
    intro place hop htarget
    obtain ⟨_, _, _, rfl⟩ := (mem_deleteOperations ht).mp hop
    cases htarget
  cases h with
  | moves hok => exact hmoves hok hop
  | moveFile hok => exact hmoves hok hop
  | deleteDirectory => exact hdeletes hop
  | deleteFile => exact hdeletes hop
  | edits => cases hop

/-- No operation puts a file where one takes a file away. -/
theorem source_untargeted (h : Arranged t root dirs ops) (ht : t.WellFormed)
    (hapart : ops.Pairwise FileOperation.PlacesApart) {op op' : FileOperation} (hop : op ∈ ops) (hop' : op' ∈ ops)
    {q : Place} (hq : op.sourcePlace? = some q) : op'.targetPlace? ≠ some q := by
  by_cases hsame : op = op'
  · exact hsame ▸ h.source_ne_target ht hop hq
  · exact (hapart.forall hop hop' hsame).before q hq

theorem all_moves (h : Arranged t root dirs ops) (ht : t.WellFormed) {c : SourceDir} (hc : c ∈ dirs) {d : Path}
    (hd : d ∈ c.destination) : ∀ op ∈ ops, op.isMove = true := by
  cases h with
  | moves =>
    intro op hop
    obtain ⟨_, _, _, _, rfl⟩ := (mem_moveOperations ht).mp hop
    rfl
  | deleteDirectory =>
    rw [List.mem_singleton.mp hc] at hd
    cases hd
  | moveFile => cases hc
  | deleteFile => cases hc
  | edits => cases hc

end Arranged

/-! ## Commits -/

namespace Workspace

variable {σ : Type} [TreeBacked σ] {plan : Plan} {w w₁ w' : Workspace σ} {snapshots : Snapshots} {heeds : Bool}
  {r started : ApplyResult} {root : Place}

/-- After the writing nothing stands where a file was taken away, unless a directory moved over it. -/
theorem writing_left (hbegun : Begun plan w snapshots w₁) (hplan : plan.Grounded) (hdistinct : plan.edit.Distinct)
    (ht : (TreeBacked.tree w.disk).WellFormed)
    (harranged : Arranged (TreeBacked.tree w.disk) root plan.dirCandidates plan.edit.operations)
    {tx : Transaction σ} (hwriting : w₁.writing plan snapshots started heeds = (.ok (), tx)) {op : FileOperation}
    (hop : op ∈ plan.edit.operations) {q : Place} (hq : op.sourcePlace? = some q) :
    (TreeBacked.tree tx.disk).get? q = none ∨
      op.isMove = true ∧ (TreeBacked.tree tx.disk).get? q = some .dir ∧ plan.MovesOver (TreeBacked.tree w.disk) q := by
  have hapart := (WorkspaceEdit.validate_checked hbegun.checked).placesApart hplan.operations
  obtain ⟨a, ha, rfl⟩ := Option.map_eq_some_iff.mp hq
  obtain ⟨b, hfile⟩ := hbegun.source_file hplan ht hop ha
  have huntargeted : ∀ op' ∈ plan.edit.operations, op'.targetPlace? ≠ some (placeOf a) := fun op' hop' =>
    harranged.source_untargeted ht hapart hop hop' hq
  -- no destination is below a file
  have habove : ∀ op' ∈ plan.edit.operations, ∀ place ∈ op'.targetPlace?, ¬placeOf a <+: place := by
    rintro op' hop' place hplace ⟨rest, hrest⟩
    obtain ⟨p, hp, rfl⟩ := Option.map_eq_some_iff.mp hplace
    cases rest using List.reverseRecOn with
    | nil =>
      rw [List.append_nil] at hrest
      exact huntargeted op' hop' (hrest ▸ hplace)
    | append_singleton rest s =>
      have hclear := hbegun.clear hplan ht hop' (FileOperation.destination_mem_paths hp)
      rw [← hrest, ← List.append_assoc, List.dropLast_concat] at hclear
      exact hclear (placeOf a) b (List.prefix_append _ _) hfile
  have hnone : plan.edit.result (TreeBacked.tree w.disk).fileAt (placeOf a) = none :=
    WorkspaceEdit.result_eq_none huntargeted (Or.inr ⟨op, hop, hq⟩)
  have hsources : ∀ c ∈ w₁.wholeDirs plan, c.Straight := fun c hc => hplan.dirs c (List.mem_of_mem_filter hc)
  by_cases hover : plan.MovesOver (TreeBacked.tree w.disk) (placeOf a)
  · have hfiles := congrFun (writing_files hbegun hplan hdistinct ht hwriting) (placeOf a)
    rw [hnone] at hfiles
    have hsound := writing_sound (hbegun.admitted hplan ht) ht hplan.dirs hbegun.tree_eq.1 snapshots started heeds
    rw [hwriting] at hsound
    cases hget : (TreeBacked.tree tx.disk).get? (placeOf a) with
    | none => exact Or.inl rfl
    | some e =>
      obtain ⟨c, hc, _, d, hd, _⟩ := hover
      refine Or.inr ⟨harranged.all_moves ht hc hd op hop, ?_, c, hc, ‹_›, d, hd, ‹_›⟩
      rcases hsound.wellFormed.file_or_dir hget with rfl | ⟨b', rfl⟩
      · rfl
      · rw [Tree.fileAt_eq_some_iff.mpr hget] at hfiles
        cases hfiles
  · refine Or.inl (writing_runs hbegun hplan ht False.elim ((Transaction.removeAllEmptied_free hsources
      fun c hc d hd => ⟨?_, fun hlead => ?_⟩).conseq (fun tx htx => ⟨⟨htx.1.1.whole.1.wellFormed, ?_⟩, htx.2⟩)
      (fun _ _ h => h) fun _ h => h) hwriting).2
    · obtain ⟨op', hop', rest, _, _, htarget⟩ :=
        harranged.exists_carried ht ((hbegun.mem_wholeDirs hplan ht).mp hc).1 hd
      exact fun hlead => habove op' hop' _ htarget (hlead.trans (List.prefix_append _ _))
    · obtain ⟨hc, hdir, _⟩ := (hbegun.mem_wholeDirs hplan ht).mp hc
      exact hover ⟨c, hc, hdir, d, hd, hlead⟩
    · cases hget : tx.moment.tree.get? (placeOf a) with
      | none => rfl
      | some e =>
        rcases htx.1.1.whole.1.wellFormed.file_or_dir hget with rfl | ⟨b', rfl⟩
        · rcases htx.1.1.dirs _ hget with hdir | ⟨op', hop', place, hplace, hlead⟩
          · rw [hfile] at hdir
            cases hdir
          · exact absurd hlead (habove op' hop' place hplace)
        · have hfiles := congrFun (htx.1.2.trans (filesAfter_eq hbegun hplan hdistinct _)) (placeOf a)
          rw [hnone, Tree.fileAt_eq_some_iff.mpr hget] at hfiles
          cases hfiles

/-- When a built plan is previewed and then applied to the same tree, and the apply commits, every entry of the preview
tells what the tree holds, or something else took its place: the file of a move that goes to a file with text edits, or
a directory that moved over one that held a moved file. For a rename of a symbol this takes that no two edited paths
lead to one place. -/
theorem apply_built_previewed {env : Planner} (henv : env.Rooted root) (htree : env.tree = TreeBacked.tree w.disk)
    {id : PlanId} {op : Operation} (hbuilds : Planning.Builds env id op plan)
    (hdistinct : op.isSymbolRename = true → plan.edit.Distinct) {d : Disk} (hd : d.tree = env.tree) {preview : Preview}
    (hpreview : plan.preview d = .ok preview) (hquiet : w.QuietHook)
    (hrun : (apply plan heeds).run.run w = (.ok r, w')) (hsuccess : r.success = true) :
    ∀ e ∈ preview.files, e.Matches (TreeBacked.tree w'.disk) ∨ plan.Displaces env.tree (TreeBacked.tree w'.disk) e := by
  have hplanned := hbuilds.planned henv
  have hdistinct' := hbuilds.distinct henv.sited hdistinct
  have hplaced := hbuilds.placed henv.sited
  have hgrounded := hplanned.grounded henv
  have ht := henv.wellFormed
  have harranged := hplanned.arranged
  have hshows := Plan.preview_shows (hd ▸ ht) hpreview
  rw [hd] at hshows
  rw [htree] at ht harranged hshows ⊢
  obtain ⟨snapshots, started, w₁, tx, hbegin, hwriting, htx⟩ := apply_success hquiet hrun hsuccess
  have hbegun := begin_ok hbegin
  rw [htx]
  have hindependent : plan.Independent :=
    ⟨(WorkspaceEdit.validate_checked hbegun.checked).placesApart hgrounded.operations, hdistinct', hplaced,
      hgrounded.operations⟩
  have hrealized : plan.Realized (TreeBacked.tree w.disk) (TreeBacked.tree tx.disk) :=
    ⟨writing_files hbegun hgrounded hdistinct' ht hwriting, fun op hop q hq =>
      writing_left hbegun hgrounded hdistinct' ht harranged hwriting hop hq⟩
  exact fun e he => (hshows e he).matches_or_displaced hindependent hrealized

/-- A plan has a preview with entries. -/
def previews (d : Disk) (plan : Plan) : Bool :=
  match plan.preview d with
  | .ok preview => !preview.files.isEmpty
  | .error _ => false

theorem exists_of_previews {d : Disk} {plan : Plan} (h : previews d plan = true) :
    ∃ preview, plan.preview d = .ok preview ∧ preview.files ≠ [] := by
  unfold previews at h
  split at h
  · rename_i preview hpreview
    refine ⟨preview, hpreview, ?_⟩
    simpa using h
  · cases h

/-- Two directories move. -/
theorem apply_built_previewed_directory : ∃ plan, Planning.Builds (.inDirectory .twoDirectories) ⟨1⟩
      (.batchMove [⟨⟨"/w/a"⟩, ⟨"/w/c/d"⟩⟩, ⟨⟨"/w/b"⟩, ⟨"/w/e"⟩⟩] false) plan ∧
    ∃ preview, plan.preview { tree := .twoDirectories } = .ok preview ∧ preview.files ≠ [] ∧
      ∃ r w', (apply plan false).run.run (ofTree .twoDirectories) = (.ok r, w') ∧ r.success = true ∧
        ∀ e ∈ preview.files, e.Matches w'.disk.tree ∨ plan.Displaces .twoDirectories w'.disk.tree e := by
  obtain ⟨plan, hbuilds, htest⟩ := Planning.exists_builds (.inDirectory .twoDirectories) ⟨1⟩
    (.batchMove [⟨⟨"/w/a"⟩, ⟨"/w/c/d"⟩⟩, ⟨⟨"/w/b"⟩, ⟨"/w/e"⟩⟩] false)
    (fun plan => commits (ofTree .twoDirectories) plan && previews { tree := .twoDirectories } plan) (by decide +kernel)
  rw [Bool.and_eq_true] at htest
  obtain ⟨r, w', hrun, hsuccess⟩ := commits_iff.mp htest.1
  obtain ⟨preview, hpreview, hfiles⟩ := exists_of_previews htest.2
  exact ⟨plan, hbuilds, preview, hpreview, hfiles, r, w', hrun, hsuccess,
    apply_built_previewed (Planner.inDirectory_rooted Tree.twoDirectories_wellFormed) rfl hbuilds
      (fun hop => by cases hop) rfl hpreview (ofTree_quiet _) hrun hsuccess⟩

end Workspace

end Refactor
