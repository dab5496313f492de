import Refactor.Proofs.Apply.Committed
import Refactor.Proofs.Edit.Splices
import Refactor.Proofs.Planning.Renames

/-!
# What a rename leaves

A plan without operations writes edited texts over files, one after the other. Each text comes from the snapshot of its
file, so that the outcome is known before the first write: a file that edited paths lead to has its text with the edits of
the last of them put in, and everything else stays as it was. For the plan of a rename each path has the edits of its words.
A file that is written in two ways has two paths in the plan, of which the second one undoes the first; when each file is
written in one way, the new name stands in the place of the old one at all words that are named, and nowhere else.

* `TextEdit.substituted`, `WorkspaceEdit.Rewrites` — files with the edits put in that are written last
* `Transaction.writeAll_over` — the writing of a plan without operations
* `Workspace.apply_rewrites` — the tree after an apply of such a plan
* `Planner.WritesOnce`, `Planner.Renamed` — files written in one way, and the tree with all their words renamed
* `Plan.RenamesWords.edited`, `Plan.RenamesWords.renamed` — the edits of a rename fit the files, and rename all words
* `Planning.build_rename_rewrites` — planning and applying a rename
-/

set_option linter.unusedSectionVars false

namespace Refactor

/-- A text with edits put in, all at once. -/
def TextEdit.substituted (content : String) (es : List TextEdit) : String :=
  .ofList (Splice.substitute (es.map (spliceIn content.toList)) 0 content.toList)

/-- From one tree to the other, each file that edited paths lead to has the edits of the last of them put into its text, and
everything else is as it was. -/
def WorkspaceEdit.Rewrites (w : WorkspaceEdit) (t t' : Tree) : Prop :=
  ∀ q, (t'.get? q = t.get? q ∧ ∀ file ∈ w.changes, t.locate true file.1 ≠ .ok q) ∨
    ∃ file b content, t.LastAt q w.changes file ∧ t.get? q = some (.file b) ∧ Bytes.text? b = some content ∧
      t'.get? q = some (.file (Bytes.ofText (TextEdit.substituted content file.2)))

def Tree.textOf (t : Tree) (p : Path) : String := ((t.read p).toOption.bind Bytes.text?).getD ""

theorem Tree.textOf_eq {t : Tree} {p : Path} {b : ByteArray} {content : String} (hread : t.read p = .ok b)
    (htext : Bytes.text? b = some content) : t.textOf p = content := by
  unfold textOf
  rw [hread]
  exact congrArg (·.getD "") htext

variable {σ : Type} [TreeBacked σ]

/-! ## Writing texts over files -/

namespace Transaction

/-- An edited file of a tree that is no link, whose text after the edits follows from its snapshot. -/
structure Rewritable (t : Tree) (snapshots : Snapshots) (out : Path × List TextEdit → ByteArray)
    (file : Path × List TextEdit) : Prop where
  nonempty : file.2 ≠ []
  readable : ∃ b, t.read file.1 = .ok b
  unlinked : t.isLink file.1 = false
  rendered : ∀ text, Edits snapshots file.1 file.2 text → Bytes.ofText text = out file

variable {t : Tree} {snapshots : Snapshots} {out : Path × List TextEdit → ByteArray}

/-- The files of some edits are written over, and nothing else is touched. -/
def Over (t : Tree) (out : Path × List TextEdit → ByteArray) (done : List (Path × List TextEdit)) (m : Moment) : Prop :=
  t.Replaced (done.map fun file => (file.1, out file)) m.tree

/-- One file is written over with the text that its snapshot tells. -/
theorem writeEdits_over (plan : Plan) {file : Path × List TextEdit} (h : Rewritable t snapshots out file)
    (done : List (Path × List TextEdit)) :
    Runs (At (σ := σ) False (Over t out done)) (writeEdits plan snapshots file.1 file.2)
      (fun _ => At False (Over t out (done ++ [file]))) fun _ => True := by
  refine (writeEdits_runs (E := fun _ => True) plan snapshots file.1 file.2 (fun _ _ _ => trivial)
    fun _ _ _ _ => trivial).conseq (fun _ h => h) ?_ fun _ h => h
  rintro _ tx ⟨⟨hnone, _⟩ | ⟨_, m, text, hover, hedits, hlogged⟩, hcalm⟩
  · exact absurd hnone h.nonempty
  · obtain ⟨b, hread⟩ := h.readable
    refine ⟨?_, hcalm⟩
    unfold Over
    rw [List.map_append, List.map_singleton, ← h.rendered text hedits]
    exact hover.write hread h.unlinked hlogged.tree

/-- All edited files are written over, one after the other. -/
theorem writeChanges_over (plan : Plan) : ∀ (left done : List (Path × List TextEdit)),
    (∀ file ∈ left, Rewritable t snapshots out file) →
    Runs (At (σ := σ) False (Over t out done)) (left.forM fun (path, edits) => writeEdits plan snapshots path edits)
      (fun _ => At False (Over t out (done ++ left))) fun _ => True
  | [], done, _ => Runs.pure _ fun _ htx => by rwa [List.append_nil]
  | file :: left, done, h => by
    rw [List.append_cons]
    exact (writeEdits_over plan (h file List.mem_cons_self) done).bind fun _ =>
      writeChanges_over plan left (done ++ [file]) fun f hf => h f (List.mem_cons_of_mem _ hf)

/-- Without operations and source directories, the writing is over when all edited files are written. -/
theorem writeAll_over {plan : Plan} (hnone : plan.edit.operations = [])
    (h : ∀ file ∈ plan.edit.changes, Rewritable t snapshots out file) :
    Runs (At (σ := σ) False (Over t out [])) (writeAll plan snapshots [])
      (fun _ => At False (Over t out plan.edit.changes)) fun _ => True := by
  unfold writeAll
  rw [hnone]
  refine (writeChanges_over plan plan.edit.changes [] h).bind fun _ => ?_
  exact heedCancel_runs (E := fun _ => True) fun _ _ _ => trivial

end Transaction

/-! ## Applies without operations -/

/-- Edits of a file of a tree that is no link, which fit its text. -/
structure Tree.Edited (t : Tree) (file : Path × List TextEdit) : Prop where
  nonempty : file.2 ≠ []
  absolute : file.1.isAbsolute = true
  unlinked : t.isLink file.1 = false
  text : ∃ b content, t.read file.1 = .ok b ∧ Bytes.text? b = some content ∧ ∀ e ∈ file.2, e.Fits content.toList

namespace Workspace

variable {plan : Plan} {w w₁ w' : Workspace σ} {snapshots : Snapshots} {heeds : Bool} {r : ApplyResult}

/-- The bytes of a file of a tree with its edits put in. -/
def rewritten (t : Tree) (file : Path × List TextEdit) : ByteArray :=
  Bytes.ofText (TextEdit.substituted (t.textOf file.1) file.2)

/-- The snapshots of a begun apply tell the texts of the edited files. -/
theorem Begun.rewritable (h : Begun plan w snapshots w₁) {file : Path × List TextEdit} (hmem : file ∈ plan.edit.changes)
    (hfile : (TreeBacked.tree w.disk).Edited file) :
    Transaction.Rewritable (TreeBacked.tree w.disk) snapshots (rewritten (TreeBacked.tree w.disk)) file := by
  obtain ⟨b, content, hread, htext, hfits⟩ := hfile.text
  refine ⟨hfile.nonempty, ⟨b, hread⟩, hfile.unlinked, fun text hedits => ?_⟩
  obtain ⟨bytes, before, hfind, hbefore, happly⟩ := hedits
  have hedited : file.1 ∈ plan.edit.editedFiles := by
    unfold WorkspaceEdit.editedFiles
    exact List.mem_map.mpr ⟨file, List.mem_filter.mpr ⟨hmem, by simpa using hfile.nonempty⟩, rfl⟩
  obtain ⟨state, q, hstate, _, hpq, hof⟩ := h.found (Or.inl hedited)
  obtain rfl : .content bytes = state := Option.some.inj (hfind.symm.trans hstate)
  obtain rfl := Tree.read_agree hfile.absolute hpq hread hof
  obtain rfl : content = before := Option.some.inj (htext.symm.trans hbefore)
  have hbeside := (WorkspaceEdit.forM_checkOverlaps_eq_ok_iff _).mp
    ((WorkspaceEdit.validate_eq_ok_iff _).mp h.checked).1 file hmem
  have hsubstituted := Except.ok.inj (happly.symm.trans (TextEdit.applyAll_eq_substitute file.1.raw content hbeside hfits))
  unfold rewritten
  rw [Tree.textOf_eq hread htext, hsubstituted]
  rfl

/-- An apply of text edits alone that commits has put them into the texts of their files and has touched nothing else. -/
theorem apply_rewrites (hnested : (TreeBacked.tree w.disk).Nested) (hoperations : plan.edit.operations = [])
    (hdirs : plan.dirCandidates = []) (hfiles : ∀ file ∈ plan.edit.changes, (TreeBacked.tree w.disk).Edited file)
    (hquiet : w.QuietHook) (hrun : (apply plan heeds).run.run w = (.ok r, w')) (hsuccess : r.success = true) :
    plan.edit.Rewrites (TreeBacked.tree w.disk) (TreeBacked.tree w'.disk) := by
  obtain ⟨snapshots, started, w₁, tx, hbegin, hwriting, htx⟩ := apply_success hquiet hrun hsuccess
  have hbegun := begin_ok hbegin
  obtain ⟨disk, htree, _, heq⟩ := writing_eq w₁ plan snapshots started heeds
  have hwhole : w₁.wholeDirs plan = [] := by
    unfold wholeDirs
    rw [hdirs]
    rfl
  have hstart : Transaction.Over (TreeBacked.tree w.disk) (rewritten (TreeBacked.tree w.disk)) []
      (outset started heeds disk).moment := by
    show (TreeBacked.tree w.disk).Replaced [] (TreeBacked.tree disk)
    rw [htree, hbegun.tree_eq.1]
    exact .nil hnested
  have hover := Transaction.writeAll_over (σ := σ) hoperations (fun file hfile => hbegun.rewritable hfile (hfiles file hfile))
    (outset started heeds disk) ⟨hstart, False.elim⟩
  rw [hwhole] at heq
  rw [← heq, hwriting] at hover
  rw [htx]
  intro q
  rcases hover.1.entries q with ⟨hsame, hfree⟩ | ⟨_, hout, hnew⟩
  · exact Or.inl ⟨hsame, fun file hfile => hfree _ (List.mem_map_of_mem hfile)⟩
  · obtain ⟨file, rfl, hlast⟩ := hout.of_map
    obtain ⟨b, content, hread, htext, _⟩ := (hfiles file hlast.mem).text
    obtain ⟨place, hplace, hget⟩ := Tree.read_eq_ok_iff_locate.mp hread
    obtain rfl : place = q := Except.ok.inj (hplace.symm.trans hlast.1)
    refine Or.inr ⟨file, b, content, hlast, hget, htext, ?_⟩
    rw [← Tree.textOf_eq hread htext]
    exact hnew

end Workspace

/-! ## Renames -/

namespace Planner

/-- The words to rename write each of their files in one way. -/
def WritesOnce (env : Planner) (old : String) (locations : List Location) : Prop :=
  ∀ l ∈ locations, ∀ l' ∈ locations, env.Renames old l → env.Renames old l' →
    env.tree.locate true l.path = env.tree.locate true l'.path → (l.path == l'.path) = true

/-- The tree of a planner with the new name in the place of the old one at each location that holds it as a whole word, and
with everything else as it was. -/
def Renamed (env : Planner) (old new : String) (locations : List Location) (t' : Tree) : Prop :=
  ∀ q, (t'.get? q = env.tree.get? q ∧ ∀ l ∈ locations, env.Renames old l → env.tree.locate true l.path ≠ .ok q) ∨
    ∃ b content edits, env.tree.get? q = some (.file b) ∧ Bytes.text? b = some content ∧ edits.Nodup ∧
      (∀ e, e ∈ edits ↔ ∃ l ∈ locations, env.Renames old l ∧ env.tree.locate true l.path = .ok q ∧
        e = .renaming old new l.range) ∧
      t'.get? q = some (.file (Bytes.ofText (TextEdit.substituted content edits)))

theorem Reads.located {env : Planner} {p : Path} {content : String} (h : env.Reads p content) :
    ∃ q, env.tree.locate true p = .ok q := by
  obtain ⟨_, hread, _⟩ := reads_iff.mp h
  obtain ⟨q, hq, _⟩ := Tree.read_eq_ok_iff_locate.mp hread
  exact ⟨q, hq⟩

end Planner

theorem WholeWord.fits {content : List Char} {range : Span} {old : String} (h : WholeWord content range old.toList)
    (new : String) : (TextEdit.renaming old new range).Fits content := by
  obtain ⟨before, after, rfl, hrange, _, _⟩ := h
  exact ⟨_, _, hrange, Or.inr (Text.slice?_eq_some_iff.mpr ⟨before, after, rfl, rfl, rfl⟩)⟩

/-- The edits of a plan that renames words fit the files, once these can be read and are no links. -/
theorem Plan.RenamesWords.edited {env : Planner} {root : Place} (hsited : env.Sited root) {plan : Plan}
    {old new : String} {locations : List Location} (h : plan.RenamesWords env old new locations)
    {file : Path × List TextEdit} (hfile : file ∈ plan.edit.changes) (hlink : env.tree.isLink file.1 = false)
    (hread : ∃ b, env.tree.read file.1 = .ok b) : env.tree.Edited file := by
  have hword : ∀ l, env.Renames old l → (file.1 == l.path) = true → l.path.isAbsolute = true ∧
      file.1.components = l.path.components := fun l hl hpath =>
    ⟨Planning.isAbsolute_of_inside hsited hl.1, (Path.beq_iff _ _).mp hpath⟩
  obtain ⟨first, hfirst⟩ := List.exists_mem_of_ne_nil _ (h.nonempty file hfile)
  obtain ⟨l, _, hl, hpath, _⟩ := (h.edits file hfile first).mp hfirst
  obtain ⟨habsolute, hcomponents⟩ := hword l hl hpath
  obtain ⟨b, hb⟩ := hread
  obtain ⟨_, content, hreads, _⟩ := hl
  obtain ⟨b', hb', htext⟩ := Planner.reads_iff.mp hreads
  obtain rfl := Tree.read_agree habsolute hcomponents.symm hb' hb
  refine ⟨h.nonempty file hfile, ?_, hlink, b', content, hb, htext, fun e he => ?_⟩
  · exact Path.isAbsolute_of_components (hcomponents ▸ Path.components_of_absolute habsolute)
  -- every edit is that of a word in this text, however the path of its location is written
  · obtain ⟨l', _, ⟨hin', content', hreads', hword'⟩, hpath', rfl⟩ := (h.edits file hfile e).mp he
    have hsame : (l.path == l'.path) = true := by
      rw [Path.beq_iff] at hpath' ⊢
      exact hcomponents.symm.trans hpath'
    obtain rfl := hreads.agree habsolute hsame hreads'
    exact hword'.fits new

/-- Where each file is written in one way, putting the edits of a rename into the files renames all words. -/
theorem Plan.RenamesWords.renamed {env : Planner} {plan : Plan} {old new : String} {locations : List Location}
    (h : plan.RenamesWords env old new locations) (hfiles : ∀ file ∈ plan.edit.changes, env.tree.Edited file) {t' : Tree}
    (hrewrites : plan.edit.Rewrites env.tree t') (honce : env.WritesOnce old locations) : env.Renamed old new locations t' := by
  -- a file of the plan and a word with its path are at one place
  have hplace : ∀ file ∈ plan.edit.changes, ∀ l, env.Renames old l → (file.1 == l.path) = true →
      env.tree.locate true file.1 = env.tree.locate true l.path := by
    rintro file hfile l ⟨_, content, hreads, _⟩ hpath
    obtain ⟨b, _, hread, _⟩ := (hfiles file hfile).text
    obtain ⟨place, hleads, _⟩ := Tree.read_eq_ok_iff_locate.mp hread
    obtain ⟨place', hleads'⟩ := hreads.located
    rw [hleads, hleads', Tree.locate_agree (hfiles file hfile).absolute ((Path.beq_iff _ _).mp hpath) hleads hleads']
  intro q
  rcases hrewrites q with ⟨hsame, hfree⟩ | ⟨file, b, content, hlast, hget, htext, hnew⟩
  · refine Or.inl ⟨hsame, fun l hl hrenames hleads => ?_⟩
    obtain ⟨file, hfile, hpath⟩ := h.complete l hl hrenames
    exact hfree file hfile ((hplace file hfile l hrenames hpath).trans hleads)
  · have hfile := hlast.mem
    refine Or.inr ⟨b, content, file.2, hget, htext, h.once file hfile, fun e => ?_, hnew⟩
    rw [h.edits file hfile]
    constructor
    · rintro ⟨l, hl, hrenames, hpath, rfl⟩
      exact ⟨l, hl, hrenames, (hplace file hfile l hrenames hpath).symm.trans hlast.1, rfl⟩
    · rintro ⟨l, hl, hrenames, hleads, rfl⟩
      obtain ⟨first, hfirst⟩ := List.exists_mem_of_ne_nil _ (h.nonempty file hfile)
      obtain ⟨l₀, hl₀, hrenames₀, hpath₀, _⟩ := (h.edits file hfile first).mp hfirst
      have hleads₀ := (hplace file hfile l₀ hrenames₀ hpath₀).symm.trans hlast.1
      have hpath := honce l₀ hl₀ l hl hrenames₀ hrenames (hleads₀.trans hleads.symm)
      rw [Path.beq_iff] at hpath hpath₀
      exact ⟨l, hl, hrenames, (Path.beq_iff _ _).mpr (hpath₀.trans hpath), rfl⟩

namespace Planning

/-- **Renames at a position.** Whatever locations are answered, planning a rename meets no conflict. Its plan has one edit
for each different location in the root that holds the old name as a whole word and a warning for every other one in the
root. An apply that commits has put the edits of the last path to each file into its text and has touched nothing else; when
the words write each file in one way, it has put the new name in the place of all of them. -/
theorem build_rename_rewrites {env : Planner} {root : Place} (hsited : env.Sited root)
    (hnested : env.tree.Nested) {file : Path} {position : Position} {source old : String} {locations : List Location}
    (hsource : env.Reads (file.resolveIn env.root) source) (hold : identifierAt? source.toList position = some old)
    (hlocations : env.intelligence.references (file.resolveIn env.root) position = .ok locations)
    (hread : ∀ l ∈ locations, l.path.startsWith env.root = true → ∃ content, env.Reads l.path content)
    (id : PlanId) (newName : String) :
    Fails env (build id (.renameSymbol (.position file position) newName)) (·.kind ≠ .conflict) ∧
      ∀ plan, Builds env id (.renameSymbol (.position file position) newName) plan →
        plan.RenamesWords env old newName locations ∧
        ∀ {σ : Type} [TreeBacked σ] (w w' : Workspace σ) (heeds : Bool) (r : ApplyResult), w.QuietHook →
          TreeBacked.tree w.disk = env.tree → (Workspace.apply plan heeds).run.run w = (.ok r, w') → r.success = true →
          plan.edit.Rewrites env.tree (TreeBacked.tree w'.disk) ∧
            (env.WritesOnce old locations → env.Renamed old newName locations (TreeBacked.tree w'.disk)) := by
  refine ⟨build_rename_fails hsited hsource hold hlocations hread id newName, fun plan hbuilds => ?_⟩
  have hplan : plan.RenamesWords env old newName locations := by
    obtain ⟨s, s', hrun⟩ := hbuilds
    obtain ⟨_, heq, hplan⟩ := build_rename_yields hsited hsource hold hlocations hread id newName s _ s' hrun
    cases heq
    exact hplan
  obtain ⟨hunlinked, _⟩ := hbuilds.touched_links hsited
  have hrecords := (hbuilds.records hsited).affected
  have hdirs : plan.dirCandidates = [] := by
    have hoperation : plan.operation = Operation.anchored env.root (.renameSymbol (.position file position) newName) :=
      hbuilds.of_yields (build_of_draft (draftOf_plain hsited _) fun _ _ => finalize_drafted.mono fun _ h => h.2)
    unfold Plan.dirCandidates
    rw [hoperation]
    rfl
  have hfiles : ∀ file ∈ plan.edit.changes, env.tree.Edited file := fun file hfile => by
    have haffects : plan.edit.Affects file.1 := by
      refine Or.inl (List.mem_map.mpr ⟨file, List.mem_filter.mpr ⟨hfile, ?_⟩, rfl⟩)
      simpa using hplan.nonempty file hfile
    obtain ⟨b, hb, _⟩ := hrecords _ haffects
    exact hplan.edited hsited hfile (hunlinked _ haffects) ⟨b, hb⟩
  refine ⟨hplan, fun w w' heeds r hquiet htree hrun hsuccess => ?_⟩
  have hrewrites : plan.edit.Rewrites env.tree (TreeBacked.tree w'.disk) := by
    rw [← htree] at hfiles ⊢
    exact Workspace.apply_rewrites (htree ▸ hnested) hplan.operations hdirs hfiles hquiet hrun hsuccess
  exact ⟨hrewrites, hplan.renamed hfiles hrewrites⟩

end Planning

/-- A planner for a file with a name and a longer one, where the name is said to be used twice at one place, and once in the
longer name. -/
def Planner.answeringTwice : Planner :=
  { Planner.inDirectory ⟨[(["w"], .dir), (["w", "a.ts"], .file (Bytes.ofText "foo(foobar)"))]⟩ with
    intelligence := ⟨fun _ _ => .ok [⟨⟨"/w/a.ts"⟩, ⟨0, 0, 0, 3⟩⟩, ⟨⟨"/w/a.ts"⟩, ⟨0, 4, 0, 7⟩⟩, ⟨⟨"/w/a.ts"⟩, ⟨0, 0, 0, 3⟩⟩],
      fun _ => .ok [], fun _ _ _ => .ok {}⟩ }

theorem Planner.answeringTwice_sited : Planner.answeringTwice.Sited ["w"] :=
  ⟨rfl, rfl, by decide, Tree.Named.of_entries (by decide)⟩

theorem Planner.answeringTwice_reads : Planner.answeringTwice.Reads ⟨"/w/a.ts"⟩ "foo(foobar)" := by
  rw [Planner.reads_iff]
  exact ⟨Bytes.ofText "foo(foobar)", by decide +kernel, by decide +kernel⟩

/-- The word is renamed, and the beginning of the longer name stays. -/
theorem Planning.build_rename_rewrites_once : ∃ plan,
    Builds .answeringTwice ⟨1⟩ (.renameSymbol (.position ⟨"a.ts"⟩ ⟨0, 1⟩) "bar") plan ∧
      plan.RenamesWords .answeringTwice "foo" "bar"
        [⟨⟨"/w/a.ts"⟩, ⟨0, 0, 0, 3⟩⟩, ⟨⟨"/w/a.ts"⟩, ⟨0, 4, 0, 7⟩⟩, ⟨⟨"/w/a.ts"⟩, ⟨0, 0, 0, 3⟩⟩] ∧
      ∃ r w', (Workspace.apply plan false).run.run (.ofTree Planner.answeringTwice.tree) = (.ok r, w') ∧
        r.success = true ∧ plan.edit.Rewrites Planner.answeringTwice.tree w'.disk.tree ∧
          Planner.answeringTwice.Renamed "foo" "bar"
            [⟨⟨"/w/a.ts"⟩, ⟨0, 0, 0, 3⟩⟩, ⟨⟨"/w/a.ts"⟩, ⟨0, 4, 0, 7⟩⟩, ⟨⟨"/w/a.ts"⟩, ⟨0, 0, 0, 3⟩⟩] w'.disk.tree := by
  obtain ⟨plan, hbuilds, hcommits⟩ := exists_builds .answeringTwice ⟨1⟩
    (.renameSymbol (.position ⟨"a.ts"⟩ ⟨0, 1⟩) "bar")
    (Workspace.commits (.ofTree Planner.answeringTwice.tree)) (by decide +kernel)
  obtain ⟨r, w', hrun, hsuccess⟩ := Workspace.commits_iff.mp hcommits
  have hsorted : (Planner.answeringTwice.tree.entries.map (·.1)).Pairwise (· < ·) := by decide
  have hnested : Planner.answeringTwice.tree.Nested := .ofEntries (List.pairwise_map.mp hsorted) (by decide)
  have hsource : Planner.answeringTwice.Reads ((⟨"a.ts"⟩ : Path).resolveIn Planner.answeringTwice.root) "foo(foobar)" := by
    rw [Planner.reads_iff]
    exact ⟨Bytes.ofText "foo(foobar)", by decide +kernel, by decide +kernel⟩
  have hold : identifierAt? "foo(foobar)".toList ⟨0, 1⟩ = some "foo" := by decide +kernel
  obtain ⟨_, hplans⟩ := build_rename_rewrites Planner.answeringTwice_sited hnested hsource hold rfl (fun l hl _ =>
    ⟨"foo(foobar)", by
      simp only [List.mem_cons, List.not_mem_nil, or_false] at hl
      rcases hl with rfl | rfl | rfl <;> exact Planner.answeringTwice_reads⟩) ⟨1⟩ "bar"
  obtain ⟨hrenames, happly⟩ := hplans plan hbuilds
  obtain ⟨hrewrites, hrenamed⟩ := happly (Workspace.ofTree _) w' false r (Workspace.ofTree_quiet _) rfl hrun hsuccess
  refine ⟨plan, hbuilds, hrenames, r, w', hrun, hsuccess, hrewrites, hrenamed fun l hl l' hl' _ _ _ => ?_⟩
  simp only [List.mem_cons, List.not_mem_nil, or_false] at hl hl'
  rcases hl with rfl | rfl | rfl <;> rcases hl' with rfl | rfl | rfl <;> rfl

end Refactor
