import Refactor.Proofs.Apply.Committed
import Refactor.Proofs.Planning.Coverage
import Refactor.Proofs.Reference.Restored

/-!
# Moves that are taken back

The plan of the move of a file has the edits that the search plans for the files of the project, and an apply that commits
leaves just their texts, one of them at its new place. When every file of the project gets its content back, the move back
leaves the files as they were.

* `Planning.MovesFile`, `Planning.build_movesFile` — the edit of a plan that moves a file
* `Files.moved` — the files once one of them has moved
* `Workspace.CommitsMove`, `Workspace.CommitsMove.files` — a move that is planned, applied and committed
* `Planning.MovesFile.edited_back` — the edits of the move and those of the move back
* `Workspace.CommitsMove.back` — with the move back, the files are those of before
-/

namespace Refactor

open Tree (pathOf placeOf)
open Path (IsName)

/-! ## Plans of the move of a file -/

namespace Planning

variable {env : Planner} {root : Place}

/-- The edit that moves one file: nothing else moves, and the text edits are those that the search plans for the files of
the project. -/
structure MovesFile (env : Planner) (c : ImportCache) (a b : Path) (overwrite : Bool) (edit : WorkspaceEdit) : Prop where
  operations : edit.operations = [.move a b overwrite]
  sorted : edit.changes.Sorted
  only : edit.Only (· ∈ env.references.projectFiles env.tree)
  once : ∀ p, (edit.editsOf p).Nodup
  edits : ∀ p e, e ∈ edit.editsOf p ↔ ∃ file ∈ env.references.projectFiles env.tree, (p == file) = true ∧
    e ∈ env.references.planned env.tree (.single a b) c file

theorem planChecked_file {m : CheckedMove} (hm : m.kind = .file) (overwrite : Bool) : planChecked [m] overwrite = (do
    let found ← search fun r t => r.planMoves t (.single m.source m.destination)
    return draftWith found overwrite [(m.source, m.destination)]) := by
  have hexpand : expandMove overwrite m = pure [(m.source, m.destination)] := by
    unfold expandMove
    rw [hm]
  have hcontext : contextOf [m] [[(m.source, m.destination)]] = .single m.source m.destination := by
    unfold contextOf
    rw [List.filter_cons_of_neg (by simp [hm])]
    rfl
  rw [planChecked_eq, List.mapM_cons, List.mapM_nil, hexpand]
  simp only [pure_bind]
  rw [hcontext]
  rfl

theorem planMove_file {source destination : Path} {overwrite : Bool} {expected : Option PathKind} {s s₁ : PlanningState}
    {d : Draft} (hrun : ((planMove source destination overwrite expected).run env).run.run s = (.ok d, s₁))
    (hfile : env.tree.isDir source = false) : d = draftWith
      ((env.references.planMoves env.tree (.single source destination)).run s.cache).1 overwrite [(source, destination)] := by
  obtain ⟨m, hm, hchecked⟩ := planMove_run hrun
  have hkind : m.kind = .file := by rw [hm.kind, hfile, if_neg (by simp)]
  rw [planChecked_file hkind, hm.source_eq, hm.destination_eq] at hchecked
  obtain ⟨found, s₂, hfound, hend⟩ := run_bind_inv hchecked
  cases hend
  cases hfound
  rfl

/-- The plan of the move of a path that is no directory moves one file. -/
theorem build_movesFile (h : env.Sited root) {id : PlanId} {a b : Path} {overwrite : Bool} {plan : Plan}
    {s s₁ : PlanningState} (hrun : ((build id (.move a b overwrite)).run env).run.run s = (.ok (.ready plan), s₁))
    (hfile : env.tree.isDir (a.resolveIn env.root) = false) :
    MovesFile env s.cache (a.resolveIn env.root) (b.resolveIn env.root) overwrite plan.edit := by
  obtain ⟨d, hdraft, hmerge, -⟩ := build_inv hrun
  have hd := planMove_file (inl_inv hdraft) hfile
  have hblind : ∀ known, ∀ file ∈ env.references.projectFiles env.tree, Blind (env.references.Alike env.tree s.cache)
      (env.references.scan env.tree known file) := fun known file hfile =>
    References.scan_alike (unambiguous h) s.cache known hfile
  obtain ⟨hsorted, hplanned⟩ := References.planMoves_planned
    (.single (a.resolveIn env.root) (b.resolveIn env.root)) hblind (.refl _ _ _)
  have hedits : Ends (fun _ => True)
      (env.references.planMoves env.tree (.single (a.resolveIn env.root) (b.resolveIn env.root))) _ :=
    References.planMoves_edits
  obtain ⟨hnone, honly⟩ := hedits s.cache trivial
  generalize ((env.references.planMoves env.tree (.single (a.resolveIn env.root) (b.resolveIn env.root))).run s.cache).1 =
    found at hd hsorted hplanned hnone honly
  subst hd
  have hunion := WorkspaceEdit.merge_isUnion hmerge
  refine ⟨?_, hunion.files, (WorkspaceEdit.merge_keeps hmerge).2 honly, hunion.editsOf_nodup, fun p e => ?_⟩
  · rw [hunion.operations, List.flatMap_singleton]
    show found.edit.operations ++ [_] = _
    rw [hnone]
    rfl
  · refine hunion.mem_editsOf.trans ((WorkspaceEdit.brings_singleton_iff ?_).trans (hplanned p e))
    exact hsorted

theorem build_moveOk (h : env.Rooted root) {id : PlanId} {a b : Path} {overwrite : Bool} {plan : Plan}
    {s s₁ : PlanningState} (hrun : ((build id (.move a b overwrite)).run env).run.run s = (.ok (.ready plan), s₁)) :
    ∃ src dst, a.resolveIn env.root = pathOf src ∧ b.resolveIn env.root = pathOf dst ∧
      MoveOk env.tree root overwrite src dst := by
  obtain ⟨d, hdraft, -⟩ := build_inv hrun
  obtain ⟨m, hm, -⟩ := planMove_run (inl_inv hdraft)
  obtain ⟨⟨src, dst⟩, hsource, hdestination, -, hok⟩ :=
    hm.places h (resolveIn_resolved h.sited a) (resolveIn_resolved h.sited b)
  exact ⟨src, dst, hsource, hdestination, hok⟩

namespace MovesFile

variable {c : ImportCache} {a b : Path} {overwrite : Bool} {edit : WorkspaceEdit} (h : MovesFile env c a b overwrite edit)
  (hsited : env.Sited root)

include h hsited

/-- What is no file of the project has no text edits. -/
theorem edited_other {F : Files} {q : Place} (hq : pathOf q ∉ env.references.projectFiles env.tree) :
    edit.edited F q = F q := by
  refine WorkspaceEdit.edited_of_free fun p _ hmem _ hplace => hq ?_
  have hp := h.only _ hmem
  obtain ⟨place, hnames, -, hpath⟩ := projectFiles_placed hsited p hp
  rw [← hplace, hpath, Tree.placeOf_names hnames, ← hpath]
  exact hp

theorem distinct : edit.Distinct := WorkspaceEdit.distinct_of_sorted h.sorted h.only fun _ _ hp hq hplace =>
  eq_of_placeOf hsited hp hq hplace

theorem mem_changes {p : Path} (hp : p ∈ env.references.projectFiles env.tree) {es : List TextEdit} (hes : es ≠ []) :
    (p, es) ∈ edit.changes ↔ edit.editsOf p = es := by
  unfold WorkspaceEdit.editsOf
  constructor
  · intro hmem
    rw [h.sorted.find?_of_mem hmem, Option.getD_some]
  · rintro rfl
    cases hfind : edit.changes.find? p with
    | none =>
      rw [hfind] at hes
      exact absurd rfl hes
    | some es =>
      obtain ⟨⟨q, _⟩, hmem, hbeq, rfl⟩ := PathMap.exists_entry_of_find? hfind
      obtain rfl := unambiguous hsited q (h.only _ hmem) p hp hbeq
      exact hmem

/-- A file of the project gets the text that the plan of the move makes of it. -/
theorem edited {F : Files} {p : Path} (hp : p ∈ env.references.projectFiles env.tree) {bytes bytes' : ByteArray}
    (hcache : env.references.Alike env.tree {} c) (hread : env.tree.read p = .ok bytes) (hF : F (placeOf p) = some bytes)
    (hwoven : env.references.Rewoven (env.references.knownFiles env.tree) (.single a b) p bytes bytes') :
    edit.edited F (placeOf p) = some bytes' := by
  have hscan := References.scan_seen (unambiguous hsited) hcache (env.references.knownFiles env.tree) hp hread
  have hes : (edit.editsOf p).Perm (env.references.planned env.tree (.single a b) c p) := by
    refine (List.perm_ext_iff_of_nodup (h.once p) (hwoven.planned_nodup hscan)).mpr fun e => ?_
    rw [h.edits]
    constructor
    · rintro ⟨q, hq, hbeq, he⟩
      rwa [unambiguous hsited p hp q hq hbeq]
    · exact fun he => ⟨p, hp, BEq.rfl, he⟩
  obtain ⟨hkept, hrendered⟩ := hwoven.rendered hscan hes
  by_cases hnone : edit.editsOf p = []
  · rw [hkept hnone, ← hF]
    refine WorkspaceEdit.edited_of_free fun q es hmem hne hplace => hne ?_
    obtain rfl := eq_of_placeOf hsited (h.only _ hmem) hp hplace
    rw [← (h.mem_changes hsited hp hne).mp hmem, hnone]
  · rw [WorkspaceEdit.edited_of_mem (h.distinct hsited) ((h.mem_changes hsited hp hnone).mpr rfl) hnone]
    exact hrendered F hF hnone

end MovesFile

end Planning

/-! ## Applied moves -/

/-- The place of a file once the file at one place has moved to another one. -/
def movedPlace (src dst q : Place) : Place := if q = src then dst else q

/-- The files once one of them has moved. -/
def Files.moved (f : Files) (src dst : Place) : Files := fun q => if q = dst then f src else if q = src then none else f q

section

variable {src dst q : Place}

theorem movedPlace_back (hq : q ≠ dst) : movedPlace dst src (movedPlace src dst q) = q := by
  unfold movedPlace
  by_cases hsrc : q = src
  · rw [if_pos hsrc, if_pos rfl, hsrc]
  · rw [if_neg hsrc, if_neg hq]

theorem movedPlace_names (hdst : ∀ s ∈ dst, IsName s) (hq : ∀ s ∈ q, IsName s) :
    ∀ s ∈ movedPlace src dst q, IsName s := by
  unfold movedPlace
  split
  · exact hdst
  · exact hq

theorem Moves.place_pathOf (hsrc : ∀ s ∈ src, IsName s) (hq : ∀ s ∈ q, IsName s) :
    (Moves.single (pathOf src) (pathOf dst)).place (pathOf q) = pathOf (movedPlace src dst q) := by
  rw [Moves.place_single, movedPlace]
  simp only [Path.pathOf_beq_iff hq hsrc]
  split <;> rfl

namespace Files

theorem moved_source (f : Files) (hne : src ≠ dst) : f.moved src dst src = none := by
  rw [moved, if_neg hne, if_pos rfl]

theorem moved_movedPlace (f : Files) (hq : q ≠ dst) : f.moved src dst (movedPlace src dst q) = f q := by
  unfold moved movedPlace
  by_cases hsrc : q = src
  · rw [if_pos hsrc, if_pos rfl, hsrc]
  · rw [if_neg hsrc, if_neg hq, if_neg hsrc]

theorem moved_back (f : Files) (hq : q ≠ dst) : f.moved dst src q = f (movedPlace src dst q) := by
  unfold moved movedPlace
  by_cases hsrc : q = src
  · rw [if_pos hsrc, if_pos hsrc]
  · rw [if_neg hsrc, if_neg hq, if_neg hsrc]

theorem effect_move (f : Files) (hsrc : ∀ s ∈ src, IsName s) (hdst : ∀ s ∈ dst, IsName s) (overwrite : Bool) :
    FileOperation.effect f (.move (pathOf src) (pathOf dst) overwrite) = f.moved src dst := by
  funext q
  show (if some (placeOf (pathOf dst)) = some q then f (placeOf (pathOf src))
    else if some (placeOf (pathOf src)) = some q then none else f q) = f.moved src dst q
  rw [Tree.placeOf_names hsrc, Tree.placeOf_names hdst, moved]
  simp only [Option.some.injEq, eq_comm]

end Files

end

namespace Workspace

variable {σ : Type} [TreeBacked σ] {env : Planner} {root : Place} {w w' : Workspace σ} {a b : Path} {overwrite : Bool}

/-- The move of a path is planned in the tree of a workspace, with a cache that makes no difference, and its apply commits. -/
structure CommitsMove (env : Planner) (w : Workspace σ) (a b : Path) (overwrite : Bool) (w' : Workspace σ) : Prop where
  tree : env.tree = TreeBacked.tree w.disk
  quiet : w.QuietHook
  committed : ∃ id s s₁ plan heeds r, env.Alike {} s ∧
    ((Planning.build id (.move a b overwrite)).run env).run.run s = (.ok (.ready plan), s₁) ∧
    (apply plan heeds).run.run w = (.ok r, w') ∧ r.success = true

/-- After the move of a file, the files are those of before with their references anew and with one of them moved. -/
theorem CommitsMove.files (h : CommitsMove env w a b overwrite w') (henv : env.Rooted root)
    (hfile : env.tree.isDir (a.resolveIn env.root) = false) : ∃ src dst c edit, a.resolveIn env.root = pathOf src ∧
      b.resolveIn env.root = pathOf dst ∧ MoveOk env.tree root overwrite src dst ∧ env.references.Alike env.tree {} c ∧
      Planning.MovesFile env c (pathOf src) (pathOf dst) overwrite edit ∧
      (TreeBacked.tree w'.disk).fileAt = (edit.edited env.tree.fileAt).moved src dst := by
  obtain ⟨id, s, s₁, plan, heeds, r, hcache, hbuild, hrun, hsuccess⟩ := h.committed
  obtain ⟨src, dst, hsrc, hdst, hok⟩ := Planning.build_moveOk henv hbuild
  have hmoves := Planning.build_movesFile henv.sited hbuild hfile
  rw [hsrc, hdst] at hmoves
  have hgrounded := (Planning.Builds.planned henv ⟨s, s₁, hbuild⟩).grounded henv
  have hfiles := apply_files h.quiet hgrounded (hmoves.distinct henv.sited) (h.tree ▸ henv.wellFormed) hrun hsuccess
  refine ⟨src, dst, s.cache, plan.edit, hsrc, hdst, hok, hcache, hmoves, ?_⟩
  rw [hfiles, ← h.tree, WorkspaceEdit.result, hmoves.operations,
    ← FileOperation.foldl_effect (List.pairwise_singleton _ _) _]
  exact Files.effect_move _ hok.src_names hok.dst_names overwrite

end Workspace

/-! ## There and back -/

theorem Path.below_pathOf {root place : Place} (hnames : ∀ s ∈ place, IsName s) (hin : root <+: place)
    (hne : place ≠ root) : (pathOf root).Below (pathOf place) := by
  have hroot : ∀ s ∈ root, IsName s := fun s hs => hnames s (hin.subset hs)
  refine ⟨⟨Path.isAbsolute_of_components (Path.components_names hnames), ?_⟩,
    (Planning.startsWith_pathOf_iff hnames hroot).mpr hin, ?_⟩
  · rw [Path.components_names hnames]
    simp
  · rw [← Bool.not_eq_true, Path.pathOf_beq_iff hnames hroot]
    exact hne

theorem Path.normal_pathOf {place : Place} (hnames : ∀ s ∈ place, IsName s) : (pathOf place).Normal := by
  refine ⟨Path.isAbsolute_of_components (Path.components_names hnames), ?_⟩
  rw [Path.components_names hnames]
  simp

section

variable {env : Planner} {root src dst : Place} {overwrite : Bool} (henv : env.Rooted root)
  (hok : MoveOk env.tree root overwrite src dst) (hfree : env.tree.get? dst = none)

include henv hok

theorem MoveOk.root_dir : env.tree.get? root = some .dir := by
  obtain ⟨rest, hrest⟩ := hok.src_in
  refine henv.wellFormed.dir_of_lt rest ?_ (hrest ▸ hok.there)
  rintro rfl
  exact hok.src_ne_root (by rw [← hrest, List.append_nil])

include hfree

/-- A file of the project stands at a place that nothing moves to, and its new place lies below the root as well. -/
theorem MoveOk.place_file {p : Path} (hp : p ∈ env.references.projectFiles env.tree) :
    ∃ place, (∀ s ∈ place, IsName s) ∧ place ≠ dst ∧ p = pathOf place ∧ env.references.root.Below p ∧
      env.references.root.Below (pathOf (movedPlace src dst place)) := by
  have hroot := hok.root_dir henv
  unfold References.projectFiles at hp
  rw [henv.searched, henv.root_eq] at hp ⊢
  obtain ⟨place, b, hin, rfl, hget⟩ :=
    Tree.projectFiles_stand henv.wellFormed.nested ⟨_, Tree.entry_straight henv.wellFormed.nested hroot (by simp)⟩ hp
  have hnames : ∀ s ∈ place, IsName s := henv.wellFormed.isName (by rw [hget]; simp)
  have hbelow : (pathOf root).Below (pathOf place) := by
    refine Path.below_pathOf hnames hin ?_
    rintro rfl
    rw [hroot] at hget
    cases hget
  refine ⟨place, hnames, ?_, rfl, hbelow, ?_⟩
  · rintro rfl
    rw [hfree] at hget
    cases hget
  · unfold movedPlace
    split
    · refine Path.below_pathOf hok.dst_names hok.dst_in ?_
      rintro rfl
      rw [hroot] at hfree
      cases hfree
    · exact hbelow

/-- What the move makes of a file of the project that gets its content back, the move back undoes. -/
theorem MoveOk.rewoven {p : Path} (hp : p ∈ env.references.projectFiles env.tree) {bytes : ByteArray}
    (hrestored : env.references.Restored (env.references.projectFiles env.tree) (.single (pathOf src) (pathOf dst)) p
      bytes) :
    ∃ bytes', env.references.Rewoven (env.references.knownFiles env.tree) (.single (pathOf src) (pathOf dst)) p bytes
        bytes' ∧
      env.references.Rewoven (.ofFiles env.references.root
          ((env.references.projectFiles env.tree).map (Moves.single (pathOf src) (pathOf dst)).place))
        (.single (pathOf dst) (pathOf src)) ((Moves.single (pathOf src) (pathOf dst)).place p) bytes' bytes := by
  refine hrestored.rewoven ?_ (fun p hp => ?_) (fun p hp => ?_) (by simp [Moves.single]) (by simp [Moves.single])
    (fun p hp => ?_) hp
  · rw [henv.searched, henv.root_eq]
    exact Path.normal_pathOf henv.names
  · obtain ⟨place, -, -, -, hbelow, -⟩ := hok.place_file henv hfree hp
    exact hbelow
  · obtain ⟨place, hnames, -, rfl, -, hbelow⟩ := hok.place_file henv hfree hp
    rwa [Moves.place_pathOf hok.src_names hnames]
  · obtain ⟨place, hnames, hne, rfl, -, -⟩ := hok.place_file henv hfree hp
    rw [Moves.place_pathOf hok.src_names hnames, Moves.place_pathOf hok.dst_names (movedPlace_names hok.dst_names hnames),
      movedPlace_back hne]
    exact BEq.rfl

end

namespace Planning

section

variable {env env' : Planner} {root src dst : Place} {c c' : ImportCache} {overwrite overwrite' : Bool}
  {edit edit' : WorkspaceEdit} (henv : env.Rooted root) (hok : MoveOk env.tree root overwrite src dst)
  (hfree : env.tree.get? dst = none) (hmoves : MovesFile env c (pathOf src) (pathOf dst) overwrite edit)
  (hcache : env.references.Alike env.tree {} c)
  (hrestored : ∀ p ∈ env.references.projectFiles env.tree, ∀ bytes, env.tree.read p = .ok bytes →
    env.references.Restored (env.references.projectFiles env.tree) (.single (pathOf src) (pathOf dst)) p bytes)

include henv hok hfree hmoves hcache hrestored

theorem MovesFile.edited_there {q : Place} {bytes : ByteArray} (hF : env.tree.fileAt q = some bytes) : ∃ bytes',
    edit.edited env.tree.fileAt q = some bytes' ∧
    (pathOf q ∉ env.references.projectFiles env.tree → bytes' = bytes) ∧
    (pathOf q ∈ env.references.projectFiles env.tree → env.references.Rewoven (.ofFiles env.references.root
        ((env.references.projectFiles env.tree).map (Moves.single (pathOf src) (pathOf dst)).place))
      (.single (pathOf dst) (pathOf src)) (pathOf (movedPlace src dst q)) bytes' bytes) := by
  have hnames : ∀ s ∈ q, IsName s := henv.wellFormed.isName (by rw [Tree.fileAt_eq_some_iff.mp hF]; simp)
  by_cases hproject : pathOf q ∈ env.references.projectFiles env.tree
  · have hread := (Tree.read_names_iff henv.wellFormed hnames).mpr hF
    obtain ⟨bytes', hwoven, hwoven'⟩ := hok.rewoven henv hfree hproject (hrestored _ hproject bytes hread)
    have hedited := hmoves.edited (F := env.tree.fileAt) henv.sited hproject hcache hread
      (by rwa [Tree.placeOf_names hnames]) hwoven
    rw [Tree.placeOf_names hnames] at hedited
    rw [Moves.place_pathOf hok.src_names hnames] at hwoven'
    exact ⟨bytes', hedited, fun hother => absurd hproject hother, fun _ => hwoven'⟩
  · refine ⟨bytes, ?_, fun _ => rfl, fun h => absurd h hproject⟩
    rw [hmoves.edited_other henv.sited hproject, hF]

/-- The edits of the move of a file and those of the move back leave the files as they were. -/
theorem MovesFile.edited_back (henv' : env'.Rooted root) (hreferences : env'.references = env.references)
    (hcache' : env'.references.Alike env'.tree {} c')
    (hmoves' : MovesFile env' c' (pathOf dst) (pathOf src) overwrite' edit')
    (hfiles : ∀ p, p ∈ env'.references.projectFiles env'.tree ↔
      p ∈ (env.references.projectFiles env.tree).map (Moves.single (pathOf src) (pathOf dst)).place)
    (htree : env'.tree.fileAt = (edit.edited env.tree.fileAt).moved src dst)
    {q : Place} (hq : q ≠ dst) : edit'.edited env'.tree.fileAt (movedPlace src dst q) = env.tree.fileAt q := by
  cases hF : env.tree.fileAt q with
  | none =>
    refine WorkspaceEdit.edited_eq_none ?_
    rw [htree, Files.moved_movedPlace _ hq]
    exact WorkspaceEdit.edited_eq_none hF
  | some bytes =>
    have hnames : ∀ s ∈ q, IsName s := henv.wellFormed.isName (by rw [Tree.fileAt_eq_some_iff.mp hF]; simp)
    have hmoved : ∀ s ∈ movedPlace src dst q, IsName s := movedPlace_names hok.dst_names hnames
    obtain ⟨bytes', hedited, hother, hproject⟩ := hmoves.edited_there henv hok hfree hcache hrestored hF
    rw [← Files.moved_movedPlace (edit.edited env.tree.fileAt) hq, ← htree] at hedited
    by_cases hin : pathOf q ∈ env.references.projectFiles env.tree
    · have hin' : pathOf (movedPlace src dst q) ∈ env'.references.projectFiles env'.tree :=
        (hfiles _).mpr (List.mem_map.mpr ⟨_, hin, Moves.place_pathOf hok.src_names hnames⟩)
      have hwoven' : env'.references.Rewoven (env'.references.knownFiles env'.tree) (.single (pathOf dst) (pathOf src))
          (pathOf (movedPlace src dst q)) bytes' bytes := by
        rw [hreferences] at hfiles ⊢
        refine (hproject hin).alike ((KnownFiles.records_ofFiles _ _).alike (KnownFiles.records_ofFiles _ _)
          (KnownFiles.writtenAlike_places fun p hp => ?_) hfiles)
        obtain ⟨_, hp₀, rfl⟩ := List.mem_map.mp hp
        obtain ⟨place, hplace, -, rfl, -, -⟩ := hok.place_file henv hfree hp₀
        exact ⟨_, movedPlace_names hok.dst_names hplace, Moves.place_pathOf hok.src_names hplace⟩
      have hread' := (Tree.read_names_iff henv'.wellFormed hmoved).mpr hedited
      rw [← Tree.placeOf_names hmoved] at hedited ⊢
      exact hmoves'.edited henv'.sited hin' hcache' hread' hedited hwoven'
    · rw [hmoves'.edited_other henv'.sited fun hin' => hin ?_, hedited, hother hin]
      obtain ⟨p, hp, hsame⟩ := List.mem_map.mp ((hfiles _).mp hin')
      obtain ⟨place, hplace, hne, rfl, -, -⟩ := hok.place_file henv hfree hp
      rw [Moves.place_pathOf hok.src_names hplace] at hsame
      have hplaces := congrArg placeOf hsame
      rw [Tree.placeOf_names (movedPlace_names hok.dst_names hplace), Tree.placeOf_names hmoved] at hplaces
      rwa [← movedPlace_back hq, ← hplaces, movedPlace_back hne]

end

end Planning

namespace Workspace

variable {σ : Type} [TreeBacked σ] {env env' : Planner} {root : Place} {w w₁ w₂ : Workspace σ} {a b : Path}
  {overwrite overwrite' : Bool}

/-- A file that is moved to a free place and moved back leaves the files of the workspace as they were, when the project has
the same files meanwhile, one of them moved, and each of them gets its content back. -/
theorem CommitsMove.back (henv : env.Rooted root) (henv' : env'.Rooted root) (hreferences : env'.references = env.references)
    (hthere : CommitsMove env w a b overwrite w₁) (hback : CommitsMove env' w₁ b a overwrite' w₂)
    (hfile : env.tree.isDir (a.resolveIn env.root) = false) (hfree : env.tree.exists? (b.resolveIn env.root) = false)
    (hfiles : ∀ p, p ∈ env'.references.projectFiles env'.tree ↔ p ∈ (env.references.projectFiles env.tree).map
      (Moves.single (a.resolveIn env.root) (b.resolveIn env.root)).place)
    (hrestored : ∀ p ∈ env.references.projectFiles env.tree, ∀ bytes, env.tree.read p = .ok bytes →
      env.references.Restored (env.references.projectFiles env.tree)
        (.single (a.resolveIn env.root) (b.resolveIn env.root)) p bytes) :
    (TreeBacked.tree w₂.disk).fileAt = (TreeBacked.tree w.disk).fileAt := by
  obtain ⟨src, dst, c, edit, hsrc, hdst, hok, hcache, hmoves, htree⟩ := hthere.files henv hfile
  rw [hsrc, hdst] at hfiles hrestored
  have hdstFree : env.tree.get? dst = none := by
    rw [hdst, ← Bool.not_eq_true, Tree.exists?_names_iff henv.wellFormed hok.dst_names, not_not] at hfree
    exact hfree
  -- what has moved is a file again
  obtain ⟨bytes, hbytes⟩ : ∃ bytes, env.tree.fileAt src = some bytes := by
    obtain ⟨e, he⟩ := Option.ne_none_iff_exists'.mp hok.there
    rcases henv.wellFormed.file_or_dir he with rfl | ⟨bytes, rfl⟩
    · rw [hsrc, (Tree.isDir_names_iff henv.wellFormed hok.src_names).mpr he] at hfile
      cases hfile
    · exact ⟨bytes, Tree.fileAt_eq_some_iff.mpr he⟩
  obtain ⟨bytes', hedited, -, -⟩ := hmoves.edited_there henv hok hdstFree hcache hrestored hbytes
  rw [← hback.tree] at htree
  have hroot : env'.root = env.root := henv'.root_eq.trans henv.root_eq.symm
  have hmoved : env'.tree.fileAt dst = some bytes' := by rw [htree, Files.moved, if_pos rfl, hedited]
  have hfile' : env'.tree.isDir (b.resolveIn env'.root) = false := by
    rw [hroot, hdst, ← Bool.not_eq_true, Tree.isDir_names_iff henv'.wellFormed hok.dst_names,
      Tree.fileAt_eq_some_iff.mp hmoved]
    simp
  obtain ⟨dst', src', c', edit', hdst', hsrc', hok', hcache', hmoves', htree'⟩ := hback.files henv' hfile'
  obtain rfl : dst' = dst := by
    rw [← Tree.placeOf_names hok'.src_names, ← hdst', hroot, hdst, Tree.placeOf_names hok.dst_names]
  obtain rfl : src' = src := by
    rw [← Tree.placeOf_names hok'.dst_names, ← hsrc', hroot, hsrc, Tree.placeOf_names hok.src_names]
  rw [htree', ← hthere.tree]
  funext q
  by_cases hq : q = dst'
  · rw [hq, Files.moved_source _ hok'.ne, Tree.fileAt_eq_none fun _ => by rw [hdstFree]; simp]
  · rw [← hmoves.edited_back henv hok hdstFree hcache hrestored henv' hreferences hcache' hmoves' hfiles htree hq]
    exact Files.moved_back _ hq

end Workspace

/-- A list that mentions a file, and the directory that the file moves to. -/
def Tree.mentioned : Tree := ⟨[(["w"], .dir), (["w", "a.x"], .file ⟨#[]⟩),
  (["w", "c.json"], .file (Bytes.ofText "[\"./a.x\"]")), (["w", "d"], .dir)]⟩

def Tree.mentionedMoved : Tree := ⟨[(["w"], .dir), (["w", "c.json"], .file (Bytes.ofText "[\"./d/a.x\"]")),
  (["w", "d"], .dir), (["w", "d", "a.x"], .file ⟨#[]⟩)]⟩

def Planner.searching (t : Tree) : Planner := { Planner.inDirectory t with references := .inW }

theorem Planner.searching_rooted {t : Tree} (h : t.WellFormed) : (Planner.searching t).Rooted ["w"] :=
  ⟨rfl, rfl, by decide, by decide, h⟩

theorem Tree.mentioned_wellFormed : Tree.mentioned.WellFormed := .ofEntries (by decide +kernel) (by decide +kernel)

theorem Tree.mentionedMoved_wellFormed : Tree.mentionedMoved.WellFormed :=
  .ofEntries (by decide +kernel) (by decide +kernel)

theorem Path.list_ext {ps qs : List Path} (h : ps.map (·.raw) = qs.map (·.raw)) : ps = qs :=
  List.map_injective_iff.mpr (fun _ _ hraw => congrArg Path.mk hraw) h

namespace Workspace

/-- The workspace after a move that commits. -/
def moved? (w : Workspace Disk) (a b : Path) : Option (Workspace Disk) :=
  (Planning.plan? (.searching w.disk.tree) ⟨1⟩ (.move a b false)).bind fun plan =>
    match (apply plan false).run.run w with
    | (.ok r, w') => if r.success then some w' else none
    | _ => none

theorem commitsMove_of_moved? {w w' : Workspace Disk} {a b : Path} (h : moved? w a b = some w') (hhook : w.hook = none) :
    CommitsMove (.searching w.disk.tree) w a b false w' := by
  obtain ⟨plan, hplan, happly⟩ := Option.bind_eq_some_iff.mp h
  obtain ⟨s, hbuild⟩ := Planning.plan?_eq_some_iff.mp hplan
  split at happly
  · rename_i r w₁ hrun
    obtain ⟨hsuccess, hw⟩ := Option.ite_none_right_eq_some.mp happly
    obtain rfl := Option.some.inj hw
    refine ⟨rfl, fun hook hmem => ?_, ⟨1⟩, {}, s, plan, false, r, .refl _ _ _, hbuild, hrun, hsuccess⟩
    rw [hhook] at hmem
    cases hmem
  · cases happly

/-- A file moves into a directory and back, and its mention in a list follows it. -/
theorem back_mentioned : ∃ w₁ w₂,
    CommitsMove (.searching .mentioned) (ofTree .mentioned) ⟨"a.x"⟩ ⟨"d/a.x"⟩ false w₁ ∧
    CommitsMove (.searching .mentionedMoved) w₁ ⟨"d/a.x"⟩ ⟨"a.x"⟩ false w₂ ∧
    w₂.disk.tree.fileAt = Tree.mentioned.fileAt := by
  have hmoved : (moved? (ofTree .mentioned) ⟨"a.x"⟩ ⟨"d/a.x"⟩).any (fun w₁ =>
      decide (w₁.disk.tree = .mentionedMoved) && w₁.hook.isNone && (moved? w₁ ⟨"d/a.x"⟩ ⟨"a.x"⟩).isSome) = true := by
    decide +kernel
  obtain ⟨w₁, hw₁, htest⟩ := (Option.any_eq_true ..).mp hmoved
  rw [Bool.and_eq_true, Bool.and_eq_true, decide_eq_true_eq, Option.isNone_iff_eq_none, Option.isSome_iff_exists] at htest
  obtain ⟨⟨htree, hhook⟩, w₂, hw₂⟩ := htest
  have hthere : CommitsMove (.searching .mentioned) (ofTree .mentioned) ⟨"a.x"⟩ ⟨"d/a.x"⟩ false w₁ :=
    commitsMove_of_moved? hw₁ rfl
  have hback := commitsMove_of_moved? hw₂ hhook
  rw [htree] at hback
  refine ⟨w₁, w₂, hthere, hback, ?_⟩
  have hfiles : (Planner.searching .mentioned).references.projectFiles (Planner.searching .mentioned).tree =
      [⟨"/w/a.x"⟩, ⟨"/w/c.json"⟩] := Path.list_ext (by decide +kernel)
  have hfiles' : (Planner.searching .mentionedMoved).references.projectFiles (Planner.searching .mentionedMoved).tree =
      [⟨"/w/c.json"⟩, ⟨"/w/d/a.x"⟩] := Path.list_ext (by decide +kernel)
  have hsource : Path.resolveIn ⟨"a.x"⟩ (Planner.searching .mentioned).root = ⟨"/w/a.x"⟩ :=
    congrArg Path.mk (by decide +kernel)
  have hdestination : Path.resolveIn ⟨"d/a.x"⟩ (Planner.searching .mentioned).root = ⟨"/w/d/a.x"⟩ :=
    congrArg Path.mk (by decide +kernel)
  refine hthere.back (Planner.searching_rooted Tree.mentioned_wellFormed)
    (Planner.searching_rooted Tree.mentionedMoved_wellFormed) rfl hback (by decide +kernel) (by decide +kernel) ?_ ?_
  · have hmap : ([⟨"/w/a.x"⟩, ⟨"/w/c.json"⟩] : List Path).map (Moves.single ⟨"/w/a.x"⟩ ⟨"/w/d/a.x"⟩).place =
        [⟨"/w/d/a.x"⟩, ⟨"/w/c.json"⟩] := Path.list_ext (by decide +kernel)
    rw [hsource, hdestination, hfiles, hfiles', hmap]
    simp [or_comm]
  · rw [hsource, hdestination, hfiles]
    intro p hp bytes hread
    rcases List.mem_pair.mp hp with rfl | rfl
    · exact .unseen (References.seen_eq_none (by decide +kernel) (by decide +kernel) bytes)
        (References.seen_eq_none (by decide +kernel) (by decide +kernel) bytes)
    · have hbytes : Tree.mentioned.read ⟨"/w/c.json"⟩ = .ok (Bytes.ofText "[\"./a.x\"]") := by decide +kernel
      obtain rfl := Except.ok.inj (hread.symm.trans hbytes)
      exact References.restored_mentioned

end Workspace

end Refactor
