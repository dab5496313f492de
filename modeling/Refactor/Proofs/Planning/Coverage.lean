import Refactor.Proofs.Disk.Nested
import Refactor.Proofs.Planning.Order
import Refactor.Proofs.Reference.Dependents

/-!
# The impact of moves covers their plans

A plan of moves names the files that depend on it after every moved file was listed; the impact of the same operation is
told from its sources alone. The files of a project at or below the sources are all among those that are listed, so the
two agree on what moves, and the impact has every dependent of the plan.

* `Planner.Canonical` — planners whose root has its links resolved
* `Operation.moved?` — the paths that an operation moves
* `Planning.planChecked_takes` — the moves of a plan take the files of the project at or below the sources
* `Planning.impactOf_covers` — the impact has every dependent of the plan
-/

namespace Refactor

open Tree (pathOf placeOf under)
open Path (IsName IsSegment)

/-! ## Planners -/

/-- A planner whose root has its links resolved, in a tree in which every entry lies in a directory. -/
structure Planner.Canonical (env : Planner) (root : Place) : Prop extends env.Sited root where
  nested : env.tree.Nested
  resolved : env.tree.canonical? env.root = .ok env.root

theorem Planner.Canonical.entry {env : Planner} {root : Place} (h : env.Canonical root) :
    ∃ e, env.tree.entry true (pathOf root) = .ok (root, e) := by
  have hresolved := h.resolved
  unfold Tree.canonical? at hresolved
  rw [h.root_eq] at hresolved
  cases hentry : env.tree.entry true (pathOf root) with
  | error fault =>
    rw [hentry] at hresolved
    cases hresolved
  | ok found =>
    obtain ⟨place, e⟩ := found
    rw [hentry] at hresolved
    have hplace : pathOf place = pathOf root := Except.ok.inj hresolved
    have hget := ((Tree.entry_eq_ok_iff true _ _ _).mp hentry).2
    have hnames : ∀ s ∈ place, IsName s := h.named.of_get? (by rw [hget]; simp)
    obtain rfl := (Path.pathOf_beq_iff hnames h.names).mp (by rw [hplace]; simp)
    exact ⟨e, rfl⟩

/-- What a created service plans with has the links of its root resolved. -/
theorem Engine.create_canonical {config : Config} {root : Path} {registry : Registry} {intelligence : Intelligence}
    {disk : Disk} {firstId : PlanId} {e : Engine} (hnested : disk.tree.Nested)
    (h : Engine.create config root registry intelligence disk firstId = .ok e) :
    ∃ place, Planner.Canonical { root := e.workspace.root, tree := e.workspace.disk.tree, registry := e.registry
                                 intelligence := e.intelligence
                                 references := .ofConfig e.workspace.root e.registry e.config.refactor } place := by
  obtain ⟨place, hsited⟩ := create_sited hnested.named h
  unfold create at h
  split at h
  · cases h
  · rename_i canonical hcanonical
    cases h
    exact ⟨place, hsited, hnested, Tree.canonical?_canonical hnested hcanonical⟩

/-- Through the caches of both states every file of the project has the same references. -/
def Planner.Alike (env : Planner) (s s' : PlanningState) : Prop := env.references.Alike env.tree s.cache s'.cache

/-- The paths that an operation moves, if it moves any. -/
def Operation.moved? : Operation → Option (List Path)
  | .renameFile a _ _ | .renameDirectory a _ _ | .move a _ _ => some [a]
  | .batchMove ms _ => some (ms.map (·.source))
  | _ => none

theorem Path.exists_rebase? {p old : Path} (h : p.startsWith old = true) (new : Path) :
    ∃ place, p.rebase? old new = some place := by
  unfold rebase? stripLead?
  simp only [h, Bool.not_true, Bool.false_eq_true, if_false]
  split_ifs <;> exact ⟨_, rfl⟩

namespace Planning

variable {env : Planner} {root : Place}

/-! ## What a move takes along -/

theorem expandFiles_lists (overwrite : Bool) (source destination : Path) : ∀ files : List Path,
    Yields env (expandFiles overwrite source destination files) fun pairs =>
      ∀ p ∈ files, p.startsWith source = true → ∃ ab ∈ pairs, ab.1 = p
  | [] => Yields.pure (by simp)
  | file :: rest => by
    have ih := expandFiles_lists overwrite source destination rest
    unfold expandFiles
    split
    · rename_i hnone
      refine ih.mono fun pairs hpairs => List.forall_mem_cons.mpr ⟨fun hin => ?_, hpairs⟩
      obtain ⟨place, hplace⟩ := Path.exists_rebase? hin destination
      rw [hnone] at hplace
      cases hplace
    · rename_i place _
      have hgo : Yields env (do return (file, place) :: (← expandFiles overwrite source destination rest))
          fun pairs => ∀ p ∈ file :: rest, p.startsWith source = true → ∃ ab ∈ pairs, ab.1 = p :=
        ih.bind fun pairs hpairs => Yields.pure <| List.forall_mem_cons.mpr
          ⟨fun _ => ⟨(file, place), by simp, rfl⟩, fun p hp hin => by
            obtain ⟨ab, hab, heq⟩ := hpairs p hp hin
            exact ⟨ab, List.mem_cons_of_mem _ hab, heq⟩⟩
      cases overwrite with
      | true => exact hgo
      | false => exact Yields.andThen fun _ => Yields.unlessThrow fun _ => hgo

/-- A file of the project at or inside of a resolved path is that path, or lies below it in a directory that no link
stands for. -/
theorem file_at_or_below (h : env.Canonical root) {source : Path} (hsource : Resolved source) {p : Path}
    (hp : p ∈ env.references.projectFiles env.tree) (hin : p.startsWith source = true) :
    ∃ place b names, source = pathOf place ∧ p = under source names ∧
      env.tree.get? (place ++ names) = some (.file b) := by
  obtain ⟨ss, hss, rfl⟩ := hsource
  unfold References.projectFiles at hp
  rw [h.searched, h.root_eq] at hp
  obtain ⟨place, b, _, rfl, hget⟩ := Tree.projectFiles_stand h.nested h.entry hp
  have hnames : ∀ s ∈ place, IsName s := h.named.of_get? (by rw [hget]; simp)
  have hplace : ∀ s ∈ place, IsSegment s := fun s hs => (hnames s hs).1
  rw [Path.startsWith_iff, Path.components_segments hss.1, Path.components_segments hplace, List.cons_prefix_cons,
    List.prefix_map_iff_of_injective Path.componentOf_injective] at hin
  obtain ⟨names, rfl⟩ := hin.2
  refine ⟨ss, b, names, rfl, ?_, hget⟩
  rw [Path.under_pathOf hss.1 fun s hs => hplace s (List.mem_append_right _ hs)]

/-- A move takes along every file of the project at or below its source. -/
theorem expandMove_lists (h : env.Canonical root) (overwrite : Bool) {m : CheckedMove} (hsource : Resolved m.source)
    (hkind : m.kind = if env.tree.isDir m.source then .directory else .file) :
    Yields env (expandMove overwrite m) fun pairs =>
      ∀ p ∈ env.references.projectFiles env.tree, p.startsWith m.source = true → ∃ ab ∈ pairs, ab.1 = p := by
  obtain ⟨source, destination, kind⟩ := m
  dsimp only at hsource hkind
  unfold expandMove
  cases hisDir : env.tree.isDir source with
  | false =>
    rw [hisDir, if_neg (by simp)] at hkind
    subst hkind
    refine Yields.pure fun p hp hin => ⟨(source, destination), by simp, ?_⟩
    obtain ⟨place, b, names, rfl, rfl, hget⟩ := file_at_or_below h hsource hp hin
    cases names with
    | nil => rfl
    | cons s rest =>
      have hdir := h.nested.dir_of_lt (s :: rest) (by simp) (by rw [hget]; simp)
      rw [Tree.isDir_straight h.nested hdir] at hisDir
      cases hisDir
  | true =>
    rw [hisDir, if_pos rfl] at hkind
    subst hkind
    refine Yields.readBind <| (Yields.ofExcept fun files hfiles => hfiles).bind fun files hfiles => ?_
    refine Yields.unlessThrowOf fun _ => (expandFiles_lists overwrite source destination files).mono fun pairs hpairs => ?_
    intro p hp hin
    refine hpairs p ?_ hin
    obtain ⟨place, b, names, rfl, rfl, hget⟩ := file_at_or_below h hsource hp hin
    cases names with
    | nil =>
      rw [List.append_nil] at hget
      rw [Tree.not_isDir_straight h.nested hget] at hisDir
      cases hisDir
    | cons s rest =>
      have hdir := h.nested.dir_of_lt (s :: rest) (by simp) (by rw [hget]; simp)
      exact Tree.mem_filesUnder h.nested hdir (by simp) hget hfiles

/-! ## Moves of a plan -/

/-- Checked moves of some paths, each told to be a directory or not as it stands. -/
structure Moving (env : Planner) (sources : List Path) (checked : List CheckedMove) : Prop where
  sources_eq : checked.map (·.source) = sources
  kinds : ∀ m ∈ checked, m.kind = if env.tree.isDir m.source then .directory else .file

theorem isTarget_iff {targets : List Path} {p : Path} :
    References.isTarget targets p = true ↔ ∃ q ∈ targets, p.startsWith q = true := by
  unfold References.isTarget
  rw [List.any_eq_true]
  refine exists_congr fun q => and_congr_right fun _ => ?_
  rw [Bool.or_eq_true, or_iff_right_of_imp Path.startsWith_of_beq]

/-- The moves of a plan take the files of the project at or below the sources, and nothing else. -/
theorem contextOf_takes (h : env.Canonical root) {sources : List Path} (hsources : ∀ p ∈ sources, Resolved p)
    {checked : List CheckedMove} (hchecked : Moving env sources checked) {overwrite : Bool}
    {moved : List (List (Path × Path))}
    (hmoved : List.Forall₂ (fun m files => Answers env (expandMove overwrite m) (.ok files)) checked moved) :
    (contextOf checked moved).Takes sources (env.references.projectFiles env.tree) := by
  have hsource : ∀ m ∈ checked, m.source ∈ sources := fun m hm => by
    rw [← hchecked.sources_eq]
    exact List.mem_map_of_mem hm
  constructor
  · intro p hp hin
    obtain ⟨source, hmem, hstarts⟩ := isTarget_iff.mp hin
    rw [← hchecked.sources_eq] at hmem
    obtain ⟨m, hm, rfl⟩ := List.mem_map.mp hmem
    obtain ⟨files, hfiles, hanswers⟩ := exists_of_forall₂ hmoved.flip m hm
    have hlists := expandMove_lists h overwrite (hsources _ (hsource m hm)) (hchecked.kinds m hm)
    obtain ⟨ab, hab, rfl⟩ := Answers.of_yields hanswers hlists p hp hstarts
    unfold Moves.isMoved
    rw [PathMap.contains_eq, contextOf, PathMap.find?_ofList_isSome]
    exact ⟨ab, List.mem_flatten.mpr ⟨files, hfiles, hab⟩, by simp⟩
  · intro p hp
    rw [isTarget_iff]
    unfold Moves.newLocation? contextOf at hp
    rw [Option.isSome_or, Bool.or_eq_true, PathMap.find?_ofList_isSome, List.findSome?_isSome_iff] at hp
    rcases hp with ⟨ab, hab, heq⟩ | ⟨ab, hab, hplace⟩
    · obtain ⟨files, hfiles, hmem⟩ := List.mem_flatten.mp hab
      obtain ⟨m, hm, hanswers⟩ := exists_of_forall₂ hmoved files hfiles
      refine ⟨m.source, hsource m hm, ?_⟩
      have hinside := Answers.of_yields hanswers (expandMove_inside overwrite m) ab hmem
      rw [Path.startsWith_iff] at hinside ⊢
      rwa [(Path.beq_iff p ab.1).mp heq]
    · obtain ⟨m, hm, rfl⟩ := List.mem_map.mp hab
      obtain ⟨place, hplace⟩ := Option.isSome_iff_exists.mp hplace
      exact ⟨m.source, hsource m (List.mem_of_mem_filter hm), Path.startsWith_of_rebase? hplace⟩

/-- The draft of checked moves has the dependents of moves that take their sources. -/
theorem planChecked_takes (h : env.Canonical root) {sources : List Path} (hsources : ∀ p ∈ sources, Resolved p)
    {checked : List CheckedMove} (hchecked : Moving env sources checked) {overwrite : Bool} {s s₁ : PlanningState}
    {d : Draft} (hrun : ((planChecked checked overwrite).run env).run.run s = (.ok d, s₁)) :
    ∃ moves : Moves, moves.Takes sources (env.references.projectFiles env.tree) ∧
      d.dependents = ((env.references.planMoves env.tree moves).run s.cache).1.dependents ∧
      s₁.cache = ((env.references.planMoves env.tree moves).run s.cache).2 := by
  rw [planChecked_eq] at hrun
  obtain ⟨moved, s₂, hmoved, hrest⟩ := run_bind_inv hrun
  obtain ⟨hanswers, rfl⟩ := Still.mapM_ok (expandMove_still overwrite) hmoved
  obtain ⟨found, s₃, hfound, hend⟩ := run_bind_inv hrest
  cases hend
  cases hfound
  exact ⟨contextOf checked moved, contextOf_takes h hsources hchecked hanswers, rfl, rfl⟩

/-! ## Drafts of operations that move -/

theorem MoveChecked.moving {source destination : Path} {overwrite : Bool} {expected : Option PathKind} {m : CheckedMove}
    (h : MoveChecked env source destination overwrite expected m) : Moving env [source] [m] :=
  ⟨by simp [h.source_eq], by simpa [h.source_eq] using h.kind⟩

theorem planMove_run {source destination : Path} {overwrite : Bool} {expected : Option PathKind} {s s₁ : PlanningState}
    {d : Draft} (hrun : ((planMove source destination overwrite expected).run env).run.run s = (.ok d, s₁)) :
    ∃ m, MoveChecked env source destination overwrite expected m ∧
      ((planChecked [m] overwrite).run env).run.run s = (.ok d, s₁) := by
  obtain ⟨m, s₂, hm, hrest⟩ := run_bind_inv hrun
  obtain ⟨hanswers, rfl⟩ := (checkMove_still source destination overwrite expected).answers hm
  exact ⟨m, hanswers.of_yields (checkMove_yields _ _ _ _), hrest⟩

theorem planMove_inv {source destination : Path} {overwrite : Bool} {expected : Option PathKind} {s s₁ : PlanningState}
    {d : Draft} (hrun : ((planMove source destination overwrite expected).run env).run.run s = (.ok d, s₁)) :
    ∃ checked, Moving env [source] checked ∧ ((planChecked checked overwrite).run env).run.run s = (.ok d, s₁) := by
  obtain ⟨m, hm, hrest⟩ := planMove_run hrun
  exact ⟨[m], hm.moving, hrest⟩

theorem planBatch_inv {ms : List MoveSpec} {overwrite : Bool} {s s₁ : PlanningState} {d : Draft}
    (hrun : ((planBatch ms overwrite).run env).run.run s = (.ok d, s₁)) : ∃ checked,
      Moving env (ms.map (·.source)) checked ∧ ((planChecked checked overwrite).run env).run.run s = (.ok d, s₁) := by
  obtain ⟨hne, hapart⟩ := planBatch_apart ms overwrite s d s₁ hrun
  rw [planBatch_eq hne hapart] at hrun
  obtain ⟨checked, s₂, hchecked, hrest⟩ := run_bind_inv hrun
  obtain ⟨hanswers, rfl⟩ := Still.mapM_ok (fun m : MoveSpec => checkMove_still m.source m.destination overwrite none) hchecked
  have hmoves : List.Forall₂ (fun (spec : MoveSpec) m => MoveChecked env spec.source spec.destination overwrite none m) ms
      checked := hanswers.imp fun spec m hm => Answers.of_yields hm (checkMove_yields _ _ _ _)
  have hsame : List.Forall₂ (· = ·) (checked.map (·.source)) (ms.map (·.source)) := by
    rw [List.forall₂_map_left_iff, List.forall₂_map_right_iff]
    exact (hmoves.imp fun _ _ hm => hm.source_eq.symm).flip.imp fun _ _ heq => heq.symm
  rw [List.forall₂_eq_eq_eq] at hsame
  refine ⟨checked, ⟨hsame, fun m hm => ?_⟩, hrest⟩
  obtain ⟨spec, _, hspec⟩ := exists_of_forall₂ hmoves m hm
  rw [hspec.source_eq]
  exact hspec.kind

theorem inl_inv {m : Planning Draft} {s s₁ : PlanningState} {d : Draft}
    (hrun : ((Sum.inl (β := List SymbolCandidate) <$> m).run env).run.run s = (.ok (.inl d), s₁)) :
    (m.run env).run.run s = (.ok d, s₁) := by
  rw [map_eq_pure_bind] at hrun
  obtain ⟨d', s₂, hd', hend⟩ := run_bind_inv hrun
  cases hend
  exact hd'

/-- The draft of an operation that moves paths comes from checked moves of these paths. -/
theorem draftOf_inv {op : Operation} {sources : List Path} (hop : op.moved? = some sources) {s s₁ : PlanningState}
    {d : Draft} (hrun : ((draftOf (op.anchored env.root)).run env).run.run s = (.ok (.inl d), s₁)) :
    ∃ checked overwrite, Moving env (sources.map (·.resolveIn env.root)) checked ∧
      ((planChecked checked overwrite).run env).run.run s = (.ok d, s₁) := by
  cases op with
  | renameFile a b overwrite =>
    cases hop
    obtain ⟨checked, hchecked, hdraft⟩ := planMove_inv (inl_inv hrun)
    exact ⟨checked, overwrite, hchecked, hdraft⟩
  | renameDirectory a b overwrite =>
    cases hop
    obtain ⟨checked, hchecked, hdraft⟩ := planMove_inv (inl_inv hrun)
    exact ⟨checked, overwrite, hchecked, hdraft⟩
  | move a b overwrite =>
    cases hop
    obtain ⟨checked, hchecked, hdraft⟩ := planMove_inv (inl_inv hrun)
    exact ⟨checked, overwrite, hchecked, hdraft⟩
  | batchMove ms overwrite =>
    cases hop
    obtain ⟨checked, hchecked, hdraft⟩ := planBatch_inv (inl_inv hrun)
    rw [List.map_map] at hchecked ⊢
    exact ⟨checked, overwrite, hchecked, hdraft⟩
  | renameSymbol target name => cases hop
  | extract kind file range name => cases hop
  | inline kind file position => cases hop
  | delete target => cases hop

/-! ## Plans and impacts -/

theorem finalize_still (id : PlanId) (op : Operation) (draft : Draft) : Still env (finalize id op draft) := by
  unfold finalize
  refine (Still.ofExcept _).bind fun edit => Still.readBind <| (Still.forM fun p _ => ?_).bind fun _ => ?_
  · split
    · exact Still.throw _
    · exact Still.pure _
  · exact (Still.ofExcept _).bind fun checksums => Still.pure _

theorem finalize_dependents (id : PlanId) (op : Operation) (draft : Draft) : Yields env (finalize id op draft) fun plan =>
    plan.impact.dependentFiles = PathSet.collect draft.dependents := by
  unfold finalize
  exact Yields.andThen fun edit => Yields.readBind <| Yields.andThen fun _ => Yields.andThen fun _ => Yields.pure rfl

/-- A plan that is ready was finished from a draft. -/
theorem build_inv {id : PlanId} {op : Operation} {plan : Plan} {s s₁ : PlanningState}
    (hrun : ((build id op).run env).run.run s = (.ok (.ready plan), s₁)) : ∃ d,
      ((draftOf (op.anchored env.root)).run env).run.run s = (.ok (.inl d), s₁) ∧
        WorkspaceEdit.merge [d.edit] = .ok plan.edit ∧ plan.impact.dependentFiles = PathSet.collect d.dependents := by
  have hread : ((read : Planning Planner).run env).run.run s = (.ok env, s) := rfl
  unfold build at hrun
  rw [run_bind_of_ok hread] at hrun
  obtain ⟨outcome, s₂, hdraft, hrest⟩ := run_bind_inv hrun
  cases outcome with
  | inl d =>
    obtain ⟨plan', s₃, hplan, hend⟩ := run_bind_inv hrest
    cases hend
    obtain ⟨hanswers, rfl⟩ := (finalize_still id _ d).answers hplan
    exact ⟨d, hdraft, hanswers.of_yields finalize_merge, hanswers.of_yields (finalize_dependents id _ d)⟩
  | inr candidates => cases hrest

theorem reachOf_moved {op : Operation} {sources : List Path} (hop : op.moved? = some sources) (root : Path) :
    reachOf (op.anchored root) = pathDependents (sources.map (·.resolveIn root)) := by
  cases op with
  | batchMove ms overwrite =>
    cases hop
    simp [Operation.anchored, reachOf, Function.comp_def]
  | _ => cases hop <;> rfl

/-- The impact of an operation that moves paths is told from their dependents. -/
theorem impactOf_moved {op : Operation} {sources : List Path} (hop : op.moved? = some sources) (s : PlanningState) :
    ∃ impact s', ((impactOf op).run env).run.run s = (.ok impact, s') ∧
      s'.cache = ((env.references.dependents env.tree (sources.map (·.resolveIn env.root))).run s.cache).2 ∧
      impact.dependentFiles = PathSet.collect
        (((env.references.dependents env.tree (sources.map (·.resolveIn env.root))).run s.cache).1.map (·.1)) := by
  have hread : ((read : Planning Planner).run env).run.run s = (.ok env, s) := rfl
  unfold impactOf
  rw [run_bind_of_ok hread]
  dsimp only
  rw [reachOf_moved hop]
  exact ⟨_, _, rfl, rfl, rfl⟩

theorem projectFiles_placed (h : env.Sited root) : ∀ p ∈ env.references.projectFiles env.tree,
    ∃ place, (∀ s ∈ place, IsName s) ∧ root <+: place ∧ p = pathOf place := by
  intro p hp
  unfold References.projectFiles at hp
  rw [h.searched, h.root_eq] at hp
  exact Tree.projectFiles_places h.named _ h.names hp

theorem eq_of_placeOf (h : env.Sited root) {p q : Path} (hp : p ∈ env.references.projectFiles env.tree)
    (hq : q ∈ env.references.projectFiles env.tree) (hplace : placeOf p = placeOf q) : p = q := by
  obtain ⟨ps, hps, -, rfl⟩ := projectFiles_placed h p hp
  obtain ⟨qs, hqs, -, rfl⟩ := projectFiles_placed h q hq
  rw [Tree.placeOf_names hps, Tree.placeOf_names hqs] at hplace
  rw [hplace]

theorem unambiguous (h : env.Sited root) : env.references.Unambiguous env.tree := by
  have hplain : ∀ p ∈ env.references.projectFiles env.tree, p.Plain := by
    intro p hp
    obtain ⟨place, hplace, _, heq⟩ := projectFiles_placed h p hp
    exact Path.OfPlace.plain ⟨place, hplace, heq⟩
  exact fun p hp q hq hbeq => (hplain p hp).eq_of_beq (hplain q hq) hbeq

/-- **The impact of moves covers their plans.** When every file of the project is one of scripts, of Markdown or of no
language, the impact of an operation that moves paths has every file on which its plan depends. The impact may be told
before the plan is built or after it, or by anyone through whose cache the files have the same references: neither
search leaves a cache that makes a difference. -/
theorem impactOf_covers (h : env.Canonical root)
    (hlanguages : ∀ file ∈ env.references.projectFiles env.tree, ∀ l ∈ env.references.registry.find? file,
      l = .typescript ∨ l = .markdown)
    {op : Operation} (hop : op.moved?.isSome = true) {id : PlanId} {plan : Plan} {s s₁ : PlanningState}
    (hbuild : ((build id op).run env).run.run s = (.ok (.ready plan), s₁)) :
    env.Alike s s₁ ∧ ∀ s', env.Alike s s' → ∃ impact s₂, ((impactOf op).run env).run.run s' = (.ok impact, s₂) ∧
      env.Alike s s₂ ∧ ∀ p ∈ plan.impact.dependentFiles, p ∈ impact.dependentFiles := by
  obtain ⟨sources, hsources⟩ := Option.isSome_iff_exists.mp hop
  obtain ⟨d, hdraft, -, hplan⟩ := build_inv hbuild
  obtain ⟨checked, overwrite, hmoving, hchecked⟩ := draftOf_inv hsources hdraft
  have hresolved : ∀ p ∈ sources.map (·.resolveIn env.root), Resolved p := by
    intro p hp
    obtain ⟨source, _, rfl⟩ := List.mem_map.mp hp
    exact resolveIn_resolved h.toSited source
  obtain ⟨moves, htakes, hdependents, hcache⟩ := planChecked_takes h hresolved hmoving hchecked
  have hwritten := unambiguous h.toSited
  have hblind : ∀ known, ∀ file ∈ env.references.projectFiles env.tree,
      Blind (env.references.Alike env.tree s.cache) (env.references.scan env.tree known file) := fun known file hfile =>
    References.scan_alike hwritten s.cache known hfile
  have hlocates : ∀ file ∈ env.references.projectFiles env.tree, ∀ l ∈ env.references.registry.find? file, l.Locates := by
    intro file hfile l hl
    rcases hlanguages file hfile l hl with rfl | rfl
    · exact Language.typescript_locates
    · exact Language.markdown_locates
  refine ⟨?_, fun s' halike => ?_⟩
  · unfold Planner.Alike
    rw [hcache]
    exact (References.planMoves_blind hblind moves).stays (.refl _ _ _)
  · obtain ⟨impact, s₂, hrun, hleaves, himpact⟩ := impactOf_moved hsources s'
    refine ⟨impact, s₂, hrun, ?_, fun p hp => ?_⟩
    · unfold Planner.Alike
      rw [hleaves]
      exact (References.dependents_blind hblind _).stays halike
    · rw [hplan] at hp
      have hfound := PathSet.mem_collect hp
      rw [hdependents] at hfound
      have hcovered := References.planMoves_covered hwritten hlocates htakes halike hfound
      rw [himpact]
      have hfiles := References.dependents_files (sources.map (·.resolveIn env.root)) hblind halike
      exact PathSet.mem_collect_of_unique hcovered fun q hq => hwritten q (hfiles q hq) p (hfiles p hcovered)

end Planning

/-! ## A directory that is referred to -/

theorem Planner.linked_canonical : Planner.linked.Canonical ["w"] := by
  have hsorted : (Planner.linked.tree.entries.map (·.1)).Pairwise (· < ·) := by decide
  have hnested : Planner.linked.tree.Nested := .ofEntries (List.pairwise_map.mp hsorted) (by decide)
  have hdir : Planner.linked.tree.get? ["w"] = some .dir := rfl
  have hresolved := Tree.canonical?_straight hnested hdir (by simp)
  exact ⟨⟨rfl, rfl, by decide, hnested.named⟩, hnested, hresolved⟩

namespace Planning

/-- A file refers to one in a directory that is renamed: the plan depends on it, and so does the impact afterwards. -/
theorem impactOf_covers_linked : ∃ plan s₁ impact s₂,
    ((build ⟨1⟩ (.renameDirectory ⟨"d"⟩ ⟨"e"⟩ false)).run .linked).run.run {} = (.ok (.ready plan), s₁) ∧
      plan.impact.dependentFiles.map Path.raw = ["/w/a.md"] ∧
      ((impactOf (.renameDirectory ⟨"d"⟩ ⟨"e"⟩ false)).run .linked).run.run s₁ = (.ok impact, s₂) ∧
      ∀ p ∈ plan.impact.dependentFiles, p ∈ impact.dependentFiles := by
  have hplanned : (plan? .linked ⟨1⟩ (.renameDirectory ⟨"d"⟩ ⟨"e"⟩ false)).map (·.impact.dependentFiles.map Path.raw) =
      some ["/w/a.md"] := by decide +kernel
  have hlanguages : ∀ file ∈ Planner.linked.references.projectFiles Planner.linked.tree,
      ∀ l ∈ Planner.linked.references.registry.find? file, l = .typescript ∨ l = .markdown := by
    intro file _ l hl
    obtain ⟨extension, _, hfind⟩ := Option.bind_eq_some_iff.mp hl
    exact Or.inr (List.mem_singleton.mp (List.mem_of_find?_eq_some hfind))
  obtain ⟨plan, hplan, hfiles⟩ := Option.map_eq_some_iff.mp hplanned
  obtain ⟨s₁, hbuild⟩ := plan?_eq_some_iff.mp hplan
  obtain ⟨hafter, hcovers⟩ := impactOf_covers Planner.linked_canonical hlanguages rfl hbuild
  obtain ⟨impact, s₂, hrun, _, hcovered⟩ := hcovers s₁ hafter
  exact ⟨plan, s₁, impact, s₂, hbuild, hfiles, hrun, hcovered⟩

end Planning

end Refactor
