import Refactor.Planning.Build
import Refactor.Proofs.Disk.Walk
import Refactor.Proofs.Path.Inside
import Refactor.Proofs.Planning.Yields

/-!
# Planned moves

A planned move takes the files at and below one place to their counterparts below another one.

* `Planner.Sited` — planners in a directory of a tree
* `Planner.Rooted` — planners below a directory of a tree of files and directories
* `MoveOk` — a place that can be moved to another one
* `Tree.carried` — the files that a move takes along, and where to
* `Planning.expandMove_yields`, `Planning.checkMove_yields` — what planning moves yields
* `Planning.checkMove_still` — the check of a move depends on the planner alone
-/

namespace Refactor

open Tree (pathOf placeOf)
open Path (IsName)

/-- A planner that works in a directory of a tree, whose path has its links resolved. -/
structure Planner.Sited (env : Planner) (root : Place) : Prop where
  root_eq : env.root = pathOf root
  searched : env.references.root = env.root
  names : ∀ s ∈ root, IsName s
  named : env.tree.Named

/-- A planner that works below a directory of a tree of files and directories. -/
structure Planner.Rooted (env : Planner) (root : Place) : Prop where
  root_eq : env.root = pathOf root
  searched : env.references.root = env.root
  names : ∀ s ∈ root, IsName s
  below : root ≠ []
  wellFormed : env.tree.WellFormed

theorem Planner.Rooted.sited {env : Planner} {root : Place} (h : env.Rooted root) : env.Sited root :=
  ⟨h.root_eq, h.searched, h.names, h.wellFormed.named⟩

/-- A place that can be moved to another one: both lie in the root, what is moved is there, a directory does not go into
itself, and what is in the way may be overwritten. -/
structure MoveOk (t : Tree) (root : Place) (overwrite : Bool) (src dst : Place) : Prop where
  src_names : ∀ s ∈ src, IsName s
  dst_names : ∀ s ∈ dst, IsName s
  src_in : root <+: src
  dst_in : root <+: dst
  src_ne_root : src ≠ root
  ne : src ≠ dst
  there : t.get? src ≠ none
  outside : t.get? src = some .dir → ¬src <+: dst
  free : t.get? dst ≠ none → overwrite = true ∧ (t.get? src ≠ some .dir → t.get? dst ≠ some .dir)

/-- The place of `q` when `src` becomes `dst`. -/
def counterpart (src dst q : Place) : Place := dst ++ q.drop src.length

/-- The files that the move of a place takes along, and where to. -/
def Tree.carried (t : Tree) (src dst : Place) : List (Path × Path) :=
  (t.filesAt src).map fun q => (pathOf q, pathOf (counterpart src dst q))

namespace Planning

variable {env : Planner} {root : Place}

/-- What a move was checked for. -/
structure MoveChecked (env : Planner) (source destination : Path) (overwrite : Bool) (expected : Option PathKind)
    (m : CheckedMove) : Prop where
  source_eq : m.source = source
  destination_eq : m.destination = destination
  kind : m.kind = if env.tree.isDir source then .directory else .file
  expected : ∀ kind ∈ expected, m.kind = kind
  source_in : source.startsWith env.root = true
  destination_in : destination.startsWith env.root = true
  ne : (source == destination) = false
  not_root : (source == env.root) = false
  there : env.tree.exists? source = true
  outside : env.tree.isDir source = true → destination.startsWith source = false
  free : env.tree.exists? destination = true →
    overwrite = true ∧ (env.tree.isDir source = false → env.tree.isDir destination = false)

/-- The checks of a move that look at what its source is. -/
def checkKind (source destination : Path) (overwrite : Bool) (kind : PathKind) : Planning CheckedMove := do
  if kind == .directory && destination.startsWith source then
    throw (.invalidRequest ("Cannot move " ++ (← shown source) ++ " into its own subtree"))
  if ← exists? destination then
    unless overwrite do throw (.alreadyExists destination.raw)
    if kind == .file && (← isDir destination) then
      throw (.invalidRequest ("Cannot overwrite directory " ++ (← shown destination) ++ " with a file"))
  return ⟨source, destination, kind⟩

theorem checkKind_yields (source destination : Path) (overwrite : Bool) (kind : PathKind) :
    Yields env (checkKind source destination overwrite kind) fun m => m = ⟨source, destination, kind⟩ ∧
      (kind = .directory → destination.startsWith source = false) ∧
      (env.tree.exists? destination = true →
        overwrite = true ∧ (kind = .file → env.tree.isDir destination = false)) := by
  unfold checkKind
  refine Yields.unlessThrowOf fun houtside => (Yields.exists? destination).bind fun _ hthere => ?_
  subst hthere
  have hout : kind = .directory → destination.startsWith source = false := fun hkind => by simpa [hkind] using houtside
  dsimp only
  split
  · refine Yields.whenThrow fun hoverwrite => ?_
    refine (Yields.isDir destination).bind fun _ hdir => Yields.unlessThrowOf fun hfile => Yields.pure ?_
    subst hdir
    exact ⟨rfl, hout, fun _ => ⟨hoverwrite, fun hkind => by simpa [hkind] using hfile⟩⟩
  · rename_i habsent
    exact Yields.pure ⟨rfl, hout, fun hthere => absurd hthere habsent⟩

theorem checkMove_yields (source destination : Path) (overwrite : Bool) (expected : Option PathKind) :
    Yields env (checkMove source destination overwrite expected)
      (MoveChecked env source destination overwrite expected) := by
  unfold checkMove
  refine (Yields.ensureInRoot source).bind fun _ hsource => ?_
  refine (Yields.ensureInRoot destination).bind fun _ hdestination => ?_
  refine Yields.unlessThrow fun hne => Yields.readBind <| Yields.unlessThrow fun hroot => ?_
  refine (Yields.exists? source).bind fun _ hthere => Yields.whenThrow fun hthere' => ?_
  refine (Yields.isDir source).bind fun _ hisDir => ?_
  subst hthere hisDir
  dsimp only
  have hrest : ∀ kind : PathKind, kind = (if env.tree.isDir source then .directory else .file) →
      (∀ k ∈ expected, kind = k) → Yields env (checkKind source destination overwrite kind)
        (MoveChecked env source destination overwrite expected) := by
    intro kind hkind hexpected
    refine (checkKind_yields source destination overwrite kind).mono fun m ⟨hm, houtside, hfree⟩ => ?_
    subst hm
    refine ⟨rfl, rfl, hkind, hexpected, hsource, hdestination, by simpa using hne, by simpa using hroot, hthere', ?_, ?_⟩
    · exact fun hdir => houtside (by rw [hkind, if_pos hdir])
    · exact fun hthere => (hfree hthere).imp_right fun hfile hsourceFile => hfile (by rw [hkind, hsourceFile]; rfl)
  generalize hkind : (if env.tree.isDir source = true then PathKind.directory else PathKind.file) = kind at hrest ⊢
  have hgoes := hrest kind rfl
  clear hrest
  rcases expected with _ | _ | _ <;> cases kind
  · exact hgoes (by simp)
  · exact hgoes (by simp)
  · exact hgoes (by simp)
  · exact Yields.andThen fun _ => Yields.throwBind _
  · exact Yields.andThen fun _ => Yields.throwBind _
  · exact hgoes (by simp)

theorem checkMove_still (source destination : Path) (overwrite : Bool) (expected : Option PathKind) :
    Still env (checkMove source destination overwrite expected) := by
  unfold checkMove
  refine (Still.ensureInRoot source).bind fun _ => (Still.ensureInRoot destination).bind fun _ => ?_
  refine Still.unlessThrow <| Still.readBind <| Still.unlessThrow <| (Still.exists? source).bind fun _ => ?_
  refine Still.whenThrow <| (Still.isDir source).bind fun dir => ?_
  dsimp only
  have hrest : ∀ kind, Still env (checkKind source destination overwrite kind) := by
    intro kind
    unfold checkKind
    refine Still.unlessThrowOf (Still.shown source) <| (Still.exists? destination).bind fun taken => ?_
    dsimp only
    split
    · refine Still.whenThrow <| (Still.isDir destination).bind fun _ => ?_
      exact Still.unlessThrowOf (Still.shown destination) (Still.pure _)
    · exact Still.pure _
  have hrefused : ∀ {β : Type} (e : String → Error) (f : β → Planning CheckedMove),
      Still env (shown source >>= fun b => MonadExcept.throw (e b) >>= f) := fun e f =>
    (Still.shown source).bind fun b => Still.throwBind (e b) f
  generalize (if dir = true then PathKind.directory else PathKind.file) = kind
  rcases expected with _ | _ | _ <;> cases kind
  · exact hrest .file
  · exact hrest .directory
  · exact hrest .file
  · exact hrefused _ _
  · exact hrefused _ _
  · exact hrest .directory

/-! ## Places of moves -/

/-- A path is resolved: it is that of a place, but for leads that go above the top. -/
def Resolved (p : Path) : Prop := ∃ ss, Path.Resolved ss ∧ p = pathOf ss

theorem resolveIn_resolved (h : env.Sited root) (p : Path) : Resolved (p.resolveIn env.root) := by
  rw [h.root_eq]
  exact Path.resolveIn_pathOf p root

/-- A resolved path in the root is the path of a place in it. -/
theorem Resolved.place {p : Path} (h : env.Rooted root) (hp : Resolved p) (hin : p.startsWith env.root = true) :
    ∃ place, (∀ s ∈ place, IsName s) ∧ root <+: place ∧ p = pathOf place := by
  obtain ⟨ss, hss, rfl⟩ := hp
  rw [h.root_eq] at hin
  obtain ⟨hnames, hlead⟩ := Path.names_of_startsWith h.names h.below hss hin
  exact ⟨ss, hnames, hlead, rfl⟩

theorem startsWith_pathOf_iff {p q : Place} (hp : ∀ s ∈ p, IsName s) (hq : ∀ s ∈ q, IsName s) :
    (pathOf p).startsWith (pathOf q) = true ↔ q <+: p := by
  rw [Path.startsWith_iff, Path.components_names hp, Path.components_names hq, List.cons_prefix_cons,
    List.prefix_map_iff_of_injective (fun a b h => by cases h; rfl)]
  simp

/-- The move of a place to another one. -/
def moveOf (t : Tree) (places : Place × Place) : CheckedMove :=
  ⟨pathOf places.1, pathOf places.2, if t.get? places.1 = some .dir then .directory else .file⟩

theorem MoveChecked.places (h : env.Rooted root) {source destination : Path} {overwrite : Bool}
    {expected : Option PathKind} {m : CheckedMove} (hsource : Resolved source) (hdestination : Resolved destination)
    (hm : MoveChecked env source destination overwrite expected m) : ∃ places : Place × Place,
      source = pathOf places.1 ∧ destination = pathOf places.2 ∧ m = moveOf env.tree places ∧
        MoveOk env.tree root overwrite places.1 places.2 := by
  obtain ⟨_, _, kind⟩ := m
  obtain ⟨rfl, rfl, hkind, _, hsourcein, hdestinationin, hne, hroot, hthere, houtside, hfree⟩ := hm
  obtain ⟨src, hsrc, hsrcin, rfl⟩ := hsource.place h hsourcein
  obtain ⟨dst, hdst, hdstin, rfl⟩ := hdestination.place h hdestinationin
  have hisDir : ∀ {p : Place}, (∀ s ∈ p, IsName s) → (env.tree.isDir (pathOf p) = true ↔ env.tree.get? p = some .dir) :=
    fun hp => Tree.isDir_names_iff h.wellFormed hp
  have hnotDir : ∀ {p : Place}, (∀ s ∈ p, IsName s) →
      (env.tree.isDir (pathOf p) = false ↔ env.tree.get? p ≠ some .dir) := fun hp => by
    rw [← Bool.not_eq_true, hisDir hp]
  rw [← Bool.not_eq_true, Path.pathOf_beq_iff hsrc hdst] at hne
  rw [h.root_eq, ← Bool.not_eq_true, Path.pathOf_beq_iff hsrc h.names] at hroot
  refine ⟨(src, dst), rfl, rfl, ?_, hsrc, hdst, hsrcin, hdstin, hroot, hne, ?_, ?_, ?_⟩
  · unfold moveOf
    rw [show kind = _ from hkind]
    exact congrArg _ (if_congr (hisDir hsrc) rfl rfl)
  · exact (Tree.exists?_names_iff h.wellFormed hsrc).mp hthere
  · intro hdir hlead
    have hout := houtside ((hisDir hsrc).mpr hdir)
    rw [(startsWith_pathOf_iff hdst hsrc).mpr hlead] at hout
    cases hout
  · intro htaken
    obtain ⟨hoverwrite, hfile⟩ := hfree ((Tree.exists?_names_iff h.wellFormed hdst).mpr htaken)
    exact ⟨hoverwrite, fun hsrcDir => (hnotDir hdst).mp (hfile ((hnotDir hsrc).mpr hsrcDir))⟩

/-! ## Files of moves -/

theorem expandFiles_yields (h : env.Rooted root) (overwrite : Bool) {src dst : Place} (hsrc : ∀ s ∈ src, IsName s)
    (hdst : ∀ s ∈ dst, IsName s) : ∀ {places : List Place}, (∀ q ∈ places, src <+: q ∧ ∀ s ∈ q, IsName s) →
    Yields env (expandFiles overwrite (pathOf src) (pathOf dst) (places.map pathOf)) fun pairs =>
      pairs = places.map (fun q => (pathOf q, pathOf (counterpart src dst q))) ∧
        (overwrite = false → ∀ q ∈ places, env.tree.get? (counterpart src dst q) = none)
  | [], _ => Yields.pure ⟨rfl, by simp⟩
  | q :: places, hplaces => by
    obtain ⟨⟨rest, rfl⟩, hq⟩ := hplaces q (by simp)
    have hrest : ∀ s ∈ rest, IsName s := fun s hs => hq s (List.mem_append_right _ hs)
    have hseg : ∀ {p : Place}, (∀ s ∈ p, IsName s) → ∀ s ∈ p, Path.IsSegment s := fun hp s hs => (hp s hs).1
    have hcounterpart : counterpart src dst (src ++ rest) = dst ++ rest := by simp [counterpart]
    have hnames : ∀ s ∈ dst ++ rest, IsName s := by
      intro s hs
      rcases List.mem_append.mp hs with hs | hs
      · exact hdst s hs
      · exact hrest s hs
    have ih := expandFiles_yields h overwrite hsrc hdst fun p hp => hplaces p (List.mem_cons_of_mem _ hp)
    rw [List.map_cons, expandFiles, Path.rebase?_pathOf (hseg hsrc) (hseg hdst) (hseg hrest)]
    dsimp only
    refine (Yields.exists? _).bind fun there hthere => Yields.unlessThrow fun hfree => ?_
    refine ih.bind fun pairs hpairs => Yields.pure ⟨?_, fun hoverwrite p hp => ?_⟩
    · rw [hpairs.1, List.map_cons, hcounterpart]
    · rcases List.mem_cons.mp hp with rfl | hp
      · rw [hcounterpart]
        by_contra hget
        have htaken := (Tree.exists?_names_iff h.wellFormed hnames).mpr hget
        simp [hoverwrite, hthere, htaken] at hfree
      · exact hpairs.2 hoverwrite p hp

/-- The files of a move: at least one, and their places are free unless they may be overwritten. -/
structure Carried (t : Tree) (overwrite : Bool) (src dst : Place) (pairs : List (Path × Path)) : Prop where
  pairs_eq : pairs = t.carried src dst
  nonempty : t.filesAt src ≠ []
  free : overwrite = false → ∀ q ∈ t.filesAt src, t.get? (counterpart src dst q) = none

theorem filesAt_file {t : Tree} (ht : t.WellFormed) {src : Place} {b : ByteArray} (hsrc : t.get? src = some (.file b)) :
    t.filesAt src = [src] := by
  refine Tree.places_ext (Tree.filesAt_sorted ht _) (List.pairwise_singleton _ _) fun q => ?_
  rw [Tree.mem_filesAt ht, List.mem_singleton]
  constructor
  · rintro ⟨⟨rest, rfl⟩, c, hq⟩
    by_cases hrest : rest = []
    · simp [hrest]
    · rw [ht.get?_below (by rw [hsrc]; simp) hrest] at hq
      cases hq
  · rintro rfl
    exact ⟨List.prefix_rfl, b, hsrc⟩

theorem expandMove_yields (h : env.Rooted root) {overwrite : Bool} {places : Place × Place}
    (hok : MoveOk env.tree root overwrite places.1 places.2) :
    Yields env (expandMove overwrite (moveOf env.tree places)) (Carried env.tree overwrite places.1 places.2) := by
  obtain ⟨src, dst⟩ := places
  unfold expandMove moveOf
  by_cases hdir : env.tree.get? src = some .dir
  · rw [if_pos hdir]
    have hfiles : Yields env (ofExcept (env.tree.filesUnder (pathOf src)))
        (· = (env.tree.filesAt src).map pathOf) := by
      rw [Tree.filesUnder_names h.wellFormed hok.src_names hok.there]
      exact Yields.pure rfl
    refine Yields.readBind <| hfiles.bind fun files hfiles => ?_
    subst hfiles
    refine Yields.unlessThrowOf fun hempty => ?_
    refine (expandFiles_yields h overwrite hok.src_names hok.dst_names fun q hq => ?_).mono fun pairs hpairs => ?_
    · obtain ⟨hlead, b, hget⟩ := (Tree.mem_filesAt h.wellFormed).mp hq
      exact ⟨hlead, h.wellFormed.isName (by rw [hget]; simp)⟩
    · exact ⟨hpairs.1, by simpa using hempty, hpairs.2⟩
  · rw [if_neg hdir]
    obtain ⟨e, he⟩ := Option.ne_none_iff_exists'.mp hok.there
    rcases h.wellFormed.file_or_dir he with rfl | ⟨b, rfl⟩
    · exact absurd he hdir
    · have hfiles := filesAt_file h.wellFormed he
      have hcounterpart : counterpart src dst src = dst := by simp [counterpart]
      refine Yields.pure ⟨?_, by simp [hfiles], fun hoverwrite q hq => ?_⟩
      · simp [Tree.carried, hfiles, hcounterpart]
      · rw [hfiles, List.mem_singleton] at hq
        subst hq
        rw [hcounterpart]
        by_contra hthere
        simpa [hoverwrite] using (hok.free hthere).1

end Planning

end Refactor
