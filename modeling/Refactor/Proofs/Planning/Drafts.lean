import Refactor.Apply.Transaction
import Refactor.Proofs.Apply.Writing
import Refactor.Proofs.Planning.Edits
import Refactor.Proofs.Planning.Moves

/-!
# Planned operations

The file operations of a built plan move or delete the files at and below the places that the operation names; renames
of symbols and edits inside a file have none.

* `MovesOk` — moves that can be planned together
* `Arranged` — the source directories and file operations that a plan can have
* `Planning.build_yields` — a built plan is arranged, and the paths that it edits are absolute
-/

namespace Refactor

open Tree (pathOf placeOf)
open Path (IsName)

/-! ## Arrangements -/

/-- Two moves go to different places, and neither goes into what the other one takes or starts inside it. -/
structure MovesApart (m m' : Place × Place) : Prop where
  destinations : m.2 ≠ m'.2
  into : ¬m'.1 <+: m.2
  into' : ¬m.1 <+: m'.2
  inside : ¬m'.1 <+: m.1
  inside' : ¬m.1 <+: m'.1

instance : Std.Symm MovesApart :=
  ⟨fun _ _ h => ⟨Ne.symm h.destinations, h.into', h.into, h.inside', h.inside⟩⟩

/-- Moves that can be planned together. Each takes a file along, to places that are free unless they may be
overwritten. -/
structure MovesOk (t : Tree) (root : Place) (overwrite : Bool) (ms : List (Place × Place)) : Prop where
  ok : ∀ m ∈ ms, MoveOk t root overwrite m.1 m.2
  nonempty : ∀ m ∈ ms, t.filesAt m.1 ≠ []
  free : overwrite = false → ∀ m ∈ ms, ∀ q ∈ t.filesAt m.1, t.get? (counterpart m.1 m.2 q) = none
  apart : ms.Pairwise MovesApart

namespace Tree

/-- The operations of moves. -/
def moveOperations (t : Tree) (overwrite : Bool) (ms : List (Place × Place)) : List FileOperation :=
  (ms.map fun m => t.carried m.1 m.2).flatten.map fun (a, b) => .move a b overwrite

def deleteOperations (t : Tree) (place : Place) : List FileOperation := (t.filesAt place).map fun q => .delete (pathOf q)

end Tree

/-- A place in a root that can be deleted. -/
structure DeleteOk (t : Tree) (root place : Place) : Prop where
  names : ∀ s ∈ place, IsName s
  inside : root <+: place
  ne_root : place ≠ root

/-- The source directories and the file operations that a plan can have. -/
inductive Arranged (t : Tree) (root : Place) : List SourceDir → List FileOperation → Prop where
  | moves {overwrite : Bool} {ms : List (Place × Place)} (h : MovesOk t root overwrite ms) :
    Arranged t root (ms.map fun m => ⟨pathOf m.1, some (pathOf m.2)⟩) (t.moveOperations overwrite ms)
  | moveFile {overwrite : Bool} {m : Place × Place} (h : MovesOk t root overwrite [m]) (hfile : t.get? m.1 ≠ some .dir) :
    Arranged t root [] (t.moveOperations overwrite [m])
  | deleteDirectory {place : Place} (h : DeleteOk t root place) (hdir : t.get? place = some .dir) :
    Arranged t root [⟨pathOf place, none⟩] (t.deleteOperations place)
  | deleteFile {place : Place} (h : DeleteOk t root place) {b : ByteArray} (hfile : t.get? place = some (.file b)) :
    Arranged t root [] (t.deleteOperations place)
  | edits : Arranged t root [] []

/-! ## Places of operations -/

/-- What a move takes along lies at the same place relative to its destination. -/
theorem mem_carried {t : Tree} (ht : t.WellFormed) {src dst : Place} {ab : Path × Path} :
    ab ∈ t.carried src dst ↔ ∃ rest, (∃ b, t.get? (src ++ rest) = some (.file b)) ∧
      ab = (pathOf (src ++ rest), pathOf (dst ++ rest)) := by
  unfold Tree.carried
  rw [List.mem_map]
  constructor
  · rintro ⟨q, hq, rfl⟩
    obtain ⟨⟨rest, rfl⟩, hfile⟩ := (Tree.mem_filesAt ht).mp hq
    exact ⟨rest, hfile, by simp [counterpart]⟩
  · rintro ⟨rest, hfile, rfl⟩
    exact ⟨src ++ rest, (Tree.mem_filesAt ht).mpr ⟨List.prefix_append _ _, hfile⟩, by simp [counterpart]⟩

theorem mem_moveOperations {t : Tree} (ht : t.WellFormed) {overwrite : Bool} {ms : List (Place × Place)}
    {op : FileOperation} : op ∈ t.moveOperations overwrite ms ↔ ∃ m ∈ ms, ∃ rest,
      (∃ b, t.get? (m.1 ++ rest) = some (.file b)) ∧ op = .move (pathOf (m.1 ++ rest)) (pathOf (m.2 ++ rest)) overwrite := by
  unfold Tree.moveOperations
  simp only [List.mem_map, List.mem_flatten]
  constructor
  · rintro ⟨ab, ⟨_, ⟨m, hm, rfl⟩, hab⟩, rfl⟩
    obtain ⟨rest, hfile, rfl⟩ := (mem_carried ht).mp hab
    exact ⟨m, hm, rest, hfile, rfl⟩
  · rintro ⟨m, hm, rest, hfile, rfl⟩
    exact ⟨_, ⟨_, ⟨m, hm, rfl⟩, (mem_carried ht).mpr ⟨rest, hfile, rfl⟩⟩, rfl⟩

theorem mem_deleteOperations {t : Tree} (ht : t.WellFormed) {place : Place} {op : FileOperation} :
    op ∈ t.deleteOperations place ↔ ∃ q, place <+: q ∧ (∃ b, t.get? q = some (.file b)) ∧ op = .delete (pathOf q) := by
  unfold Tree.deleteOperations
  rw [List.mem_map]
  constructor
  · rintro ⟨q, hq, rfl⟩
    obtain ⟨hlead, hfile⟩ := (Tree.mem_filesAt ht).mp hq
    exact ⟨q, hlead, hfile, rfl⟩
  · rintro ⟨q, hlead, hfile, rfl⟩
    exact ⟨q, (Tree.mem_filesAt ht).mpr ⟨hlead, hfile⟩, rfl⟩

namespace Arranged

variable {t : Tree} {root : Place} {dirs : List SourceDir} {ops : List FileOperation}

theorem straight (h : Arranged t root dirs ops) (ht : t.WellFormed) (hroot : root ≠ []) :
    (∀ op ∈ ops, ∀ q ∈ op.paths, q.Straight) ∧ ∀ c ∈ dirs, c.Straight := by
  have hbelow : ∀ {p rest : Place}, root <+: p → p ++ rest ≠ [] := by
    rintro p rest ⟨names, rfl⟩
    simp [hroot]
  have hplace : ∀ {p : Place}, (∀ s ∈ p, IsName s) → root <+: p → (pathOf p).Straight := fun {p} hp hin =>
    ⟨p, hp, by simpa using @hbelow p [] hin, rfl⟩
  have hmoves : ∀ {overwrite : Bool} {ms : List (Place × Place)}, MovesOk t root overwrite ms →
      ∀ op ∈ t.moveOperations overwrite ms, ∀ q ∈ op.paths, q.Straight := by
    intro overwrite ms hok op hop q hq
    obtain ⟨m, hm, rest, ⟨b, hfile⟩, rfl⟩ := (mem_moveOperations ht).mp hop
    have hnames := ht.isName (p := m.1 ++ rest) (by rw [hfile]; simp)
    have hok := hok.ok m hm
    simp only [FileOperation.paths, List.mem_cons, List.not_mem_nil, or_false] at hq
    rcases hq with rfl | rfl
    · exact hplace hnames (hok.src_in.trans (List.prefix_append _ _))
    · refine hplace (fun s hs => ?_) (hok.dst_in.trans (List.prefix_append _ _))
      rcases List.mem_append.mp hs with hs | hs
      · exact hok.dst_names s hs
      · exact hnames s (List.mem_append_right _ hs)
  have hdeletes : ∀ {place : Place}, DeleteOk t root place → ∀ op ∈ t.deleteOperations place,
      ∀ q ∈ op.paths, q.Straight := by
    intro place hok op hop q hq
    obtain ⟨p, hlead, ⟨b, hfile⟩, rfl⟩ := (mem_deleteOperations ht).mp hop
    rw [FileOperation.paths, List.mem_singleton] at hq
    rw [hq]
    exact hplace (ht.isName (by rw [hfile]; simp)) (hok.inside.trans hlead)
  cases h with
  | @moves _ ms hok =>
    refine ⟨hmoves hok, fun c hc => ?_⟩
    obtain ⟨m, hm, rfl⟩ := List.mem_map.mp hc
    have hok := hok.ok m hm
    refine ⟨hplace hok.src_names hok.src_in, fun d hd => ?_⟩
    obtain rfl := Option.some.inj hd
    exact hplace hok.dst_names hok.dst_in
  | moveFile hok => exact ⟨hmoves hok, by simp⟩
  | deleteDirectory hok =>
    refine ⟨hdeletes hok, fun c hc => ?_⟩
    rw [List.mem_singleton.mp hc]
    exact ⟨hplace hok.names hok.inside, by simp⟩
  | deleteFile hok => exact ⟨hdeletes hok, by simp⟩
  | edits => simp

end Arranged

/-! ## Drafts -/

/-- Drafts with file operations, and with text edits of absolute paths. -/
structure Draft.Does (ops : List FileOperation) (d : Draft) : Prop where
  operations : d.edit.operations = ops
  edited : d.edit.Only fun p => p.isAbsolute = true

structure Draft.Edits (file : Path) (d : Draft) : Prop where
  operations : d.edit.operations = []
  edited : d.edit.Only (· = file)

theorem Draft.Edits.does {file : Path} {d : Draft} (h : d.Edits file) (hfile : file.isAbsolute = true) : d.Does [] :=
  ⟨h.operations, h.edited.mono fun _ hp => hp ▸ hfile⟩

namespace Planning

variable {env : Planner} {root : Place}

/-! ## Moves -/

theorem Carried.all {t : Tree} {overwrite : Bool} {ms : List (Place × Place)} {pairs : List (List (Path × Path))}
    (h : List.Forall₂ (fun m => Carried t overwrite m.1 m.2) ms pairs) :
    pairs = ms.map (fun m => t.carried m.1 m.2) ∧ (∀ m ∈ ms, t.filesAt m.1 ≠ []) ∧
      (overwrite = false → ∀ m ∈ ms, ∀ q ∈ t.filesAt m.1, t.get? (counterpart m.1 m.2 q) = none) := by
  induction h with
  | nil => simp
  | cons hm _ ih =>
    obtain ⟨rfl, hnonempty, hfree⟩ := ih
    refine ⟨by rw [List.map_cons, hm.pairs_eq], fun m hmem => ?_, fun hoverwrite m hmem => ?_⟩
    · rcases List.mem_cons.mp hmem with rfl | hmem
      · exact hm.nonempty
      · exact hnonempty m hmem
    · rcases List.mem_cons.mp hmem with rfl | hmem
      · exact hm.free hoverwrite
      · exact hfree hoverwrite m hmem

theorem planMoves_does (h : env.Rooted root) (moves : Moves) :
    Yields env (search fun r t => r.planMoves t moves) fun found =>
      found.edit.operations = [] ∧ found.edit.Only fun p => p.isAbsolute = true := by
  refine Yields.search fun s => ?_
  have hedits : Ends (fun _ => True) (env.references.planMoves env.tree moves) _ := References.planMoves_edits
  obtain ⟨hoperations, honly⟩ := hedits s trivial
  refine ⟨hoperations, fun entry hentry => ?_⟩
  have hmem := honly entry hentry
  unfold References.projectFiles at hmem
  rw [h.searched, h.root_eq] at hmem
  obtain ⟨place, _, _, heq⟩ := Tree.projectFiles_places h.wellFormed.named _ h.names hmem
  rw [heq]
  exact Path.isAbsolute_pathOf place

theorem planChecked_yields (h : env.Rooted root) {overwrite : Bool} {ms : List (Place × Place)}
    (hok : ∀ m ∈ ms, MoveOk env.tree root overwrite m.1 m.2) (hapart : ms.Pairwise MovesApart) :
    Yields env (planChecked (ms.map (moveOf env.tree)) overwrite) fun d =>
      MovesOk env.tree root overwrite ms ∧ d.Does (env.tree.moveOperations overwrite ms) := by
  unfold planChecked
  rw [List.mapM_map]
  refine (Yields.mapM fun m hm => expandMove_yields h (hok m hm)).bind fun pairs hpairs => ?_
  obtain ⟨rfl, hnonempty, hfree⟩ := Carried.all hpairs
  dsimp only
  refine (planMoves_does h _).bind fun found ⟨hoperations, honly⟩ => Yields.pure ⟨⟨hok, hnonempty, hfree, hapart⟩, ?_⟩
  constructor
  · dsimp only
    rw [WorkspaceEdit.addOperations_eq fun m : Path × Path => .move m.1 m.2 overwrite, hoperations]
    rfl
  · dsimp only
    rw [WorkspaceEdit.addOperations_eq fun m : Path × Path => .move m.1 m.2 overwrite]
    exact honly

theorem planMove_yields (h : env.Rooted root) {source destination : Path} {overwrite : Bool}
    {expected : Option PathKind} (hsource : Resolved source) (hdestination : Resolved destination) :
    Yields env (planMove source destination overwrite expected) fun d => ∃ m : Place × Place,
      source = pathOf m.1 ∧ destination = pathOf m.2 ∧ (expected = some .file → env.tree.get? m.1 ≠ some .dir) ∧
        MovesOk env.tree root overwrite [m] ∧ d.Does (env.tree.moveOperations overwrite [m]) := by
  unfold planMove
  refine (checkMove_yields source destination overwrite expected).bind fun checked hchecked => ?_
  obtain ⟨m, hm, hm', rfl, hok⟩ := hchecked.places h hsource hdestination
  have hall : ∀ m' ∈ [m], MoveOk env.tree root overwrite m'.1 m'.2 := by simpa using hok
  refine (planChecked_yields h hall (List.pairwise_singleton _ _)).mono fun d hd => ?_
  refine ⟨m, hm, hm', fun hfile hdir => ?_, hd⟩
  have hkind := hchecked.expected .file hfile
  rw [moveOf, if_pos hdir] at hkind
  cases hkind

/-! ## Batches -/

theorem mem_pairs {α : Type} {xs : List α} {i j : Nat} (hij : i ≠ j) {a b : α} (ha : xs[i]? = some a)
    (hb : xs[j]? = some b) : (a, b) ∈ pairs xs := by
  have hmem : ∀ {k : Nat} {c : α}, xs[k]? = some c → (k, c) ∈ (List.range xs.length).zip xs := by
    intro k c hc
    obtain ⟨hk, rfl⟩ := List.getElem?_eq_some_iff.mp hc
    refine List.mem_iff_getElem.mpr ⟨k, by simpa using hk, by simp⟩
  unfold pairs
  refine List.mem_flatMap.mpr ⟨(i, a), hmem ha, List.mem_map.mpr ⟨(j, b), ?_, rfl⟩⟩
  exact List.mem_filter.mpr ⟨hmem hb, by simpa using hij.symm⟩

theorem checkDestinations_yields {ms : List MoveSpec} : ∀ {before : List MoveSpec},
    Yields env (checkDestinations ms before) fun _ =>
      (∀ m ∈ ms, ∀ b ∈ before, (b.destination == m.destination) = false) ∧
        ms.Pairwise fun a b => (a.destination == b.destination) = false := by
  induction ms with
  | nil => exact Yields.pure ⟨by simp, List.Pairwise.nil⟩
  | cons m ms ih =>
    intro before
    unfold checkDestinations
    split
    · exact Yields.andThen fun _ => Yields.andThen fun _ => Yields.andThen fun _ => Yields.throw _
    · rename_i hnone
      refine ih.mono fun _ ⟨hbefore, hpairwise⟩ => ⟨fun m' hm' b hb => ?_, ?_⟩
      · rcases List.mem_cons.mp hm' with rfl | hm'
        · simpa using List.find?_eq_none.mp hnone b hb
        · exact hbefore m' hm' b (List.mem_cons_of_mem _ hb)
      · exact List.pairwise_cons.mpr ⟨fun m' hm' => hbefore m' hm' m (by simp), hpairwise⟩

theorem checkPair_yields (a b : MoveSpec) : Yields env (checkPair a b) fun _ =>
    a.destination.startsWith b.source = false ∧ a.source.startsWith b.source = false := by
  unfold checkPair
  dsimp only
  split
  · exact Yields.andThen fun _ => Yields.andThen fun _ => Yields.throwBind _
  · rename_i hoverlap
    simp only [Bool.or_eq_true, not_or, Bool.not_eq_true] at hoverlap
    split
    · exact Yields.andThen fun _ => Yields.andThen fun _ => Yields.throw _
    · rename_i hinside
      exact Yields.pure ⟨hoverlap.2, by simpa using hinside⟩

/-- Checked moves are moves of places. -/
theorem MoveChecked.allPlaces (h : env.Rooted root) {overwrite : Bool} {specs : List MoveSpec}
    (hspecs : ∀ m ∈ specs, Resolved m.source ∧ Resolved m.destination) {checked : List CheckedMove}
    (hchecked : List.Forall₂ (fun m => MoveChecked env m.source m.destination overwrite none) specs checked) :
    ∃ ms : List (Place × Place), specs = ms.map (fun m => ⟨pathOf m.1, pathOf m.2⟩) ∧
      checked = ms.map (moveOf env.tree) ∧ ∀ m ∈ ms, MoveOk env.tree root overwrite m.1 m.2 := by
  induction hchecked with
  | nil => exact ⟨[], rfl, rfl, by simp⟩
  | @cons spec _ _ _ hm _ ih =>
    obtain ⟨ms, rfl, rfl, hok⟩ := ih fun m hm => hspecs m (List.mem_cons_of_mem _ hm)
    obtain ⟨hsource, hdestination⟩ := hspecs spec (by simp)
    obtain ⟨m, hm₁, hm₂, rfl, hmok⟩ := hm.places h hsource hdestination
    refine ⟨m :: ms, ?_, rfl, ?_⟩
    · rw [List.map_cons, ← hm₁, ← hm₂]
    · intro m' hm'
      rcases List.mem_cons.mp hm' with rfl | hm'
      · exact hmok
      · exact hok m' hm'

theorem movesApart_of_checks {t : Tree} {overwrite : Bool} {ms : List (Place × Place)}
    (hok : ∀ m ∈ ms, MoveOk t root overwrite m.1 m.2)
    (hdestinations : ms.Pairwise fun a b => (pathOf a.2 == pathOf b.2) = false)
    (hpairs : ∀ (i j : Nat) (a b : Place × Place), i ≠ j → ms[i]? = some a → ms[j]? = some b →
      (pathOf a.2).startsWith (pathOf b.1) = false ∧ (pathOf a.1).startsWith (pathOf b.1) = false) :
    ms.Pairwise MovesApart := by
  rw [List.pairwise_iff_getElem] at hdestinations ⊢
  intro i j hi hj hij
  have hstarts : ∀ {p q : Place}, (∀ s ∈ p, IsName s) → (∀ s ∈ q, IsName s) →
      (pathOf p).startsWith (pathOf q) = false → ¬q <+: p := fun hp hq hstarts hlead => by
    rw [(startsWith_pathOf_iff hp hq).mpr hlead] at hstarts
    cases hstarts
  have ha := hok _ (List.getElem_mem hi)
  have hb := hok _ (List.getElem_mem hj)
  have hab := hpairs i j _ _ hij.ne (List.getElem?_eq_getElem hi) (List.getElem?_eq_getElem hj)
  have hba := hpairs j i _ _ hij.ne' (List.getElem?_eq_getElem hj) (List.getElem?_eq_getElem hi)
  refine ⟨fun heq => ?_, hstarts ha.dst_names hb.src_names hab.1, hstarts hb.dst_names ha.src_names hba.1,
    hstarts ha.src_names hb.src_names hab.2, hstarts hb.src_names ha.src_names hba.2⟩
  have hne := hdestinations i j hi hj hij
  rw [heq] at hne
  simp at hne

theorem planBatch_yields (h : env.Rooted root) {specs : List MoveSpec} {overwrite : Bool}
    (hspecs : ∀ m ∈ specs, Resolved m.source ∧ Resolved m.destination) :
    Yields env (planBatch specs overwrite) fun d => ∃ ms : List (Place × Place),
      specs = ms.map (fun m => ⟨pathOf m.1, pathOf m.2⟩) ∧ MovesOk env.tree root overwrite ms ∧
        d.Does (env.tree.moveOperations overwrite ms) := by
  unfold planBatch
  refine Yields.unlessThrow fun _ => checkDestinations_yields.bind fun _ ⟨_, hdestinations⟩ => ?_
  refine (Yields.forM fun ab _ => checkPair_yields ab.1 ab.2).bind fun _ hpairs => ?_
  refine (Yields.mapM fun m _ => checkMove_yields m.source m.destination overwrite none).bind fun checked hchecked => ?_
  obtain ⟨ms, rfl, rfl, hok⟩ := MoveChecked.allPlaces h hspecs hchecked
  have hapart : ms.Pairwise MovesApart := by
    refine movesApart_of_checks hok (List.pairwise_map.mp hdestinations) fun i j a b hij ha hb => ?_
    refine hpairs (⟨pathOf a.1, pathOf a.2⟩, ⟨pathOf b.1, pathOf b.2⟩) (mem_pairs hij ?_ ?_)
    · rw [List.getElem?_map, ha]
      rfl
    · rw [List.getElem?_map, hb]
      rfl
  exact (planChecked_yields h hok hapart).mono fun d hd => ⟨ms, rfl, hd⟩

/-! ## Deletions -/

theorem planDeletePath_yields (h : env.Rooted root) {path : Path} (hpath : Resolved path) (directory : Bool) :
    Yields env (planDeletePath path directory) fun d => ∃ place, path = pathOf place ∧
      DeleteOk env.tree root place ∧ (env.tree.get? place = some .dir ↔ directory = true) ∧
        env.tree.get? place ≠ none ∧ d.Does (env.tree.deleteOperations place) := by
  unfold planDeletePath
  refine (Yields.ensureInRoot path).bind fun _ hin => ?_
  obtain ⟨place, hnames, hinside, rfl⟩ := hpath.place h hin
  refine Yields.readBind <| Yields.unlessThrow fun hroot => ?_
  refine (Yields.exists? _).bind fun _ hthere => Yields.whenThrow fun hthere' => ?_
  refine (Yields.isDir _).bind fun _ hisDir => Yields.unlessThrowOf fun hkind => ?_
  subst hthere hisDir
  have hget := (Tree.exists?_names_iff h.wellFormed hnames).mp hthere'
  have hdir : env.tree.get? place = some .dir ↔ directory = true := by
    rw [← Tree.isDir_names_iff h.wellFormed hnames]
    simp only [bne_iff_ne, ne_eq, not_not] at hkind
    rw [hkind]
  have hok : DeleteOk env.tree root place := by
    refine ⟨hnames, hinside, fun heq => hroot ?_⟩
    rw [h.root_eq, Path.pathOf_beq_iff hnames h.names]
    exact heq
  have hrest : ∀ files : List Path, files = (env.tree.filesAt place).map pathOf →
      ∀ {warnings : List PlanWarning} {dependents : List Path}, Draft.Does (env.tree.deleteOperations place)
        { edit := files.foldl (fun e f => e.addOperation (.delete f)) {}, warnings, dependents } := by
    rintro _ rfl warnings dependents
    rw [WorkspaceEdit.addOperations_eq fun f : Path => .delete f]
    refine ⟨?_, by simp [WorkspaceEdit.Only]⟩
    simp [Tree.deleteOperations, Function.comp_def]
  dsimp only
  split
  · have hfiles : Yields env (ofExcept (env.tree.filesUnder (pathOf place)))
        (· = (env.tree.filesAt place).map pathOf) := by
      rw [Tree.filesUnder_names h.wellFormed hnames hget]
      exact Yields.pure rfl
    refine Yields.readBind <| hfiles.bind fun files hfiles => ?_
    exact Yields.andThen fun _ => Yields.andThen fun _ => Yields.pure ⟨place, rfl, hok, hdir, hget, hrest files hfiles⟩
  · rename_i hfile
    have hfiles : [pathOf place] = (env.tree.filesAt place).map pathOf := by
      obtain ⟨e, he⟩ := Option.ne_none_iff_exists'.mp hget
      rcases h.wellFormed.file_or_dir he with rfl | ⟨b, rfl⟩
      · exact absurd (hdir.mp he) hfile
      · rw [filesAt_file h.wellFormed he]
        rfl
    refine (Yields.pure (Q := (· = [pathOf place])) rfl).bind fun files hpath => ?_
    exact Yields.andThen fun _ => Yields.andThen fun _ =>
      Yields.pure ⟨place, rfl, hok, hdir, hget, hrest files (hpath.trans hfiles)⟩

/-! ## Edits inside files -/

theorem Resolved.isAbsolute {p : Path} (h : Resolved p) : p.isAbsolute = true := by
  obtain ⟨ss, _, rfl⟩ := h
  exact Path.isAbsolute_pathOf ss

theorem fileDraft_edits (file : Path) (edits : List TextEdit) : (fileDraft file edits).Edits file :=
  ⟨rfl, WorkspaceEdit.Only.addEdits (P := (· = file)) .empty rfl edits⟩

theorem planExtract_yields (file : Path) (kind : ExtractKind) (range : Span) (name : String) :
    Yields env (planExtract kind file range name) (Draft.Edits file) := by
  unfold planExtract
  refine Yields.andThen fun _ => Yields.whenThrow fun _ => ?_
  cases kind <;> exact Yields.andThen fun _ => Yields.andThen fun _ => Yields.andThen fun edits =>
    Yields.pure (fileDraft_edits file edits)

theorem planInline_yields (file : Path) (kind : InlineKind) (position : Position) :
    Yields env (planInline kind file position) (Draft.Edits file) := by
  unfold planInline
  refine Yields.andThen fun _ => ?_
  cases kind <;> exact Yields.andThen fun _ => Yields.andThen fun _ => Yields.andThen fun edits =>
    Yields.pure (fileDraft_edits file edits)

theorem planDeleteSymbol_yields (file : Path) (position : Position) :
    Yields env (planDeleteSymbol file position) (Draft.Edits file) := by
  have hedits : ∀ (edits : List TextEdit) {warnings : List PlanWarning} {dependents : List Path},
      Draft.Edits file { edit := ({} : WorkspaceEdit).addEdits file edits, warnings, dependents } := fun edits =>
    ⟨rfl, WorkspaceEdit.Only.addEdits (P := (· = file)) .empty rfl edits⟩
  unfold planDeleteSymbol
  refine Yields.andThen fun _ => Yields.readBind ?_
  dsimp only
  split
  · refine Yields.andThen fun _ => Yields.andThen fun _ => Yields.andThen fun edits => Yields.andThen fun answer => ?_
    cases answer with
    | error e => exact Yields.pure (hedits edits)
    | ok locations => exact Yields.pure (hedits edits)
  · exact Yields.andThen fun _ => Yields.throwBind _

structure EditsOnly (P : Path → Prop) (d : Draft) : Prop where
  operations : d.edit.operations = []
  edited : d.edit.Only P

/-- A rename edits locations in the root. -/
theorem renameAt_yields {P : Path → Prop} (old new : String) (acc : RenameDraft) (l : Location)
    (hl : l.path.startsWith env.root = true → P l.path) (hacc : EditsOnly P acc.draft) :
    Yields env (renameAt old new acc l) fun r => EditsOnly P r.draft := by
  unfold renameAt
  refine Yields.readBind ?_
  dsimp only
  split
  · rename_i hin
    have hedited : ∀ es : List TextEdit, (acc.draft.edit.addEdits l.path es).Only P := hacc.edited.addEdits (hl hin)
    split
    · refine Yields.andThen fun text => ?_
      split
      · exact Yields.pure ⟨hacc.operations, hedited _⟩
      · exact Yields.andThen fun _ => Yields.pure ⟨hacc.operations, hacc.edited⟩
    · refine Yields.andThen fun _ => Yields.andThen fun text => ?_
      split
      · exact Yields.pure ⟨hacc.operations, hedited _⟩
      · exact Yields.andThen fun _ => Yields.pure ⟨hacc.operations, hacc.edited⟩
  · exact Yields.pure hacc

/-- A location that was answered for a symbol, in the root as far as its components tell. -/
def Located (env : Planner) (p : Path) : Prop :=
  p.startsWith env.root = true ∧ ∃ file position locations, env.intelligence.references file position = .ok locations ∧
    ∃ l ∈ locations, l.path = p

theorem isAbsolute_of_inside (h : env.Sited root) {p : Path} (hin : p.startsWith env.root = true) : p.isAbsolute = true := by
  rw [h.root_eq, Path.startsWith_iff, Path.components_names h.names] at hin
  obtain ⟨rest, hrest⟩ := hin
  exact Path.isAbsolute_of_components hrest.symm

theorem Located.isAbsolute (h : env.Sited root) {p : Path} (hp : Located env p) : p.isAbsolute = true :=
  isAbsolute_of_inside h hp.1

theorem planRename_yields (target : SymbolTarget) (newName : String) :
    Yields env (planRename target newName) fun o => ∀ d, o = .inl d → EditsOnly (Located env) d := by
  unfold planRename
  refine Yields.whenThrow fun _ => Yields.andThen fun resolved => ?_
  cases resolved with
  | ambiguous candidates => exact Yields.pure fun d hd => by cases hd
  | at_ file position =>
    refine Yields.andThen fun source => Yields.andThen fun old => Yields.unlessThrow fun _ => ?_
    refine (Yields.findReferences file position).bind fun locations hlocations => Yields.unlessThrow fun _ => ?_
    refine (Yields.foldlM (I := fun acc => EditsOnly (Located env) acc.draft) (fun acc l hl hacc =>
      renameAt_yields old newName acc l (fun hin => ⟨hin, file, position, locations, hlocations, l, hl, rfl⟩) hacc)
      ⟨rfl, WorkspaceEdit.Only.empty⟩).bind fun renamed hrenamed => Yields.unlessThrow fun _ => Yields.pure ?_
    intro d hd
    cases hd
    exact hrenamed

theorem EditsOnly.does (h : env.Sited root) {d : Draft} (hd : EditsOnly (Located env) d) : d.Does [] :=
  ⟨hd.operations, hd.edited.mono fun _ hp => hp.isAbsolute h⟩

/-! ## Plans -/

/-- A plan with the operations that one of its sort can have, and with text edits of absolute paths. -/
structure Planned (env : Planner) (root : Place) (plan : Plan) : Prop where
  arranged : Arranged env.tree root plan.dirCandidates plan.edit.operations
  edited : plan.edit.Only fun p => p.isAbsolute = true

/-- A draft that is arranged as its operation asks for. -/
def DraftFor (env : Planner) (root : Place) (op : Operation) (d : Draft) : Prop :=
  ∃ ops, Arranged env.tree root op.dirCandidates ops ∧ d.Does ops

theorem draftOf_yields (h : env.Rooted root) (op : Operation) :
    Yields env (draftOf (op.anchored env.root)) fun o => ∀ d, o = .inl d → DraftFor env root (op.anchored env.root) d := by
  have hres : ∀ p : Path, Resolved (p.resolveIn env.root) := resolveIn_resolved h.sited
  have hmove : ∀ {op' : Operation} (a b : Path) (overwrite : Bool) (expected : Option PathKind),
      op'.dirCandidates = [⟨a.resolveIn env.root, some (b.resolveIn env.root)⟩] →
      Yields env (planMove (a.resolveIn env.root) (b.resolveIn env.root) overwrite expected)
        (DraftFor env root op') := by
    intro op' a b overwrite expected hdirs
    refine (planMove_yields h (hres a) (hres b)).mono ?_
    rintro d ⟨m, hsource, hdestination, _, hok, hd⟩
    refine ⟨_, ?_, hd⟩
    rw [hdirs, hsource, hdestination]
    exact Arranged.moves hok
  have hedits : ∀ {op' : Operation} {file : Path} {m : Planning Draft}, op'.dirCandidates = [] →
      Yields env m (Draft.Edits (file.resolveIn env.root)) → Yields env m (DraftFor env root op') := fun hdirs hm =>
    hm.mono fun d hd => ⟨[], hdirs ▸ Arranged.edits, hd.does (hres _).isAbsolute⟩
  cases op with
  | renameFile a b overwrite =>
    refine ((planMove_yields h (hres a) (hres b)).mono ?_).inl
    rintro d ⟨m, _, _, hfile, hok, hd⟩
    exact ⟨_, Arranged.moveFile hok (hfile rfl), hd⟩
  | renameDirectory a b overwrite => exact (hmove a b overwrite _ rfl).inl
  | move a b overwrite => exact (hmove a b overwrite _ rfl).inl
  | batchMove specs overwrite =>
    refine ((planBatch_yields h ?_).mono ?_).inl
    · intro m hm
      obtain ⟨spec, _, rfl⟩ := List.mem_map.mp hm
      exact ⟨hres _, hres _⟩
    · rintro d ⟨ms, hspecs, hok, hd⟩
      refine ⟨_, ?_, hd⟩
      unfold Operation.anchored Operation.dirCandidates
      dsimp only
      rw [hspecs, List.map_map]
      exact Arranged.moves hok
  | renameSymbol target name =>
    have hrename : ∀ {op' : Operation} (target : SymbolTarget), op'.dirCandidates = [] →
        Yields env (planRename target name) fun o => ∀ d, o = .inl d → DraftFor env root op' d := fun target hdirs =>
      (planRename_yields target name).mono fun o ho d hd => ⟨[], hdirs ▸ Arranged.edits, (ho d hd).does h.sited⟩
    cases target <;> exact hrename _ rfl
  | extract kind file range name => exact (hedits rfl (planExtract_yields _ kind range name)).inl
  | inline kind file position => exact (hedits rfl (planInline_yields _ kind position)).inl
  | delete target =>
    cases target with
    | symbol file position => exact (hedits rfl (planDeleteSymbol_yields _ position)).inl
    | file path =>
      refine ((planDeletePath_yields h (hres path) false).mono ?_).inl
      rintro d ⟨place, _, hok, hdir, hget, hd⟩
      obtain ⟨e, he⟩ := Option.ne_none_iff_exists'.mp hget
      rcases h.wellFormed.file_or_dir he with rfl | ⟨b, rfl⟩
      · exact absurd (hdir.mp he) (by simp)
      · exact ⟨_, Arranged.deleteFile hok he, hd⟩
    | directory path =>
      refine ((planDeletePath_yields h (hres path) true).mono ?_).inl
      rintro d ⟨place, hpath, hok, hdir, _, hd⟩
      refine ⟨_, ?_, hd⟩
      unfold Operation.anchored Operation.dirCandidates
      dsimp only
      rw [hpath]
      exact Arranged.deleteDirectory hok (hdir.mpr rfl)

theorem finalize_yields {id : PlanId} {op : Operation} {draft : Draft} (h : DraftFor env root op draft) :
    Yields env (finalize id op draft) (Planned env root) := by
  obtain ⟨ops, harranged, hdoes⟩ := h
  unfold finalize
  refine (Yields.ofExcept fun edit hedit => hedit).bind fun edit hedit => ?_
  obtain ⟨hoperations, honly⟩ := WorkspaceEdit.merge_keeps hedit
  refine Yields.andThen fun _ => Yields.andThen fun _ => Yields.andThen fun checksums => Yields.pure ⟨?_, ?_⟩
  · show Arranged env.tree root op.dirCandidates edit.operations
    rw [hoperations, hdoes.operations]
    exact harranged
  · exact honly hdoes.edited

/-- What is known of a plan once it is known of the draft. -/
theorem build_of_draft {D : Draft → Prop} {Q : Plan → Prop} {id : PlanId} {op : Operation}
    (hdraft : Yields env (draftOf (op.anchored env.root)) fun o => ∀ d, o = .inl d → D d)
    (hplan : ∀ d, D d → Yields env (finalize id (op.anchored env.root) d) Q) :
    Yields env (build id op) fun o => ∀ plan, o = .ready plan → Q plan := by
  unfold build
  refine Yields.readBind <| hdraft.bind fun outcome houtcome => ?_
  cases outcome with
  | inl draft =>
    refine (hplan draft (houtcome draft rfl)).bind fun plan hplan => Yields.pure fun plan' heq => ?_
    cases heq
    exact hplan
  | inr candidates => exact Yields.pure fun plan heq => by cases heq

/-- A built plan is arranged, and the paths that it edits are absolute. -/
theorem build_yields (h : env.Rooted root) (id : PlanId) (op : Operation) :
    Yields env (build id op) fun o => ∀ plan, o = .ready plan → Planned env root plan :=
  build_of_draft (draftOf_yields h op) fun _ hd => finalize_yields hd

end Planning

end Refactor
