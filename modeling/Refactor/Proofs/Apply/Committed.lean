import Refactor.Proofs.Apply.AllOrNothing
import Refactor.Proofs.Apply.Emptied

/-!
# What a commit leaves

A committed apply has done to the files what its plan says when it is read as one substitution on the tree of before, in
whatever order the operations stand. A directory that was moved or deleted as a whole is gone; what was a directory in it
is one at its counterpart, when the move could not overwrite anything and no other move has its destination there.

* `Workspace.apply_success` — how an apply comes to commit
* `Workspace.writing_files` — the files after the writing
* `Plan.Transfers` — whole directories that are gone, and their counterparts
* `Workspace.apply_built_commits` — what a committed apply of a built plan leaves
-/

set_option linter.unusedSectionVars false

namespace Refactor

open Tree (pathOf placeOf Beside)
open Path (IsName)

variable {σ : Type} [TreeBacked σ]

/-! ## Places of checked edits -/

theorem Path.Straight.placeOf_ne {p q : Path} (hp : p.Straight) (hq : q.Straight) (h : (p == q) = false) :
    placeOf p ≠ placeOf q := by
  obtain ⟨place, hplace, _, rfl⟩ := hp
  obtain ⟨place', hplace', _, rfl⟩ := hq
  rw [← Bool.not_eq_true, Path.pathOf_beq_iff hplace hplace'] at h
  rwa [Tree.placeOf_names hplace, Tree.placeOf_names hplace']

theorem FileOperation.mem_paths_iff {op : FileOperation} {p : Path} : p ∈ op.paths ↔ p ∈ op.source? ∨ p ∈ op.destination? := by
  cases op with
  | move a b o =>
    simp only [FileOperation.paths, FileOperation.source?, FileOperation.destination?, List.mem_cons, List.not_mem_nil,
      or_false, Option.mem_some, eq_comm]
  | create q c o =>
    simp only [FileOperation.paths, FileOperation.source?, FileOperation.destination?, List.mem_singleton,
      Option.not_mem_none, Option.mem_some, false_or, eq_comm]
  | delete q =>
    simp only [FileOperation.paths, FileOperation.source?, FileOperation.destination?, List.mem_singleton,
      Option.not_mem_none, Option.mem_some, or_false, eq_comm]

theorem FileOperation.source_mem_paths {op : FileOperation} {a : Path} (h : a ∈ op.source?) : a ∈ op.paths :=
  mem_paths_iff.mpr (Or.inl h)

theorem FileOperation.destination_mem_paths {op : FileOperation} {b : Path} (h : b ∈ op.destination?) : b ∈ op.paths :=
  mem_paths_iff.mpr (Or.inr h)

/-- Operations of checked edits with straight paths meet nowhere. -/
theorem WorkspaceEdit.Checked.placesApart {w : WorkspaceEdit} (h : w.Checked)
    (hstraight : ∀ op ∈ w.operations, ∀ p ∈ op.paths, p.Straight) :
    w.operations.Pairwise FileOperation.PlacesApart := by
  refine h.apart.imp_of_mem fun {op op'} hop hop' hapart => ?_
  have hne : ∀ {o o' : FileOperation}, o ∈ w.operations → o' ∈ w.operations → ∀ {x y : Option Path},
      (∀ p ∈ x, p ∈ o.paths) → (∀ p ∈ y, p ∈ o'.paths) → (∀ p ∈ x, ∀ p' ∈ y, (p == p') = false) →
      ∀ q, x.map placeOf = some q → y.map placeOf ≠ some q := by
    intro o o' ho ho' x y hx hy hdiffer q hq hq'
    obtain ⟨p, hp, rfl⟩ := Option.map_eq_some_iff.mp hq
    obtain ⟨p', hp', heq⟩ := Option.map_eq_some_iff.mp hq'
    exact (hstraight o ho p (hx p hp)).placeOf_ne (hstraight o' ho' p' (hy p' hp')) (hdiffer p hp p' hp') heq.symm
  refine ⟨?_, ?_, ?_, ?_⟩
  · exact hne hop hop' (fun _ => FileOperation.source_mem_paths) (fun _ => FileOperation.source_mem_paths)
      hapart.sources
  · exact hne hop hop' (fun _ => FileOperation.destination_mem_paths) (fun _ => FileOperation.destination_mem_paths)
      hapart.destinations
  · exact hne hop hop' (fun _ => FileOperation.source_mem_paths) (fun _ => FileOperation.destination_mem_paths)
      hapart.before
  · refine hne hop hop' (fun _ => FileOperation.destination_mem_paths) (fun _ => FileOperation.source_mem_paths) ?_
    intro d hd s hs
    rw [Path.beq_comm]
    exact hapart.after s hs d hd

/-! ## Arranged plans -/

def FileOperation.replaces : FileOperation → Bool
  | .move _ _ overwrite => overwrite
  | _ => false

def WorkspaceEdit.Sparing (w : WorkspaceEdit) : Prop := ∀ op ∈ w.operations, op.replaces = false

instance (w : WorkspaceEdit) : Decidable w.Sparing :=
  inferInstanceAs (Decidable (∀ op ∈ w.operations, op.replaces = false))

/-- No destination is a directory that is moved or deleted as a whole, or contains one. -/
def DirsAside (t : Tree) (dirs : List SourceDir) : Prop :=
  ∀ c ∈ dirs, t.get? (placeOf c.path) = some .dir → ∀ c' ∈ dirs, ∀ d ∈ c'.destination, ¬placeOf d <+: placeOf c.path

instance {t : Tree} {dirs : List SourceDir} : Decidable (DirsAside t dirs) :=
  inferInstanceAs (Decidable (∀ c ∈ dirs, t.get? (placeOf c.path) = some .dir → ∀ c' ∈ dirs, ∀ d ∈ c'.destination,
    ¬placeOf d <+: placeOf c.path))

section Arranged

variable {t : Tree} {root : Place} {overwrite : Bool} {ms : List (Place × Place)}

theorem MovesOk.not_overwrite (h : MovesOk t root overwrite ms) (ht : t.WellFormed) {m : Place × Place} (hm : m ∈ ms)
    (hsparing : ∀ op ∈ t.moveOperations overwrite ms, op.replaces = false) : overwrite = false := by
  obtain ⟨q, hq⟩ := List.exists_mem_of_ne_nil _ (h.nonempty m hm)
  obtain ⟨⟨rest, rfl⟩, hfile⟩ := (Tree.mem_filesAt ht).mp hq
  exact hsparing _ ((mem_moveOperations ht).mpr ⟨m, hm, rest, hfile, rfl⟩)

theorem MovesOk.not_into (h : MovesOk t root overwrite ms) {m m' : Place × Place} (hm : m ∈ ms) (hm' : m' ∈ ms)
    (hdir : t.get? m.1 = some .dir) : ¬m.1 <+: m'.2 := by
  by_cases hsame : m = m'
  · rw [← hsame]
    exact (h.ok m hm).outside hdir
  · exact (h.apart.forall hm hm' hsame).into'

theorem MovesOk.not_around (h : MovesOk t root false ms) (ht : t.WellFormed) {m' : Place × Place} (hm' : m' ∈ ms)
    {p : Place} (hdir : t.get? p = some .dir) : ¬m'.2 <+: p := by
  have hfree : t.get? m'.2 = none := by
    by_contra hthere
    exact absurd ((h.ok m' hm').free hthere).1 (by simp)
  rintro ⟨rest, rfl⟩
  by_cases hnil : rest = []
  · rw [hnil, List.append_nil, hfree] at hdir
    cases hdir
  · rw [ht.get?_below (by rw [hfree]; simp) hnil] at hdir
    cases hdir

/-- An operation of moves takes the file at a place to its counterpart. -/
theorem MovesOk.operation_places (h : MovesOk t root overwrite ms) (ht : t.WellFormed) {op : FileOperation}
    (hop : op ∈ t.moveOperations overwrite ms) : ∃ m ∈ ms, ∃ rest, (∃ b, t.get? (m.1 ++ rest) = some (.file b)) ∧
      op.sourcePlace? = some (m.1 ++ rest) ∧ op.targetPlace? = some (m.2 ++ rest) := by
  obtain ⟨m, hm, rest, ⟨b, hfile⟩, rfl⟩ := (mem_moveOperations ht).mp hop
  have hnames := ht.isName (p := m.1 ++ rest) (by rw [hfile]; simp)
  have htarget : ∀ s ∈ m.2 ++ rest, IsName s := by
    intro s hs
    rcases List.mem_append.mp hs with hs | hs
    · exact (h.ok m hm).dst_names s hs
    · exact hnames s (List.mem_append_right _ hs)
  exact ⟨m, hm, rest, ⟨b, hfile⟩, congrArg some (Tree.placeOf_names hnames), congrArg some (Tree.placeOf_names htarget)⟩

end Arranged

namespace Arranged

variable {t : Tree} {root : Place} {dirs : List SourceDir} {ops : List FileOperation}

theorem aside (h : Arranged t root dirs ops) (ht : t.WellFormed) (hsparing : ∀ op ∈ ops, op.replaces = false) :
    DirsAside t dirs := by
  intro c hc hdir c' hc' d hd
  cases h with
  | @moves overwrite ms hok =>
    obtain ⟨m', hm', rfl⟩ := List.mem_map.mp hc'
    obtain rfl := Option.some.inj hd
    obtain rfl := hok.not_overwrite ht hm' hsparing
    rw [Tree.placeOf_names (hok.ok m' hm').dst_names]
    exact hok.not_around ht hm' hdir
  | deleteDirectory =>
    rw [List.mem_singleton.mp hc'] at hd
    cases hd
  | moveFile => cases hc
  | deleteFile => cases hc
  | edits => cases hc

/-- A whole directory lies beside all destinations. -/
theorem dir_beside (h : Arranged t root dirs ops) (haside : DirsAside t dirs) {c c' : SourceDir} (hc : c ∈ dirs)
    (hc' : c' ∈ dirs) (hdir : t.get? (placeOf c.path) = some .dir) {d : Path} (hd : d ∈ c'.destination) :
    Beside (placeOf c.path) (placeOf d) := by
  refine ⟨?_, haside c hc hdir c' hc' d hd⟩
  cases h with
  | @moves overwrite ms hok =>
    obtain ⟨m, hm, rfl⟩ := List.mem_map.mp hc
    obtain ⟨m', hm', rfl⟩ := List.mem_map.mp hc'
    obtain rfl := Option.some.inj hd
    rw [Tree.placeOf_names (hok.ok m hm).src_names] at hdir ⊢
    rw [Tree.placeOf_names (hok.ok m' hm').dst_names]
    exact hok.not_into hm hm' hdir
  | deleteDirectory =>
    rw [List.mem_singleton.mp hc'] at hd
    cases hd
  | moveFile => cases hc
  | deleteFile => cases hc
  | edits => cases hc

theorem sourcesApart (h : Arranged t root dirs ops) (ht : t.WellFormed) (hroot : root ≠ [])
    (haside : DirsAside t dirs) {sources : List SourceDir} (hsources : sources.Sublist dirs)
    (hdirs : ∀ c ∈ sources, t.get? (placeOf c.path) = some .dir) : Transaction.SourcesApart sources := by
  refine ⟨fun c hc => (h.straight ht hroot).2 c (hsources.subset hc), ?_, fun c hc c' hc' d hd =>
    h.dir_beside haside (hsources.subset hc) (hsources.subset hc') (hdirs c hc) hd⟩
  cases h with
  | @moves overwrite ms hok =>
    refine (List.pairwise_map.mpr (hok.apart.imp_of_mem fun {m m'} hm hm' hapart => ?_)).sublist hsources
    rw [Tree.placeOf_names (hok.ok m hm).src_names, Tree.placeOf_names (hok.ok m' hm').src_names]
    exact ⟨hapart.inside', hapart.inside⟩
  | deleteDirectory => exact (List.pairwise_singleton _ _).sublist hsources
  | moveFile => exact List.Pairwise.nil.sublist hsources
  | deleteFile => exact List.Pairwise.nil.sublist hsources
  | edits => exact List.Pairwise.nil.sublist hsources

theorem ne_root (h : Arranged t root dirs ops) {c : SourceDir} (hc : c ∈ dirs) : placeOf c.path ≠ root := by
  cases h with
  | @moves overwrite ms hok =>
    obtain ⟨m, hm, rfl⟩ := List.mem_map.mp hc
    rw [Tree.placeOf_names (hok.ok m hm).src_names]
    exact (hok.ok m hm).src_ne_root
  | deleteDirectory hok =>
    rw [List.mem_singleton.mp hc, Tree.placeOf_names hok.names]
    exact hok.ne_root
  | moveFile => cases hc
  | deleteFile => cases hc
  | edits => cases hc

/-- Files are put beside the whole directories. -/
theorem target_beside (h : Arranged t root dirs ops) (ht : t.WellFormed) (haside : DirsAside t dirs) {c : SourceDir}
    (hc : c ∈ dirs) (hdir : t.get? (placeOf c.path) = some .dir) {op : FileOperation} (hop : op ∈ ops) {place : Place}
    (hplace : op.targetPlace? = some place) : Beside (placeOf c.path) place := by
  have hbeside := fun {c' : SourceDir} (hc' : c' ∈ dirs) {d : Path} (hd : d ∈ c'.destination) =>
    h.dir_beside haside hc hc' hdir hd
  cases h with
  | @moves overwrite ms hok =>
    obtain ⟨m', hm', rest, _, _, htarget⟩ := hok.operation_places ht hop
    obtain rfl := Option.some.inj (htarget.symm.trans hplace)
    have hfar := hbeside (List.mem_map_of_mem hm') (d := pathOf m'.2) rfl
    rw [Tree.placeOf_names (hok.ok m' hm').dst_names] at hfar
    exact (hfar.symm.append rest).symm
  | deleteDirectory =>
    obtain ⟨q, _, _, rfl⟩ := (mem_deleteOperations ht).mp hop
    cases hplace
  | moveFile => cases hc
  | deleteFile => cases hc
  | edits => cases hc

/-- Every file in a whole directory is taken away. -/
theorem exists_source (h : Arranged t root dirs ops) (ht : t.WellFormed) {c : SourceDir} (hc : c ∈ dirs) {q : Place}
    (hq : placeOf c.path <+: q) {b : ByteArray} (hfile : t.get? q = some (.file b)) :
    ∃ op ∈ ops, op.sourcePlace? = some q := by
  have hnames := ht.isName (p := q) (by rw [hfile]; simp)
  cases h with
  | @moves overwrite ms hok =>
    obtain ⟨m, hm, rfl⟩ := List.mem_map.mp hc
    rw [Tree.placeOf_names (hok.ok m hm).src_names] at hq
    obtain ⟨rest, rfl⟩ := hq
    exact ⟨_, (mem_moveOperations ht).mpr ⟨m, hm, rest, ⟨b, hfile⟩, rfl⟩, congrArg some (Tree.placeOf_names hnames)⟩
  | @deleteDirectory place hok =>
    rw [List.mem_singleton.mp hc, Tree.placeOf_names hok.names] at hq
    exact ⟨_, (mem_deleteOperations ht).mpr ⟨q, hq, ⟨b, hfile⟩, rfl⟩, congrArg some (Tree.placeOf_names hnames)⟩
  | moveFile => cases hc
  | deleteFile => cases hc
  | edits => cases hc

/-- What goes somewhere takes a file along. -/
theorem exists_carried (h : Arranged t root dirs ops) (ht : t.WellFormed) {c : SourceDir} (hc : c ∈ dirs) {d : Path}
    (hd : d ∈ c.destination) : ∃ op ∈ ops, ∃ rest, (∃ b, t.get? (placeOf c.path ++ rest) = some (.file b)) ∧
      op.sourcePlace? = some (placeOf c.path ++ rest) ∧ op.targetPlace? = some (placeOf d ++ rest) := by
  cases h with
  | @moves overwrite ms hok =>
    obtain ⟨m, hm, rfl⟩ := List.mem_map.mp hc
    obtain rfl := Option.some.inj hd
    rw [Tree.placeOf_names (hok.ok m hm).src_names, Tree.placeOf_names (hok.ok m hm).dst_names]
    obtain ⟨q, hq⟩ := List.exists_mem_of_ne_nil _ (hok.nonempty m hm)
    obtain ⟨⟨rest, rfl⟩, b, hfile⟩ := (Tree.mem_filesAt ht).mp hq
    have hnames := ht.isName (p := m.1 ++ rest) (by rw [hfile]; simp)
    refine ⟨_, (mem_moveOperations ht).mpr ⟨m, hm, rest, ⟨b, hfile⟩, rfl⟩, rest, ⟨b, hfile⟩,
      congrArg some (Tree.placeOf_names hnames), congrArg some (Tree.placeOf_names fun s hs => ?_)⟩
    rcases List.mem_append.mp hs with hs | hs
    · exact (hok.ok m hm).dst_names s hs
    · exact hnames s (List.mem_append_right _ hs)
  | deleteDirectory =>
    rw [List.mem_singleton.mp hc] at hd
    cases hd
  | moveFile => cases hc
  | deleteFile => cases hc
  | edits => cases hc

/-- The counterpart of a directory in a whole directory is free, and so is none of the places that the files of the
whole directory go to. -/
theorem counterpart_free (h : Arranged t root dirs ops) (ht : t.WellFormed)
    (hsparing : ∀ op ∈ ops, op.replaces = false) {c : SourceDir} (hc : c ∈ dirs) {d : Path}
    (hd : d ∈ c.destination) {names : Place} (hdir : t.get? (placeOf c.path ++ names) = some .dir) :
    t.get? (placeOf d ++ names) = none ∧ ∀ op ∈ ops, op.targetPlace? = some (placeOf d ++ names) →
      ∀ q, op.sourcePlace? = some q → ¬placeOf c.path <+: q := by
  cases h with
  | @moves overwrite ms hok =>
    obtain ⟨m, hm, rfl⟩ := List.mem_map.mp hc
    obtain rfl := Option.some.inj hd
    obtain rfl := hok.not_overwrite ht hm hsparing
    rw [Tree.placeOf_names (hok.ok m hm).src_names] at hdir ⊢
    rw [Tree.placeOf_names (hok.ok m hm).dst_names]
    refine ⟨?_, fun op hop htarget q hsource hlead => ?_⟩
    · have hfree : t.get? m.2 = none := by
        by_contra hthere
        exact absurd ((hok.ok m hm).free hthere).1 (by simp)
      by_cases hnil : names = []
      · rw [hnil, List.append_nil, hfree]
      · exact ht.get?_below (by rw [hfree]; simp) hnil
    · obtain ⟨m', hm', rest, ⟨b, hfile⟩, hsource', htarget'⟩ := hok.operation_places ht hop
      obtain rfl := Option.some.inj (hsource'.symm.trans hsource)
      have heq := Option.some.inj (htarget'.symm.trans htarget)
      by_cases hsame : m = m'
      · subst hsame
        rw [List.append_cancel_left heq, hdir] at hfile
        cases hfile
      · have hapart := hok.apart.forall hm hm' hsame
        have hbeside : Beside m'.1 m.1 := ⟨hapart.inside, hapart.inside'⟩
        exact (hbeside.append rest).2 hlead
  | deleteDirectory =>
    rw [List.mem_singleton.mp hc] at hd
    cases hd
  | moveFile => cases hc
  | deleteFile => cases hc
  | edits => cases hc

/-- When the files are those after the edit and the only new directories are above destinations, no file is left in a
whole directory. -/
theorem vacant (h : Arranged t root dirs ops) (ht : t.WellFormed) {edit : WorkspaceEdit}
    (hops : ∀ op, op ∈ edit.operations ↔ op ∈ ops) (haside : DirsAside t dirs) {c : SourceDir}
    (hc : c ∈ dirs) (hdir : t.get? (placeOf c.path) = some .dir) {t' : Tree} (ht' : t'.WellFormed)
    (hfiles : t'.fileAt = edit.result t.fileAt) (hnew : Transaction.OnTheWay t edit t')
    (hkept : ∀ q, t.get? q = some .dir → t'.get? q = some .dir) : Transaction.Vacant t c t' := by
  intro q hq
  have haim : ∀ op ∈ edit.operations, op.targetPlace? ≠ some q := fun op hop htarget =>
    (h.target_beside ht haside hc hdir ((hops op).mp hop) htarget).1 hq
  cases hget : t'.get? q with
  | none =>
    rw [if_neg]
    intro hqdir
    rw [hkept q hqdir] at hget
    cases hget
  | some e =>
    rcases ht'.file_or_dir hget with rfl | ⟨b, rfl⟩
    · rcases hnew q hget with hqdir | ⟨op, hop, place, hplace, hlead⟩
      · rw [if_pos hqdir]
      · exact absurd (hq.trans hlead) (h.target_beside ht haside hc hdir ((hops op).mp hop) hplace).1
    · have hnone : edit.result t.fileAt q = none := by
        refine WorkspaceEdit.result_eq_none haim ?_
        cases hfile : t.fileAt q with
        | none => exact Or.inl rfl
        | some b₀ =>
          obtain ⟨op, hop, hsource⟩ := h.exists_source ht hc hq (Tree.fileAt_eq_some_iff.mp hfile)
          exact Or.inr ⟨op, (hops op).mpr hop, hsource⟩
      rw [← hfiles, Tree.fileAt_eq_some_iff.mpr hget] at hnone
      cases hnone

end Arranged

namespace Workspace

variable {plan : Plan} {w w₁ w' : Workspace σ} {snapshots : Snapshots} {heeds : Bool} {r started : ApplyResult}

/-! ## How an apply commits -/

/-- A successful apply has begun and written everything, and its tree is the one after the writing. -/
theorem apply_success (hquiet : w.QuietHook) (h : (apply plan heeds).run.run w = (.ok r, w')) (hsuccess : r.success = true) :
    ∃ snapshots started w₁ tx, (begin plan heeds).run.run w = (.ok (snapshots, started), w₁) ∧
      w₁.writing plan snapshots started heeds = (.ok (), tx) ∧ TreeBacked.tree w'.disk = TreeBacked.tree tx.disk := by
  obtain ⟨⟨snapshots, started⟩, w₁, hbegin, h⟩ := run_bind_ok h
  have hconclude : (conclude plan snapshots (w₁.attempt plan snapshots started heeds)).run w₁ = (r, w') := by
    change (Except.ok ((conclude plan snapshots (w₁.attempt plan snapshots started heeds)).run w₁).1,
      ((conclude plan snapshots (w₁.attempt plan snapshots started heeds)).run w₁).2) = _ at h
    rw [Prod.mk.injEq, Except.ok.injEq] at h
    exact Prod.ext h.1 h.2
  obtain ⟨state, hstanding⟩ := attempt_standing hbegin
  simp only [ApplyResult.standing, Prod.mk.injEq] at hstanding
  obtain ⟨_, _, hfails, _, _⟩ := hstanding
  rcases hattempt : w₁.attempt plan snapshots started heeds with ⟨tx, _ | e⟩ <;> rw [hattempt] at hconclude hfails
  · unfold attempt at hattempt
    rcases hwriting : w₁.writing plan snapshots started heeds with ⟨e | _, tx₁⟩ <;> rw [hwriting] at hattempt
    · cases hattempt
    · have hmoment := verify_moment (hquiet.begun (begin_ok hbegin)) tx₁
      change w₁.verify tx₁ = (tx, none) at hattempt
      rw [hattempt] at hmoment
      refine ⟨snapshots, started, w₁, tx₁, hbegin, hwriting, ?_⟩
      obtain rfl : _ = w' := congrArg Prod.snd hconclude
      exact congrArg Transaction.Moment.tree hmoment
  · have hended := abort_says hfails snapshots e w₁
    change SaysRolledBack ((conclude plan snapshots (tx, some e)).run w₁).1 at hended
    rw [hconclude] at hended
    rw [hended.success] at hsuccess
    cases hsuccess

/-! ## Files -/

/-- What the removal of emptied directories leaves when the passes are over, the writing leaves. -/
theorem writing_runs (hbegun : Begun plan w snapshots w₁) (hplan : plan.Grounded)
    (ht : (TreeBacked.tree w.disk).WellFormed) {C : Prop} (hcalm : C → TreeBacked.steady w.disk)
    {Q : Transaction.Moment → Prop}
    (hsweep : Runs (Transaction.At (σ := σ) C fun m =>
        Transaction.Underway (TreeBacked.tree w.disk) snapshots plan.edit [] m ∧
          m.tree.fileAt = Transaction.filesAfter plan.edit (TreeBacked.tree w.disk).fileAt)
      (Transaction.removeAllEmptied (w₁.wholeDirs plan)) (fun _ => Transaction.At C Q) fun _ => True)
    {tx : Transaction σ} (hwriting : w₁.writing plan snapshots started heeds = (.ok (), tx)) : Q tx.moment := by
  obtain ⟨disk, htree, hsteady, heq⟩ := writing_eq w₁ plan snapshots started heeds
  obtain ⟨htree₁, hsteady₁⟩ := hbegun.tree_eq
  have hrun := Transaction.writeAll_runs (hbegun.admitted hplan ht) ht hsweep heeds (outset started heeds disk)
    ⟨?_, fun h => hsteady (hsteady₁ (hcalm h))⟩
  · rw [← heq, hwriting] at hrun
    exact hrun.1
  · show Transaction.Moment.start (TreeBacked.tree disk) heeds = _
    rw [htree, htree₁]

theorem filesAfter_eq (hbegun : Begun plan w snapshots w₁) (hplan : plan.Grounded) (hdistinct : plan.edit.Distinct)
    (F : Files) : Transaction.filesAfter plan.edit F = plan.edit.result F :=
  (WorkspaceEdit.result_eq_passes
    ((WorkspaceEdit.validate_checked hbegun.checked).placesApart hplan.operations) hdistinct F).symm

/-- The files after the writing of a grounded plan: those of before with the edit read as one substitution. -/
theorem writing_files (hbegun : Begun plan w snapshots w₁) (hplan : plan.Grounded) (hdistinct : plan.edit.Distinct)
    (ht : (TreeBacked.tree w.disk).WellFormed) {tx : Transaction σ}
    (hwriting : w₁.writing plan snapshots started heeds = (.ok (), tx)) :
    (TreeBacked.tree tx.disk).fileAt = plan.edit.result (TreeBacked.tree w.disk).fileAt := by
  have hsources : ∀ c ∈ w₁.wholeDirs plan, c.Straight := fun c hc => hplan.dirs c (List.mem_of_mem_filter hc)
  have hsweep : Transaction.Turns (σ := σ) False
      (Transaction.Sound (TreeBacked.tree w.disk) (Written.Recorded (TreeBacked.tree w.disk) snapshots)) _ id _ :=
    Transaction.removeAllEmptied_turns hsources
  have hfiles := writing_runs hbegun hplan ht False.elim
    ((hsweep _).conseq (fun _ htx => ⟨⟨htx.1.1.whole.1, htx.1.2⟩, htx.2⟩) (fun _ _ h => h) fun _ h => h) hwriting
  exact hfiles.2.trans (filesAfter_eq hbegun hplan hdistinct _)

/-- A committed apply of a grounded plan leaves the files of before with its edit read as one substitution. -/
theorem apply_files (hquiet : w.QuietHook) (hplan : plan.Grounded) (hdistinct : plan.edit.Distinct)
    (ht : (TreeBacked.tree w.disk).WellFormed)
    (hrun : (apply plan heeds).run.run w = (.ok r, w')) (hsuccess : r.success = true) :
    (TreeBacked.tree w'.disk).fileAt = plan.edit.result (TreeBacked.tree w.disk).fileAt := by
  obtain ⟨snapshots, started, w₁, tx, hbegin, hwriting, htx⟩ := apply_success hquiet hrun hsuccess
  rw [htx]
  exact writing_files (begin_ok hbegin) hplan hdistinct ht hwriting

/-! ## Directories -/

/-- When the passes are over, no file is left in a whole directory. -/
theorem underway_vacant {root : Place} {dirs : List SourceDir} {ops : List FileOperation} {edit : WorkspaceEdit} {t : Tree}
    (harranged : Arranged t root dirs ops) (ht : t.WellFormed) (hops : ∀ op, op ∈ edit.operations ↔ op ∈ ops)
    (haside : DirsAside t dirs) {c : SourceDir} (hc : c ∈ dirs) (hdir : t.get? (placeOf c.path) = some .dir)
    {m : Transaction.Moment} (hm : Transaction.Underway t snapshots edit [] m)
    (hfiles : m.tree.fileAt = edit.result t.fileAt) : Transaction.Vacant t c m.tree :=
  harranged.vacant ht hops haside hc hdir hm.whole.1.wellFormed hfiles hm.dirs fun q hq => by
    simpa [hm.whole.2] using hm.whole.1.accounted.kept q hq

/-- Whole directories that hold no file when the passes are over are taken away, part by part. -/
theorem writing_transfers (hbegun : Begun plan w snapshots w₁) (hplan : plan.Grounded) (hdistinct : plan.edit.Distinct)
    (ht : (TreeBacked.tree w.disk).WellFormed) (hsteady : TreeBacked.steady w.disk)
    (hapart : Transaction.SourcesApart (w₁.wholeDirs plan))
    (hvacant : ∀ m, Transaction.Underway (TreeBacked.tree w.disk) snapshots plan.edit [] m →
      m.tree.fileAt = plan.edit.result (TreeBacked.tree w.disk).fileAt →
      ∀ c ∈ w₁.wholeDirs plan, Transaction.Vacant (TreeBacked.tree w.disk) c m.tree)
    {tx : Transaction σ} (hwriting : w₁.writing plan snapshots started heeds = (.ok (), tx)) :
    ∀ c ∈ w₁.wholeDirs plan, Transaction.Transferred (TreeBacked.tree w.disk) c (TreeBacked.tree tx.disk) :=
  writing_runs hbegun hplan ht (C := True) (fun _ => hsteady)
    (Q := fun m => ∀ c ∈ w₁.wholeDirs plan, Transaction.Transferred (TreeBacked.tree w.disk) c m.tree)
    ((Transaction.removeAllEmptied_transfers hapart).conseq (fun _ htx => ⟨⟨htx.1.1.whole.1.wellFormed,
      hvacant _ htx.1.1 (htx.1.2.trans (filesAfter_eq hbegun hplan hdistinct _))⟩, htx.2⟩) (fun _ _ h => h) fun _ h => h)
    hwriting

end Workspace

/-! ## Built plans -/

theorem SourceDir.Straight.isDir_iff {c : SourceDir} (h : c.Straight) {t : Tree} (ht : t.WellFormed) :
    t.isDir c.path = true ↔ t.get? (placeOf c.path) = some .dir := by
  obtain ⟨⟨place, hplace, _, heq⟩, _⟩ := h
  rw [heq, Tree.isDir_names_iff ht hplace, Tree.placeOf_names hplace]

/-- The source directories of a writing are those of its plan that are directories. -/
theorem Workspace.Begun.mem_wholeDirs {plan : Plan} {w w₁ : Workspace σ} {snapshots : Snapshots}
    (h : Begun plan w snapshots w₁) (hplan : plan.Grounded) (ht : (TreeBacked.tree w.disk).WellFormed) {c : SourceDir} :
    c ∈ w₁.wholeDirs plan ↔ c ∈ plan.dirCandidates ∧ (TreeBacked.tree w.disk).get? (placeOf c.path) = some .dir ∧
      (c.path == w.root) = false := by
  unfold wholeDirs
  rw [List.mem_filter, Bool.and_eq_true, h.tree_eq.1, h.unharmed.1.1, Bool.not_eq_true']
  exact and_congr_right fun hc => and_congr_left fun _ => (hplan.dirs c hc).isDir_iff ht

/-- The source directories of a writing are the directories that an arranged plan may move or delete as a whole. -/
theorem Workspace.Begun.mem_wholeDirs_iff {plan : Plan} {w w₁ : Workspace σ} {snapshots : Snapshots}
    (h : Begun plan w snapshots w₁) (hplan : plan.Grounded) (ht : (TreeBacked.tree w.disk).WellFormed) {root : Place}
    {ops : List FileOperation} (harranged : Arranged (TreeBacked.tree w.disk) root plan.dirCandidates ops)
    (hroot : w.root = pathOf root) (hnames : ∀ s ∈ root, IsName s) {c : SourceDir} :
    c ∈ w₁.wholeDirs plan ↔
      c ∈ plan.dirCandidates ∧ (TreeBacked.tree w.disk).get? (placeOf c.path) = some .dir := by
  rw [h.mem_wholeDirs hplan ht]
  refine ⟨fun h => ⟨h.1, h.2.1⟩, fun ⟨hc, hdir⟩ => ⟨hc, hdir, ?_⟩⟩
  obtain ⟨place, hplace, _, heq⟩ := (hplan.dirs c hc).1
  have hne := harranged.ne_root hc
  rw [heq, Tree.placeOf_names hplace] at hne
  rw [hroot, heq, ← Bool.not_eq_true, Path.pathOf_beq_iff hplace hnames]
  exact hne

namespace Plan

def reordered (plan : Plan) (ops : List FileOperation) : Plan :=
  { plan with edit := { plan.edit with operations := ops } }

/-- From one tree to the other, the directories that a plan moves or deletes as a whole are gone, and what was a
directory in one stands at its counterpart, unless an operation put a file there that was in no part of the directory. -/
def Transfers (plan : Plan) (t₀ t : Tree) : Prop :=
  ∀ c ∈ plan.dirCandidates, t₀.get? (placeOf c.path) = some .dir → (∀ q, placeOf c.path <+: q → t.get? q = none) ∧
    ∀ d ∈ c.destination, ∀ names, t₀.get? (placeOf c.path ++ names) = some .dir →
      t.get? (placeOf d ++ names) = some .dir ∨ ∃ op ∈ plan.edit.operations,
        op.targetPlace? = some (placeOf d ++ names) ∧ ∀ q, op.sourcePlace? = some q → ¬placeOf c.path <+: q

theorem Grounded.reordered {plan : Plan} (h : plan.Grounded) {ops : List FileOperation}
    (hops : ops.Perm plan.edit.operations) : (plan.reordered ops).Grounded :=
  ⟨h.edited, fun op hop => h.operations op (hops.mem_iff.mp hop), h.dirs⟩

end Plan

namespace Workspace

variable {plan : Plan} {w w₁ w' : Workspace σ} {snapshots : Snapshots} {heeds : Bool} {r started : ApplyResult}

/-- A committed apply of a built plan, with its operations in any order, leaves the files that the plan says when it is
read as one substitution on the tree of before. For a rename of a symbol this takes that no two edited paths lead to one
place. On a file system whose calls do not fail without a reason, whole directories are gone, and when no move may
overwrite anything, their parts stand at their counterparts. -/
theorem apply_built_commits {env : Planner} {root : Place} (henv : env.Rooted root) (hroot : w.root = env.root)
    (htree : env.tree = TreeBacked.tree w.disk) {id : PlanId} {op : Operation}
    (hbuilds : Planning.Builds env id op plan) (hdistinct : op.isSymbolRename = true → plan.edit.Distinct)
    (hquiet : w.QuietHook) {ops : List FileOperation} (hops : ops.Perm plan.edit.operations)
    (hrun : (apply (plan.reordered ops) heeds).run.run w = (.ok r, w')) (hsuccess : r.success = true) :
    (TreeBacked.tree w'.disk).fileAt = plan.edit.result env.tree.fileAt ∧
      (TreeBacked.steady w.disk → plan.edit.Sparing → plan.Transfers env.tree (TreeBacked.tree w'.disk)) := by
  have hplanned := hbuilds.planned henv
  have hdistinct' : (plan.reordered ops).edit.Distinct := hbuilds.distinct henv.sited hdistinct
  have hgrounded := (hplanned.grounded henv).reordered hops
  have ht := henv.wellFormed
  rw [htree] at ht ⊢
  obtain ⟨snapshots, started, w₁, tx, hbegin, hwriting, htx⟩ := apply_success hquiet hrun hsuccess
  have hbegun := begin_ok hbegin
  rw [htx]
  have hresult : (plan.reordered ops).edit.result = plan.edit.result := by
    funext F
    exact FileOperation.substitute_perm hops
      ((WorkspaceEdit.validate_checked hbegun.checked).placesApart hgrounded.operations)
  refine ⟨hresult ▸ writing_files hbegun hgrounded hdistinct' ht hwriting, fun hsteady hsparing => ?_⟩
  have harranged := hplanned.arranged
  rw [htree] at harranged
  obtain ⟨htree₁, _⟩ := hbegun.tree_eq
  have hsublist : (w₁.wholeDirs (plan.reordered ops)).Sublist plan.dirCandidates := List.filter_sublist
  have hmem : ∀ c, c ∈ w₁.wholeDirs (plan.reordered ops) ↔
      c ∈ plan.dirCandidates ∧ (TreeBacked.tree w.disk).get? (placeOf c.path) = some .dir := fun c =>
    hbegun.mem_wholeDirs_iff hgrounded ht harranged (hroot.trans henv.root_eq) henv.names
  have haside := harranged.aside ht hsparing
  have htransferred := writing_transfers hbegun hgrounded hdistinct' ht hsteady
    (harranged.sourcesApart ht henv.below haside hsublist fun c hc => ((hmem c).mp hc).2)
    (fun m hm hfiles c hc => underway_vacant harranged ht (fun _ => hops.mem_iff) haside ((hmem c).mp hc).1
      ((hmem c).mp hc).2 hm hfiles) hwriting
  intro c hc hdir
  obtain ⟨hgone, hcarried⟩ := htransferred c ((hmem c).mpr ⟨hc, hdir⟩)
  refine ⟨hgone, fun d hd names hnames => ?_⟩
  obtain ⟨hfree, hforeign⟩ := harranged.counterpart_free ht hsparing hc hd hnames
  obtain ⟨e, he⟩ := Option.ne_none_iff_exists'.mp (hcarried d hd names hnames)
  have hsound := writing_sound (hbegun.admitted hgrounded ht) ht hgrounded.dirs htree₁ snapshots started heeds
  rw [hwriting] at hsound
  rcases hsound.wellFormed.file_or_dir he with rfl | ⟨b, rfl⟩
  · exact Or.inl he
  · refine Or.inr ?_
    by_contra hnone
    push Not at hnone
    -- no operation puts a file at the counterpart, and there was none
    have hresult₀ : plan.edit.result (TreeBacked.tree w.disk).fileAt (placeOf d ++ names) = none := by
      refine WorkspaceEdit.result_eq_none (fun op hop htarget => ?_) (Or.inl ?_)
      · obtain ⟨q, hsource, hlead⟩ := hnone op hop htarget
        exact hforeign op hop htarget q hsource hlead
      · unfold Tree.fileAt
        rw [hfree]
    have hfiles := writing_files hbegun hgrounded hdistinct' ht hwriting
    rw [hresult] at hfiles
    rw [← hfiles, Tree.fileAt_eq_some_iff.mpr he] at hresult₀
    cases hresult₀

def ofTree (t : Tree) : Workspace Disk where
  root := ⟨"/w"⟩
  disk := { tree := t }

theorem ofTree_quiet (t : Tree) : (ofTree t).QuietHook := fun _ hhook => by cases hhook

/-- An apply commits. -/
def commits (w : Workspace Disk) (plan : Plan) : Bool :=
  match (apply plan false).run.run w with
  | (.ok r, _) => r.success
  | _ => false

theorem commits_iff {w : Workspace Disk} {plan : Plan} :
    commits w plan = true ↔ ∃ r w', (apply plan false).run.run w = (.ok r, w') ∧ r.success = true := by
  unfold commits
  constructor
  · intro h
    split at h
    · rename_i r w' hrun
      exact ⟨r, w', hrun, h⟩
    · cases h
  · rintro ⟨r, w', hrun, hsuccess⟩
    rw [hrun]
    exact hsuccess

/-- Two directories move, the files of the second one first. -/
theorem apply_built_commits_directory : ∃ plan, Planning.Builds (.inDirectory .twoDirectories) ⟨1⟩
      (.batchMove [⟨⟨"/w/a"⟩, ⟨"/w/c/d"⟩⟩, ⟨⟨"/w/b"⟩, ⟨"/w/e"⟩⟩] false) plan ∧
    ∃ r w', (apply (plan.reordered plan.edit.operations.reverse) false).run.run (ofTree .twoDirectories) = (.ok r, w') ∧
      r.success = true ∧ w'.disk.tree.fileAt = plan.edit.result Tree.twoDirectories.fileAt ∧
      plan.Transfers .twoDirectories w'.disk.tree := by
  obtain ⟨plan, hbuilds, htest⟩ := Planning.exists_builds (.inDirectory .twoDirectories) ⟨1⟩
    (.batchMove [⟨⟨"/w/a"⟩, ⟨"/w/c/d"⟩⟩, ⟨⟨"/w/b"⟩, ⟨"/w/e"⟩⟩] false)
    (fun plan => commits (ofTree .twoDirectories) (plan.reordered plan.edit.operations.reverse) &&
      decide plan.edit.Sparing) (by decide +kernel)
  rw [Bool.and_eq_true, decide_eq_true_eq] at htest
  obtain ⟨r, w', hrun, hsuccess⟩ := commits_iff.mp htest.1
  obtain ⟨hfiles, htransfers⟩ := apply_built_commits (Planner.inDirectory_rooted Tree.twoDirectories_wellFormed) rfl rfl
    hbuilds (fun hop => by cases hop) (ofTree_quiet _) (List.reverse_perm _) hrun hsuccess
  exact ⟨plan, hbuilds, r, w', hrun, hsuccess, hfiles, htransfers trivial htest.2⟩

end Workspace

end Refactor
