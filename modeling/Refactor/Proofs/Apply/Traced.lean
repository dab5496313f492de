import Refactor.Proofs.Apply.Targets
import Refactor.Proofs.Disk.Fallible

/-!
# The trace of a writing

However many calls fail, wherever the writing stops: its log is a leading part of the changes that the plan asks for, in
their order, and files differ at logged places only.

* `WorkspaceEdit.writes` — the changes that a plan asks for, in the order of their writing
* `Transaction.Idle` — steps that leave all files, the log and the noted failures alone
* `Transaction.Traced` — the log so far, what is left of the changes, and the files in between
* `Transaction.writeAll_traced` — the writing from its start to its end, or to where it stops
-/

set_option linter.unusedSectionVars false

namespace Refactor

open Tree (pathOf placeOf)
open Path (IsName)

/-! ## Changes in their order -/

/-- Edited files and operations have straight paths. -/
structure WorkspaceEdit.Straight (w : WorkspaceEdit) : Prop where
  edited : ∀ p ∈ w.editedFiles, p.Straight
  operations : ∀ op ∈ w.operations, ∀ p ∈ op.paths, p.Straight

def WorkspaceEdit.editWrites : Path × List TextEdit → List Written
  | (p, es) => if es.isEmpty then [] else [.path p]

namespace FileOperation

def moves : FileOperation → List Written
  | .move a b _ => [.move a b]
  | _ => []

def creations : FileOperation → List Written
  | .create p _ _ => [.path p]
  | _ => []

def deletions : FileOperation → List Written
  | .delete p => [.path p]
  | _ => []

theorem move_mem_moves {a b : Path} {ops : List FileOperation} :
    .move a b ∈ ops.flatMap moves ↔ ∃ o, .move a b o ∈ ops := by
  rw [List.mem_flatMap]
  constructor
  · rintro ⟨op, hop, hmem⟩
    cases op with
    | move a' b' o =>
      cases List.mem_singleton.mp hmem
      exact ⟨o, hop⟩
    | create p c o => cases hmem
    | delete p => cases hmem
  · rintro ⟨o, ho⟩
    exact ⟨_, ho, List.mem_singleton.mpr rfl⟩

theorem move_not_mem_creations (a b : Path) (ops : List FileOperation) : .move a b ∉ ops.flatMap creations := by
  rw [List.mem_flatMap]
  rintro ⟨op, _, hmem⟩
  cases op with
  | create p c o => cases List.mem_singleton.mp hmem
  | move a' b' o => cases hmem
  | delete p => cases hmem

theorem move_not_mem_deletions (a b : Path) (ops : List FileOperation) : .move a b ∉ ops.flatMap deletions := by
  rw [List.mem_flatMap]
  rintro ⟨op, _, hmem⟩
  cases op with
  | delete p => cases List.mem_singleton.mp hmem
  | move a' b' o => cases hmem
  | create p c o => cases hmem

end FileOperation

namespace WorkspaceEdit

/-- The changes that an edit asks for, in the order of their writing. -/
def writes (w : WorkspaceEdit) : List Written :=
  w.changes.flatMap editWrites ++ (w.operations.flatMap FileOperation.moves ++
    (w.operations.flatMap FileOperation.creations ++ w.operations.flatMap FileOperation.deletions))

theorem mem_writes {w : WorkspaceEdit} {c : Written} : c ∈ w.writes ↔
    (∃ p ∈ w.editedFiles, c = .path p) ∨ ∃ op ∈ w.operations, c = op.written := by
  have hedits : c ∈ w.changes.flatMap editWrites ↔ ∃ p ∈ w.editedFiles, c = .path p := by
    unfold editedFiles
    simp only [List.mem_flatMap, List.mem_map, List.mem_filter]
    constructor
    · rintro ⟨⟨p, es⟩, hmem, hc⟩
      unfold editWrites at hc
      dsimp only at hc
      split at hc
      · cases hc
      · rename_i hes
        exact ⟨p, ⟨(p, es), ⟨hmem, by simpa using hes⟩, rfl⟩, List.mem_singleton.mp hc⟩
    · rintro ⟨_, ⟨⟨p, es⟩, ⟨hmem, hes⟩, rfl⟩, rfl⟩
      refine ⟨(p, es), hmem, ?_⟩
      have hempty : es.isEmpty = false := by simpa using hes
      simp [editWrites, hempty]
  have hoperations : c ∈ w.operations.flatMap FileOperation.moves ++
      (w.operations.flatMap FileOperation.creations ++ w.operations.flatMap FileOperation.deletions) ↔
      ∃ op ∈ w.operations, c = op.written := by
    simp only [List.mem_append, List.mem_flatMap]
    constructor
    · rintro (⟨op, hop, hc⟩ | ⟨op, hop, hc⟩ | ⟨op, hop, hc⟩) <;> refine ⟨op, hop, ?_⟩ <;> cases op <;>
        simp_all [FileOperation.moves, FileOperation.creations, FileOperation.deletions, FileOperation.written]
    · rintro ⟨op, hop, rfl⟩
      cases op with
      | move a b o => exact Or.inl ⟨_, hop, List.mem_singleton.mpr rfl⟩
      | create p content o => exact Or.inr (Or.inl ⟨_, hop, List.mem_singleton.mpr rfl⟩)
      | delete p => exact Or.inr (Or.inr ⟨_, hop, List.mem_singleton.mpr rfl⟩)
  unfold writes
  rw [List.mem_append, hedits, hoperations]

theorem move_mem_writes {w : WorkspaceEdit} {a b : Path} : .move a b ∈ w.writes ↔ ∃ o, .move a b o ∈ w.operations := by
  rw [mem_writes]
  constructor
  · rintro (⟨p, _, hp⟩ | ⟨op, hop, hwritten⟩)
    · cases hp
    · cases op with
      | move a' b' o =>
        cases hwritten
        exact ⟨o, hop⟩
      | create p c o => cases hwritten
      | delete p => cases hwritten
  · exact fun ⟨o, hop⟩ => Or.inr ⟨_, hop, rfl⟩

theorem paths_written (op : FileOperation) : op.written.paths = op.paths := by cases op <;> rfl

theorem exists_mem_writes {w : WorkspaceEdit} {p : Path} : (∃ c ∈ w.writes, p ∈ c.paths) ↔
    p ∈ w.editedFiles ∨ ∃ op ∈ w.operations, p ∈ op.paths := by
  constructor
  · rintro ⟨c, hc, hp⟩
    rcases mem_writes.mp hc with ⟨q, hq, rfl⟩ | ⟨op, hop, rfl⟩
    · rw [Written.paths, List.mem_singleton] at hp
      exact Or.inl (hp ▸ hq)
    · exact Or.inr ⟨op, hop, paths_written op ▸ hp⟩
  · rintro (hp | ⟨op, hop, hp⟩)
    · exact ⟨.path p, mem_writes.mpr (Or.inl ⟨p, hp, rfl⟩), by simp [Written.paths]⟩
    · exact ⟨op.written, mem_writes.mpr (Or.inr ⟨op, hop, rfl⟩), (paths_written op).symm ▸ hp⟩

theorem Straight.paths {w : WorkspaceEdit} (h : w.Straight) {c : Written} (hc : c ∈ w.writes) {p : Path}
    (hp : p ∈ c.paths) : p.Straight := by
  rcases exists_mem_writes.mp ⟨c, hc, hp⟩ with hp | ⟨op, hop, hp⟩
  · exact h.edited p hp
  · exact h.operations op hop p hp

end WorkspaceEdit

theorem Path.Straight.eq_of_placeOf {p q : Path} (hp : p.Straight) (hq : q.Straight) (h : placeOf p = placeOf q) :
    p = q := by
  obtain ⟨place, hplace, _, rfl⟩ := hp
  obtain ⟨place', hplace', _, rfl⟩ := hq
  rw [Tree.placeOf_names hplace, Tree.placeOf_names hplace'] at h
  rw [h]

theorem Path.Straight.beq_iff {p q : Path} (hp : p.Straight) (hq : q.Straight) : (p == q) = true ↔ p = q := by
  refine ⟨fun h => hp.eq_of_placeOf hq ?_, fun h => h ▸ BEq.rfl⟩
  exact Tree.placeOf_congr hp.isAbsolute ((Path.beq_iff p q).mp h)

theorem Path.Straight.content? {p : Path} (hp : p.Straight) {t : Tree} (ht : t.WellFormed) :
    t.content? p = t.fileAt (placeOf p) := by
  obtain ⟨place, hplace, _, rfl⟩ := hp
  rw [Tree.content?_names ht hplace, Tree.placeOf_names hplace]

variable {σ : Type} [Fallible σ] {α : Type}

namespace Transaction

def tree (tx : Transaction σ) : Tree := Fallible.tree tx.disk

/-! ## Steps that leave all files alone -/

/-- All files, the log and the noted failures are as they were. -/
structure Idle (tx tx' : Transaction σ) : Prop where
  files : tx.tree.WellFormed → tx'.tree.WellFormed ∧ tx'.tree.fileAt = tx.tree.fileAt
  log : tx'.log = tx.log
  failures : tx'.result.restoreFailures = tx.result.restoreFailures

instance : Std.Refl (Idle (σ := σ)) := ⟨fun _ => ⟨fun h => ⟨h, rfl⟩, rfl, rfl⟩⟩

instance : IsTrans (Transaction σ) Idle := ⟨fun _ _ _ h h' => ⟨fun hwf =>
  ⟨(h'.files (h.files hwf).1).1, (h'.files (h.files hwf).1).2.trans (h.files hwf).2⟩, h'.log.trans h.log,
  h'.failures.trans h.failures⟩⟩

theorem look_idle {f : StateM σ α} (h : Relates FileSystem.Looks f) : Relates Idle (ask f) := by
  intro tx
  refine ⟨fun hwf => ?_, rfl, rfl⟩
  have htree : ((ask f).run tx).2.tree = tx.tree := Fallible.looks (h tx.disk)
  rw [htree]
  exact ⟨hwf, rfl⟩

theorem tries_idle {f : StateM σ (Except DiskError Unit)} {change : Tree → Except SystemFault Tree}
    (hf : ∀ s, Tries Fallible.tree change s (f.run s))
    (hchange : ∀ t t', t.WellFormed → change t = .ok t' → t'.WellFormed ∧ t'.fileAt = t.fileAt) : Relates Idle (ask f) := by
  intro tx
  refine ⟨fun hwf => ?_, rfl, rfl⟩
  have htries := hf tx.disk
  show (Fallible.tree (f.run tx.disk).2).WellFormed ∧
    (Fallible.tree (f.run tx.disk).2).fileAt = tx.tree.fileAt
  generalize f.run tx.disk = out at htries ⊢
  cases htries with
  | done s' htree => exact hchange _ _ hwf htree
  | failed e s' hkeeps hfiles => exact ⟨hkeeps hwf, hfiles⟩

theorem makeDirs_idle (p : Path) : Relates (Idle (σ := σ)) (ask (FileSystem.makeDirs p)) :=
  tries_idle (Fallible.makeDirs_tries p) fun _ _ h hmake => Tree.makeDirs_fileAt h hmake

theorem removeDir_idle (p : Path) : Relates (Idle (σ := σ)) (ask (FileSystem.removeDir p)) :=
  tries_idle (Fallible.removeDir_tries p) fun _ _ h hremove => Tree.removeDir_fileAt h hremove

theorem heedCancel_idle : Relates (Idle (σ := σ)) heedCancel.run := by
  refine Relates.bindExcept (refl_of Idle) fun tx => ?_
  cases tx.heeds
  · exact Relates.pureExcept _
  · refine (look_idle FileSystem.cancelled_looks).lift.bindExcept fun raised => ?_
    cases raised
    · exact Relates.pureExcept _
    · exact Relates.throwExcept _

theorem missingDirs_idle : ∀ l : List Path, Relates (Idle (σ := σ)) (missingDirs l)
  | [] => Relates.pure _
  | p :: above => by
    refine (look_idle (FileSystem.exists?_looks p)).bind fun there => ?_
    cases there
    · exact (missingDirs_idle above).bind fun _ => Relates.pure _
    · exact Relates.pure _

theorem ensureDir_idle (dir : Path) : Relates (Idle (σ := σ)) (ensureDir dir).run := by
  refine (missingDirs_idle _).lift.bindExcept fun missing => ?_
  cases missing.isEmpty
  · refine Relates.bindExcept ?_ fun _ tx => ⟨fun h => ⟨h, rfl⟩, rfl, rfl⟩
    refine (makeDirs_idle dir).lift.bindExcept fun made => ?_
    cases made with
    | ok _ => exact Relates.pureExcept _
    | error e => exact Relates.throwExcept _
  · exact Relates.pureExcept _

theorem ensureParent_idle (p : Path) : Relates (Idle (σ := σ)) (ensureParent p).run := by
  unfold ensureParent
  split
  · exact ensureDir_idle _
  · exact Relates.pureExcept _

theorem removeEmptied_idle (source : SourceDir) (dir : Path) :
    Relates (Idle (σ := σ)) (removeEmptied source dir).run := by
  refine (removeDir_idle dir).lift.bindExcept fun removed => ?_
  cases removed with
  | error e => exact Relates.pureExcept _
  | ok _ =>
    refine Relates.bindExcept (fun tx => ⟨fun h => ⟨h, rfl⟩, rfl, rfl⟩) fun _ => ?_
    split
    · exact ensureDir_idle _
    · exact Relates.pureExcept _

theorem removeAllEmptied_idle (sources : List SourceDir) :
    Relates (Idle (σ := σ)) (removeAllEmptied sources).run := by
  refine Relates.forMExcept _ fun source _ => ?_
  refine (look_idle (FileSystem.dirsUnder_looks _)).lift.bindExcept fun dirs => ?_
  exact Relates.forMExcept _ fun dir _ => removeEmptied_idle source dir

/-! ## Traces -/

/-- Where the writing stands when `left` is left of the changes: the others are logged, files differ at their places
only, and the moves to come find files. -/
structure Traced (edit : WorkspaceEdit) (t₀ : Tree) (left : List Written) (tx : Transaction σ) : Prop where
  wellFormed : tx.tree.WellFormed
  log : tx.log ++ left = edit.writes
  files : ∀ q, q ∉ tx.log.flatMap Written.places → tx.tree.fileAt q = t₀.fileAt q
  sources : ∀ a b, .move a b ∈ left → (tx.tree.fileAt (placeOf a)).isSome = true

def Stopped (edit : WorkspaceEdit) (t₀ : Tree) (tx : Transaction σ) : Prop := ∃ left, Traced edit t₀ left tx

variable {edit : WorkspaceEdit} {t₀ : Tree} {left : List Written}

theorem Traced.idle {tx tx' : Transaction σ} (h : Traced edit t₀ left tx) (hidle : Idle tx tx') :
    Traced edit t₀ left tx' := by
  obtain ⟨hwf, hfiles⟩ := hidle.files h.wellFormed
  refine ⟨hwf, by rw [hidle.log, h.log], fun q hq => ?_, fun a b hab => ?_⟩
  · rw [hidle.log] at hq
    rw [hfiles, h.files q hq]
  · rw [hfiles]
    exact h.sources a b hab

theorem idle_runs {m : Writing σ α} (h : Relates Idle m.run) :
    Runs (Traced edit t₀ left) m (fun _ => Traced edit t₀ left) (Stopped edit t₀) :=
  (Runs.of_relates h fun _ _ htx hidle => htx.idle hidle).conseq (fun _ h => h) (fun _ _ h => h) fun _ h => ⟨left, h⟩

/-- A change that differs from what was there at its own places only, and leaves the sources of the moves to come. -/
structure Confined (w : Written) (left : List Written) (t t' : Tree) : Prop where
  wellFormed : t'.WellFormed
  files : ∀ q, q ∉ w.places → t'.fileAt q = t.fileAt q
  sources : ∀ a b, .move a b ∈ left → (t.fileAt (placeOf a)).isSome = true → (t'.fileAt (placeOf a)).isSome = true

/-- A change is logged before it is tried. -/
theorem logged_traced {f : StateM σ (Except DiskError Unit)} {change : Tree → Except SystemFault Tree} {w : Written}
    (p : Path) (g : ApplyResult → ApplyResult) (hf : ∀ s, Tries Fallible.tree change s (f.run s))
    (hchange : ∀ t t', t.WellFormed → (∀ a b, w = .move a b → (t.fileAt (placeOf a)).isSome = true) →
      change t = .ok t' → Confined w left t t') :
    Runs (Traced edit t₀ (w :: left)) (do record w; perform p f; note g) (fun _ => Traced (σ := σ) edit t₀ left)
      (Stopped edit t₀) := by
  refine Runs.bind (Q := fun _ tx => Traced edit t₀ left tx ∧ w ∈ tx.log ∧
    ∀ a b, w = .move a b → (tx.tree.fileAt (placeOf a)).isSome = true) ?_ fun _ => ?_
  · intro tx htx
    refine ⟨⟨htx.wellFormed, ?_, fun q hq => htx.files q ?_, fun a b hab => htx.sources a b (List.mem_cons_of_mem _ hab)⟩,
      ?_, fun a b hw => htx.sources a b (hw ▸ List.mem_cons_self)⟩
    · show tx.log ++ [w] ++ left = edit.writes
      rw [List.append_assoc]
      exact htx.log
    · have hlog : q ∉ (tx.log ++ [w]).flatMap Written.places := hq
      rw [List.flatMap_append, List.mem_append] at hlog
      exact fun hmem => hlog (Or.inl hmem)
    · show w ∈ tx.log ++ [w]
      simp
  refine Runs.bind (Q := fun _ => Traced edit t₀ left) ?_ fun _ tx htx => ⟨htx.1, htx.2, htx.3, htx.4⟩
  unfold perform
  refine Runs.bind (Q := fun _ => Traced edit t₀ left) ?_ fun r => ?_
  · rintro tx ⟨htx, hlogged, hsource⟩
    have htries := hf tx.disk
    show Traced edit t₀ left { tx with disk := (f.run tx.disk).2 }
    generalize f.run tx.disk = out at htries ⊢
    cases htries with
    | done s' htree =>
      have hconfined := hchange _ _ htx.wellFormed hsource htree
      refine ⟨hconfined.wellFormed, htx.log, fun q hq => ?_, fun a b hab => hconfined.sources a b hab (htx.sources a b hab)⟩
      refine (hconfined.files q fun hmem => hq ?_).trans (htx.files q hq)
      exact List.mem_flatMap.mpr ⟨w, hlogged, hmem⟩
    | failed e s' hkeeps hfiles =>
      exact htx.idle ⟨fun hwf => ⟨hkeeps hwf, hfiles⟩, rfl, rfl⟩
  · cases r with
    | ok _ => exact Runs.pure _ fun _ h => h
    | error e => exact Runs.throw _ fun _ h => ⟨left, h⟩

/-! ## Steps of the writing -/

theorem confined_write (p : Path) (b : ByteArray) (left : List Written) {t t' : Tree} (ht : t.WellFormed)
    (hwrite : t.write p b = .ok t') : Confined (.path p) left t t' := by
  obtain ⟨_, hholds⟩ := Tree.write_ok ht hwrite
  refine ⟨hholds.wellFormed, fun q hq => hholds.fileAt_of_ne fun heq => hq ?_, fun a b _ ha => ?_⟩
  · simp [Written.places, Written.paths, heq]
  · by_cases hap : placeOf a = placeOf p
    · rw [Tree.fileAt_eq_some_iff.mpr (by rw [hholds.get?, if_pos hap])]
      rfl
    · rw [hholds.fileAt_of_ne hap]
      exact ha

theorem confined_removeFile (p : Path) {left : List Written} (hleft : ∀ a b, .move a b ∉ left) {t t' : Tree}
    (ht : t.WellFormed) (hremove : t.removeFile p = .ok t') : Confined (.path p) left t t' := by
  obtain ⟨_, hholds⟩ := Tree.removeFile_ok ht hremove
  refine ⟨hholds.wellFormed, fun q hq => hholds.fileAt_of_ne fun heq => hq ?_, fun a b hab => absurd hab (hleft a b)⟩
  simp [Written.places, Written.paths, heq]

theorem confined_rename {a b : Path} (ha : a.Straight) (hb : b.Straight)
    (hleft : ∀ a' b', .move a' b' ∈ left → placeOf a' ≠ placeOf a) {t t' : Tree} (ht : t.WellFormed)
    (hsource : (t.fileAt (placeOf a)).isSome = true) (hrename : t.rename a b = .ok t') :
    Confined (.move a b) left t t' := by
  obtain ⟨src, hsrc, _, rfl⟩ := ha
  obtain ⟨dst, hdst, _, rfl⟩ := hb
  obtain ⟨c, hc⟩ := Option.isSome_iff_exists.mp hsource
  simp only [Tree.placeOf_names hsrc] at hc hleft
  obtain ⟨_, hwf, hget⟩ := Tree.rename_ok ht hsrc hdst (Tree.fileAt_eq_some_iff.mp hc) hrename
  refine ⟨hwf, fun q hq => Tree.fileAt_congr fun _ => ?_, fun a' b' hab ha' => ?_⟩
  · simp only [Written.places, Written.paths, List.map_cons, List.map_nil, Tree.placeOf_names hsrc,
      Tree.placeOf_names hdst, List.mem_cons, List.not_mem_nil, or_false, not_or] at hq
    rw [hget, if_neg hq.2, if_neg hq.1]
  · by_cases hdst' : placeOf a' = dst
    · rw [Tree.fileAt_eq_some_iff.mpr (by rw [hget, if_pos hdst'])]
      rfl
    · have hsame : t'.fileAt (placeOf a') = t.fileAt (placeOf a') :=
        Tree.fileAt_congr fun _ => by rw [hget, if_neg hdst', if_neg (hleft a' b' hab)]
      rw [hsame]
      exact ha'

theorem writeEdits_traced (plan : Plan) (snapshots : Snapshots) (p : Path) (es : List TextEdit) :
    Runs (Traced edit t₀ (WorkspaceEdit.editWrites (p, es) ++ left)) (writeEdits plan snapshots p es)
      (fun _ => Traced (σ := σ) edit t₀ left) (Stopped edit t₀) := by
  unfold writeEdits
  cases hes : es.isEmpty with
  | true =>
    rw [if_pos rfl, WorkspaceEdit.editWrites, hes]
    exact Runs.pure _ fun _ h => h
  | false =>
    rw [if_neg (by simp), WorkspaceEdit.editWrites, hes]
    refine (idle_runs heedCancel_idle).bind fun _ => ?_
    cases snapshots.find? p with
    | none => exact Runs.throwBind _ fun _ h => ⟨_, h⟩
    | some state =>
      cases state with
      | absent => exact Runs.throwBind _ fun _ h => ⟨_, h⟩
      | content bytes =>
        dsimp only
        cases Bytes.text? bytes with
        | none => exact Runs.throwBind _ fun _ h => ⟨_, h⟩
        | some before =>
          dsimp only
          rw [pure_bind]
          cases TextEdit.applyAll p.raw before es with
          | error e => exact fun tx htx => ⟨_, htx⟩
          | ok out => exact logged_traced p _ (Fallible.write_tries p _) fun t t' ht _ => confined_write p _ left ht

theorem writeMove_traced {a b : Path} (ha : a.Straight) (hb : b.Straight)
    (hleft : ∀ a' b', .move a' b' ∈ left → placeOf a' ≠ placeOf a) :
    Runs (Traced edit t₀ (.move a b :: left)) (writeMove a b) (fun _ => Traced (σ := σ) edit t₀ left)
      (Stopped edit t₀) := by
  unfold writeMove
  refine (idle_runs heedCancel_idle).bind fun _ => ?_
  refine (idle_runs (ensureParent_idle b)).bind fun _ => ?_
  exact logged_traced a _ (Fallible.rename_tries a b) fun t t' ht hsource =>
    confined_rename ha hb hleft ht (hsource a b rfl)

theorem writeCreate_traced (p : Path) (content : String) :
    Runs (Traced edit t₀ (.path p :: left)) (writeCreate p content) (fun _ => Traced (σ := σ) edit t₀ left)
      (Stopped edit t₀) := by
  unfold writeCreate
  refine (idle_runs heedCancel_idle).bind fun _ => ?_
  refine (idle_runs (ensureParent_idle p)).bind fun _ => ?_
  exact logged_traced p _ (Fallible.write_tries p _) fun t t' ht _ => confined_write p _ left ht

theorem writeDelete_traced (p : Path) (hleft : ∀ a b, .move a b ∉ left) :
    Runs (Traced edit t₀ (.path p :: left)) (writeDelete p) (fun _ => Traced (σ := σ) edit t₀ left)
      (Stopped edit t₀) := by
  unfold writeDelete
  refine (idle_runs heedCancel_idle).bind fun _ => ?_
  exact logged_traced p _ (Fallible.removeFile_tries p) fun t t' ht _ => confined_removeFile p hleft ht

/-! ## The whole writing -/

/-- The log of a writing grows along the changes of the plan, whether it gets to their end or not. -/
theorem writeAll_traced {plan : Plan} (hstraight : plan.edit.Straight) (hchecked : plan.edit.Checked) (t₀ : Tree)
    (snapshots : Snapshots) (sources : List SourceDir) :
    Runs (Traced (σ := σ) plan.edit t₀ plan.edit.writes) (writeAll plan snapshots sources)
      (fun _ => Traced plan.edit t₀ []) (Stopped plan.edit t₀) := by
  let afterwards := plan.edit.operations.flatMap FileOperation.creations ++
    plan.edit.operations.flatMap FileOperation.deletions
  have hafterwards : ∀ a b, .move a b ∉ afterwards := by
    intro a b hab
    exact (List.mem_append.mp hab).elim (FileOperation.move_not_mem_creations a b _)
      (FileOperation.move_not_mem_deletions a b _)
  unfold writeAll
  refine Runs.bind (Q := fun _ => Traced plan.edit t₀ (plan.edit.operations.flatMap FileOperation.moves ++ afterwards))
    ?_ fun _ => ?_
  · refine Runs.forM (I := fun changes => Traced (σ := σ) plan.edit t₀ (changes.flatMap WorkspaceEdit.editWrites ++
      (plan.edit.operations.flatMap FileOperation.moves ++ afterwards))) _ fun change rest _ => ?_
    rw [List.flatMap_cons, List.append_assoc]
    exact writeEdits_traced plan snapshots change.1 change.2
  refine Runs.bind (Q := fun _ => Traced plan.edit t₀ afterwards) ?_ fun _ => ?_
  · refine Runs.forM (I := fun ops => Traced (σ := σ) plan.edit t₀ (ops.flatMap FileOperation.moves ++ afterwards)) _
      fun op rest hsuffix => ?_
    rw [List.flatMap_cons, List.append_assoc]
    cases op with
    | move a b o =>
      have hmem : .move a b o ∈ plan.edit.operations := hsuffix.subset List.mem_cons_self
      have ha := hstraight.operations _ hmem a (by simp [FileOperation.paths])
      have hb := hstraight.operations _ hmem b (by simp [FileOperation.paths])
      have hleft : ∀ a' b', .move a' b' ∈ rest.flatMap FileOperation.moves ++ afterwards → placeOf a' ≠ placeOf a := by
        intro a' b' hab heq
        obtain ⟨o', hab⟩ : ∃ o', .move a' b' o' ∈ rest :=
          FileOperation.move_mem_moves.mp ((List.mem_append.mp hab).resolve_right (hafterwards a' b'))
        have ha' := hstraight.operations _ (hsuffix.subset (List.mem_cons_of_mem _ hab)) a' (by simp [FileOperation.paths])
        have hapart := (List.pairwise_cons.mp (hchecked.apart.sublist hsuffix.sublist)).1 _ hab
        rw [ha'.eq_of_placeOf ha heq] at hapart
        cases (hapart.sources a rfl a rfl).symm.trans BEq.rfl
      exact writeMove_traced ha hb hleft
    | create p content o => exact Runs.pure _ fun _ h => h
    | delete p => exact Runs.pure _ fun _ h => h
  refine Runs.bind (Q := fun _ => Traced plan.edit t₀ (plan.edit.operations.flatMap FileOperation.deletions)) ?_
    fun _ => ?_
  · refine Runs.forM (I := fun ops => Traced (σ := σ) plan.edit t₀ (ops.flatMap FileOperation.creations ++
      plan.edit.operations.flatMap FileOperation.deletions)) _ fun op rest _ => ?_
    rw [List.flatMap_cons, List.append_assoc]
    cases op with
    | move a b o => exact Runs.pure _ fun _ h => h
    | create p content o => exact writeCreate_traced p content
    | delete p => exact Runs.pure _ fun _ h => h
  refine Runs.bind (Q := fun _ => Traced plan.edit t₀ []) ?_ fun _ => ?_
  · refine Runs.forM (I := fun ops => Traced (σ := σ) plan.edit t₀ (ops.flatMap FileOperation.deletions)) _
      fun op rest _ => ?_
    rw [List.flatMap_cons]
    cases op with
    | move a b o => exact Runs.pure _ fun _ h => h
    | create p content o => exact Runs.pure _ fun _ h => h
    | delete p => exact writeDelete_traced p fun a b => FileOperation.move_not_mem_deletions a b rest
  refine (idle_runs (removeAllEmptied_idle sources)).bind fun _ => ?_
  exact idle_runs heedCancel_idle

end Transaction

end Refactor
