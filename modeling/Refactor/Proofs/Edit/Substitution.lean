import Mathlib.Data.List.Pairwise
import Mathlib.Data.List.Perm.Basic
import Mathlib.Logic.Function.Basic
import Refactor.Edit.Merge
import Refactor.Proofs.Disk.Locate

/-!
# Edits as substitutions

An edit read as one simultaneous substitution on the files of a tree: every destination gets what its source held, with
the text edits of the source, whatever else the edit does. Operations that are apart have this effect in every order, one
after the other.

* `FileOperation.effect` — the files after one operation
* `FileOperation.substitute` — the files after operations read all at once
* `FileOperation.foldl_effect` — one after the other is all at once
* `WorkspaceEdit.edited`, `WorkspaceEdit.foldl_editStep` — the same for text edits
* `WorkspaceEdit.result` — the files after a whole edit
-/

namespace Refactor

open Tree (placeOf)

/-! ## Operations -/

namespace FileOperation

def sourcePlace? (op : FileOperation) : Option Place := op.source?.map placeOf

def targetPlace? (op : FileOperation) : Option Place := op.destination?.map placeOf

/-- What an operation puts at its destination. -/
def content? (f : Files) : FileOperation → Option ByteArray
  | .move a _ _ => f (placeOf a)
  | .create _ content _ => some (Bytes.ofText content)
  | .delete _ => none

/-- The files after an operation. -/
def effect (f : Files) (op : FileOperation) : Files := fun q =>
  if op.targetPlace? = some q then op.content? f else if op.sourcePlace? = some q then none else f q

/-- The files after operations that all refer to the files of before. -/
def substitute (ops : List FileOperation) (f : Files) : Files := fun q =>
  match ops.find? (·.targetPlace? == some q) with
  | some op => op.content? f
  | none => if ops.any (·.sourcePlace? == some q) then none else f q

/-- Two operations that meet nowhere. -/
structure PlacesApart (a b : FileOperation) : Prop where
  sources : ∀ q, a.sourcePlace? = some q → b.sourcePlace? ≠ some q
  targets : ∀ q, a.targetPlace? = some q → b.targetPlace? ≠ some q
  before : ∀ q, a.sourcePlace? = some q → b.targetPlace? ≠ some q
  after : ∀ q, a.targetPlace? = some q → b.sourcePlace? ≠ some q

theorem PlacesApart.symm {a b : FileOperation} (h : PlacesApart a b) : PlacesApart b a :=
  ⟨fun q hb ha => h.sources q ha hb, fun q hb ha => h.targets q ha hb, fun q hb ha => h.after q ha hb,
    fun q hb ha => h.before q ha hb⟩

instance : Std.Symm PlacesApart := ⟨fun _ _ => PlacesApart.symm⟩

variable {ops : List FileOperation} {f : Files} {q : Place}

theorem content?_effect {a b : FileOperation} (h : PlacesApart a b) (f : Files) : b.content? (effect f a) = b.content? f := by
  cases b with
  | move s d o =>
    have hsource : (FileOperation.move s d o).sourcePlace? = some (placeOf s) := rfl
    show effect f a (placeOf s) = f (placeOf s)
    unfold effect
    rw [if_neg fun ha => h.after _ ha hsource, if_neg fun ha => h.sources _ ha hsource]
  | create p content o => rfl
  | delete p => rfl

theorem find?_target_eq_none (h : ∀ op ∈ ops, op.targetPlace? ≠ some q) :
    ops.find? (·.targetPlace? == some q) = none := by
  rw [List.find?_eq_none]
  intro op hop
  simpa using h op hop

theorem any_source_eq_false (h : ∀ op ∈ ops, op.sourcePlace? ≠ some q) :
    ops.any (·.sourcePlace? == some q) = false := by
  rw [List.any_eq_false]
  intro op hop
  simpa using h op hop

/-- Operations that are apart have the effect of all at once, one after the other. -/
theorem foldl_effect (h : ops.Pairwise PlacesApart) (f : Files) : ops.foldl effect f = substitute ops f := by
  induction ops generalizing f with
  | nil => rfl
  | cons op ops ih =>
    obtain ⟨hop, hrest⟩ := List.pairwise_cons.mp h
    funext q
    rw [List.foldl_cons, ih hrest]
    unfold substitute
    by_cases htarget : op.targetPlace? = some q
    · -- no later operation touches the place
      rw [find?_target_eq_none fun op' hop' => (hop op' hop').targets q htarget,
        any_source_eq_false fun op' hop' => (hop op' hop').after q htarget, List.find?_cons_of_pos (by simpa using htarget)]
      simp [effect, htarget]
    · rw [List.find?_cons_of_neg (by simpa using htarget)]
      cases hfind : ops.find? (·.targetPlace? == some q) with
      | some op' => exact content?_effect (hop op' (List.mem_of_find?_eq_some hfind)) f
      | none =>
        dsimp only
        rw [List.any_cons]
        by_cases hany : ops.any (·.sourcePlace? == some q) = true
        · rw [if_pos hany, hany, Bool.or_true, if_pos rfl]
        · rw [if_neg hany, Bool.not_eq_true _ |>.mp hany, Bool.or_false]
          by_cases hsource : op.sourcePlace? = some q
          · simp [effect, htarget, hsource]
          · simp [effect, htarget, hsource]

theorem substitute_of_target (h : ops.Pairwise PlacesApart) {op : FileOperation} (hop : op ∈ ops)
    (hq : op.targetPlace? = some q) : substitute ops f q = op.content? f := by
  have hsome : (ops.find? (·.targetPlace? == some q)).isSome := List.find?_isSome.mpr ⟨op, hop, by simpa using hq⟩
  obtain ⟨op', hfind⟩ := Option.isSome_iff_exists.mp hsome
  have htarget : op'.targetPlace? = some q := by simpa using List.find?_some hfind
  have hsame : op' = op := by
    by_contra hne
    exact (h.forall (List.mem_of_find?_eq_some hfind) hop hne).targets q htarget hq
  unfold substitute
  rw [hfind, hsame]

theorem substitute_of_source {op : FileOperation} (hop : op ∈ ops) (hq : op.sourcePlace? = some q)
    (htargets : ∀ op ∈ ops, op.targetPlace? ≠ some q) : substitute ops f q = none := by
  unfold substitute
  rw [find?_target_eq_none htargets]
  exact if_pos (List.any_eq_true.mpr ⟨op, hop, by simpa using hq⟩)

/-- What is neither taken nor put anywhere stays. -/
theorem substitute_of_free (htargets : ∀ op ∈ ops, op.targetPlace? ≠ some q)
    (hsources : ∀ op ∈ ops, op.sourcePlace? ≠ some q) : substitute ops f q = f q := by
  unfold substitute
  rw [find?_target_eq_none htargets]
  exact if_neg (by rw [any_source_eq_false hsources]; simp)

/-- The order of operations does not matter. -/
theorem substitute_perm {ops' : List FileOperation} (hperm : ops.Perm ops') (h : ops.Pairwise PlacesApart) :
    substitute ops f = substitute ops' f := by
  have h' : ops'.Pairwise PlacesApart := (hperm.pairwise_iff PlacesApart.symm).mp h
  funext q
  by_cases htarget : ∃ op ∈ ops, op.targetPlace? = some q
  · obtain ⟨op, hop, hq⟩ := htarget
    rw [substitute_of_target h hop hq, substitute_of_target h' (hperm.mem_iff.mp hop) hq]
  · push Not at htarget
    have htarget' : ∀ op ∈ ops', op.targetPlace? ≠ some q := fun op hop => htarget op (hperm.mem_iff.mpr hop)
    by_cases hsource : ∃ op ∈ ops, op.sourcePlace? = some q
    · obtain ⟨op, hop, hq⟩ := hsource
      rw [substitute_of_source hop hq htarget, substitute_of_source (hperm.mem_iff.mp hop) hq htarget']
    · push Not at hsource
      rw [substitute_of_free htarget hsource,
        substitute_of_free htarget' fun op hop => hsource op (hperm.mem_iff.mpr hop)]

/-! ## Passes -/

def isMove : FileOperation → Bool
  | .move .. => true
  | _ => false

def isCreate : FileOperation → Bool
  | .create .. => true
  | _ => false

def isDelete : FileOperation → Bool
  | .delete _ => true
  | _ => false

/-- Operations in the order in which they are done: first the moves, then the creations, then the deletions. -/
def passes (ops : List FileOperation) : List FileOperation :=
  ops.filter isMove ++ (ops.filter isCreate ++ ops.filter isDelete)

theorem passes_perm : ∀ ops : List FileOperation, (passes ops).Perm ops
  | [] => List.Perm.refl _
  | op :: ops => by
    have ih := passes_perm ops
    unfold passes at ih ⊢
    cases op with
    | move a b o => exact ih.cons _
    | create p content o =>
      have hfront : ((op : List FileOperation) → (op ++ (.create p content o :: (ops.filter isCreate ++ ops.filter isDelete))).Perm
          (.create p content o :: (op ++ (ops.filter isCreate ++ ops.filter isDelete)))) := fun _ => List.perm_middle
      exact (hfront _).trans (ih.cons _)
    | delete p =>
      refine List.Perm.trans ?_ (ih.cons (.delete p))
      show (ops.filter isMove ++ (ops.filter isCreate ++ .delete p :: ops.filter isDelete)).Perm _
      rw [← List.append_assoc, ← List.append_assoc]
      exact List.perm_middle

end FileOperation

/-! ## Text edits -/

namespace WorkspaceEdit

/-- The content of the file at a path with text edits, when there is one and they fit. -/
def rendered (f : Files) (p : Path) (es : List TextEdit) : Option ByteArray :=
  (f (placeOf p)).bind fun b => (Bytes.text? b).bind fun s =>
    (TextEdit.applyAll p.raw s es).toOption.map Bytes.ofText

/-- The text edits of the file at a place. -/
def changeAt? (changes : List (Path × List TextEdit)) (q : Place) : Option (Path × List TextEdit) :=
  changes.find? fun change => placeOf change.1 == q && !change.2.isEmpty

/-- Files with text edits that refer to the files at the start. -/
def textAfter (changes : List (Path × List TextEdit)) (start f : Files) : Files := fun q =>
  match changeAt? changes q with
  | some change => rendered start change.1 change.2
  | none => f q

def edited (w : WorkspaceEdit) (f : Files) : Files := textAfter w.changes f f

theorem edited_eq_none {w : WorkspaceEdit} {f : Files} {q : Place} (h : f q = none) : w.edited f q = none := by
  unfold edited textAfter
  split
  · rename_i change hchange
    have hplace := List.find?_some hchange
    rw [Bool.and_eq_true, beq_iff_eq] at hplace
    unfold rendered
    rw [hplace.1, h]
    rfl
  · exact h

/-- The files after the text edits of one path, computed from the files at the start. -/
def editStep (start f : Files) (change : Path × List TextEdit) : Files :=
  if change.2.isEmpty then f else Function.update f (placeOf change.1) (rendered start change.1 change.2)

/-- No two edited paths lead to one place. -/
def Distinct (w : WorkspaceEdit) : Prop := (w.editedFiles.map placeOf).Nodup

/-- Every edited file has its own text edits. -/
theorem edited_of_mem {w : WorkspaceEdit} (h : w.Distinct) {f : Files} {p : Path} {es : List TextEdit}
    (hmem : (p, es) ∈ w.changes) (hes : es ≠ []) : w.edited f (placeOf p) = rendered f p es := by
  have hsome : (changeAt? w.changes (placeOf p)).isSome :=
    List.find?_isSome.mpr ⟨(p, es), hmem, by simpa using hes⟩
  obtain ⟨change, hchange⟩ := Option.isSome_iff_exists.mp hsome
  have hfound := List.find?_some hchange
  rw [Bool.and_eq_true, beq_iff_eq] at hfound
  unfold Distinct editedFiles at h
  rw [List.map_map] at h
  have hsame : change = (p, es) := List.inj_on_of_nodup_map h
    (List.mem_filter.mpr ⟨List.mem_of_find?_eq_some hchange, hfound.2⟩)
    (List.mem_filter.mpr ⟨hmem, by simpa using hes⟩) hfound.1
  unfold edited textAfter
  rw [hchange, hsame]

theorem edited_of_free {w : WorkspaceEdit} {f : Files} {q : Place}
    (h : ∀ p es, (p, es) ∈ w.changes → es ≠ [] → placeOf p ≠ q) : w.edited f q = f q := by
  have hnone : changeAt? w.changes q = none := by
    refine List.find?_eq_none.mpr fun change hchange hfound => ?_
    rw [Bool.and_eq_true, beq_iff_eq] at hfound
    exact h change.1 change.2 hchange (by simpa using hfound.2) hfound.1
  unfold edited textAfter
  rw [hnone]

/-- All text edits fit the files that they are for. -/
def Fits (w : WorkspaceEdit) (f : Files) : Prop := ∀ p es, (p, es) ∈ w.changes → es ≠ [] → rendered f p es ≠ none

theorem edited_ne_none {w : WorkspaceEdit} {f : Files} (h : w.Fits f) {q : Place} (hq : f q ≠ none) :
    w.edited f q ≠ none := by
  unfold edited textAfter
  split
  · rename_i change hchange
    have hfound := List.find?_some hchange
    rw [Bool.and_eq_true] at hfound
    exact h change.1 change.2 (List.mem_of_find?_eq_some hchange) (by simpa using hfound.2)
  · exact hq

theorem foldl_editStep_eq {changes : List (Path × List TextEdit)} {start f : Files}
    (h : ((changes.filter fun change => !change.2.isEmpty).map fun change => placeOf change.1).Nodup) :
    changes.foldl (editStep start) f = textAfter changes start f := by
  induction changes generalizing f with
  | nil => rfl
  | cons change rest ih =>
    funext q
    rw [List.foldl_cons]
    by_cases hempty : change.2.isEmpty = true
    · rw [List.filter_cons_of_neg (by simp [hempty])] at h
      rw [ih h, editStep, if_pos hempty]
      unfold textAfter changeAt?
      rw [List.find?_cons_of_neg (by simp [hempty])]
    · rw [List.filter_cons_of_pos (by simpa using hempty), List.map_cons, List.nodup_cons] at h
      rw [ih h.2, editStep, if_neg hempty]
      unfold textAfter changeAt?
      by_cases hq : placeOf change.1 = q
      · have hnone : rest.find? (fun change => placeOf change.1 == q && !change.2.isEmpty) = none := by
          rw [List.find?_eq_none]
          intro later hlater hfound
          rw [Bool.and_eq_true, beq_iff_eq] at hfound
          refine h.1 (List.mem_map.mpr ⟨later, List.mem_filter.mpr ⟨hlater, hfound.2⟩, ?_⟩)
          rw [hfound.1, hq]
        rw [hnone, List.find?_cons_of_pos (by simpa [hq] using hempty), ← hq]
        exact Function.update_self _ _ _
      · rw [List.find?_cons_of_neg (by simp [hq]), Function.update_of_ne (Ne.symm hq)]

theorem foldl_editStep {w : WorkspaceEdit} (h : w.Distinct) (f : Files) :
    w.changes.foldl (editStep f) f = w.edited f := by
  have hmap : w.editedFiles.map placeOf =
      (w.changes.filter fun change => !change.2.isEmpty).map fun change => placeOf change.1 := by
    unfold editedFiles
    rw [List.map_map]
    rfl
  unfold Distinct at h
  rw [hmap] at h
  exact foldl_editStep_eq h

/-- The files after an edit, read as one substitution. -/
def result (w : WorkspaceEdit) (f : Files) : Files := FileOperation.substitute w.operations (w.edited f)

/-- No file is left at a place that no operation aims at and that had none, or had it taken away. -/
theorem result_eq_none {w : WorkspaceEdit} {f : Files} {q : Place} (haim : ∀ op ∈ w.operations, op.targetPlace? ≠ some q)
    (h : f q = none ∨ ∃ op ∈ w.operations, op.sourcePlace? = some q) : w.result f q = none := by
  by_cases htaken : ∃ op ∈ w.operations, op.sourcePlace? = some q
  · obtain ⟨op, hop, hsource⟩ := htaken
    exact FileOperation.substitute_of_source hop hsource haim
  · refine (FileOperation.substitute_of_free haim ?_).trans (edited_eq_none (h.resolve_right htaken))
    push Not at htaken
    exact htaken

/-- A file stands at every target, when text edits fit and moves find their sources. -/
theorem result_ne_none {w : WorkspaceEdit} (h : w.operations.Pairwise FileOperation.PlacesApart) {f : Files}
    (hfits : w.Fits f) {op : FileOperation} (hop : op ∈ w.operations) (hsource : ∀ p, op.sourcePlace? = some p → f p ≠ none)
    {q : Place} (hq : op.targetPlace? = some q) : w.result f q ≠ none := by
  unfold result
  rw [FileOperation.substitute_of_target h hop hq]
  cases op with
  | move a b o => exact edited_ne_none hfits (hsource (placeOf a) rfl)
  | create p content o => exact Option.some_ne_none _
  | delete p => cases hq

theorem result_eq_passes {w : WorkspaceEdit} (h : w.operations.Pairwise FileOperation.PlacesApart) (hdistinct : w.Distinct)
    (f : Files) :
    w.result f = (FileOperation.passes w.operations).foldl FileOperation.effect (w.changes.foldl (editStep f) f) := by
  have hperm := FileOperation.passes_perm w.operations
  rw [FileOperation.foldl_effect ((hperm.pairwise_iff FileOperation.PlacesApart.symm).mpr h), foldl_editStep hdistinct,
    ← FileOperation.substitute_perm hperm.symm h]
  rfl

end WorkspaceEdit

end Refactor
