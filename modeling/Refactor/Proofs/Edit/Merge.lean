import Refactor.Proofs.Edit.Overlaps
import Refactor.Proofs.Edit.Validate
import Refactor.Proofs.Path.Sorted

/-!
# Merged edits

Merging takes the union of its inputs file by file and checks it. What the check looks at is a property of the edits and
operations that the inputs bring, so the inputs may stand in any order.

* `WorkspaceEdit.Brings` — an input has an edit of a file
* `WorkspaceEdit.Gathered`, `WorkspaceEdit.gathered_foldl` — the union, one input after the other
* `WorkspaceEdit.Mergeable` — inputs that get on with each other
* `WorkspaceEdit.IsUnion` — what the union of the inputs is
* `WorkspaceEdit.merge_canonical` — merging gives the union when the inputs get on with each other
-/

namespace Refactor.WorkspaceEdit

variable {e : TextEdit} {es new : List TextEdit} {p q : Path} {w w' m : WorkspaceEdit} {ws ws' : List WorkspaceEdit}

/-! ## Distinct edits -/

theorem mem_addDistinct : e ∈ addDistinct es new ↔ e ∈ es ∨ e ∈ new := by
  unfold addDistinct
  induction new generalizing es with
  | nil => simp
  | cons a new ih =>
    rw [List.foldl_cons, ih, List.mem_cons]
    split
    · rename_i hthere
      have ha : a ∈ es := List.contains_iff_mem.mp hthere
      constructor
      · rintro (h | h)
        · exact Or.inl h
        · exact Or.inr (Or.inr h)
      · rintro (h | rfl | h)
        · exact Or.inl h
        · exact Or.inl ha
        · exact Or.inr h
    · rw [List.mem_append, List.mem_singleton, or_assoc]

theorem addDistinct_nodup (h : es.Nodup) : (addDistinct es new).Nodup := by
  unfold addDistinct
  induction new generalizing es with
  | nil => exact h
  | cons a new ih =>
    rw [List.foldl_cons]
    refine ih ?_
    split
    · exact h
    · rename_i hfresh
      refine List.nodup_append.mpr ⟨h, List.pairwise_singleton _ a, fun b hb c hc hbc => ?_⟩
      obtain rfl : c = a := List.mem_singleton.mp hc
      exact hfresh (List.contains_iff_mem.mpr (hbc ▸ hb))

/-! ## The union -/

/-- One of the edits has a text edit of a file. -/
def Brings (ws : List WorkspaceEdit) (p : Path) (e : TextEdit) : Prop :=
  ∃ w ∈ ws, ∃ file ∈ w.changes, (file.1 == p) = true ∧ e ∈ file.2

theorem brings_append : Brings (ws ++ ws') p e ↔ Brings ws p e ∨ Brings ws' p e := by
  simp only [Brings, List.mem_append, or_and_right, exists_or]

theorem brings_singleton : Brings [w] p e ↔ ∃ file ∈ w.changes, (file.1 == p) = true ∧ e ∈ file.2 := by
  simp only [Brings, List.mem_singleton, exists_eq_left]

theorem Brings.congr (h : (p == q) = true) : Brings ws p e ↔ Brings ws q e := by
  have hsame : ∀ r : Path, (r == p) = (r == q) := fun r => by
    rw [Bool.eq_iff_iff, Path.beq_iff, Path.beq_iff, (Path.beq_iff p q).mp h]
  simp only [Brings, hsame]

theorem Brings.perm (h : ws.Perm ws') : Brings ws p e ↔ Brings ws' p e := by
  simp only [Brings, h.mem_iff]

theorem editsOf_congr (h : (p == q) = true) (w : WorkspaceEdit) : w.editsOf p = w.editsOf q := by
  unfold editsOf
  rw [PathMap.find?_congr ((Path.beq_iff p q).mp h)]

/-- Bringing in the edits of one file changes the edits of that file only. -/
theorem editsOf_alter (w : WorkspaceEdit) (p q : Path) (f : List TextEdit → List TextEdit) :
    ({ w with changes := w.changes.alter p [] f } : WorkspaceEdit).editsOf q =
      if q == p then f (w.editsOf q) else w.editsOf q := by
  show ((PathMap.insert p (f (w.editsOf p)) w.changes).find? q).getD [] = _
  rw [PathMap.find?_insert]
  split
  · rename_i heq
    rw [Option.getD_some, editsOf_congr heq]
  · rfl

theorem editsOf_addEdits (w : WorkspaceEdit) (p q : Path) (es : List TextEdit) :
    (w.addEdits p es).editsOf q = if q == p then w.editsOf q ++ es else w.editsOf q :=
  editsOf_alter w p q (· ++ es)

/-- In an edit whose files are sorted, what is brought for a file is found there. -/
theorem brings_singleton_iff {w : WorkspaceEdit} (h : w.changes.Sorted) {p : Path} {e : TextEdit} :
    Brings [w] p e ↔ e ∈ w.editsOf p := by
  rw [brings_singleton, editsOf]
  constructor
  · rintro ⟨⟨q, es⟩, hfile, hq, he⟩
    rw [← PathMap.find?_congr ((Path.beq_iff q p).mp hq), h.find?_of_mem hfile]
    exact he
  · intro he
    cases hfound : w.changes.find? p with
    | none =>
      rw [hfound] at he
      cases he
    | some es =>
      rw [hfound] at he
      obtain ⟨file, hfile, hp, rfl⟩ := PathMap.exists_entry_of_find? hfound
      exact ⟨file, hfile, hp, he⟩

/-- What the union of some edits has: every file once, with each of its edits once. -/
structure Gathered (ws : List WorkspaceEdit) (w : WorkspaceEdit) : Prop where
  sorted : w.changes.Sorted
  once : ∀ p, (w.editsOf p).Nodup
  edits : ∀ p e, e ∈ w.editsOf p ↔ Brings ws p e
  operations : w.operations = ws.flatMap (·.operations)

theorem Gathered.nil : Gathered [] {} where
  sorted := PathMap.Sorted.empty
  once _ := List.nodup_nil
  edits p e := by simp [Brings, editsOf, PathMap.find?]
  operations := rfl

theorem Gathered.alter (h : Gathered ws w) (file : Path × List TextEdit) :
    Gathered (ws ++ [⟨[file], []⟩]) { w with changes := w.changes.alter file.1 [] (addDistinct · file.2) } where
  sorted := PathMap.alter_sorted file.1 [] (addDistinct · file.2) h.sorted
  once p := by
    rw [editsOf_alter]
    split
    · exact addDistinct_nodup (h.once p)
    · exact h.once p
  edits p e := by
    rw [editsOf_alter, brings_append, brings_singleton, ← h.edits p e]
    simp only [List.mem_singleton, exists_eq_left, Path.beq_comm file.1 p]
    split
    · rename_i heq
      rw [mem_addDistinct, heq]
      simp
    · rename_i hne
      simp [hne]
  operations := by
    rw [List.flatMap_append, ← h.operations]
    simp

/-- The files of an edit go in one by one. -/
theorem Gathered.alters (h : Gathered ws w) (changes : PathMap (List TextEdit)) : Gathered (ws ++ [⟨changes, []⟩])
    { w with changes := changes.foldl (fun m file => m.alter file.1 [] (addDistinct · file.2)) w.changes } := by
  induction changes generalizing ws w with
  | nil =>
    refine ⟨h.sorted, h.once, fun p e => ?_, by simpa using h.operations⟩
    rw [brings_append, brings_singleton]
    simpa using h.edits p e
  | cons file rest ih =>
    have hrest := ih (h.alter file)
    refine ⟨hrest.sorted, hrest.once, fun p e => (hrest.edits p e).trans ?_, hrest.operations.trans (by simp)⟩
    rw [brings_append, brings_append, brings_append, brings_singleton, brings_singleton, brings_singleton, or_assoc]
    simp

theorem Gathered.union (h : Gathered ws w) (b : WorkspaceEdit) : Gathered (ws ++ [b]) (w.union b) := by
  have hfiles := h.alters b.changes
  refine ⟨hfiles.sorted, hfiles.once, fun p e => (hfiles.edits p e).trans ?_, ?_⟩
  · rw [brings_append, brings_append, brings_singleton, brings_singleton]
  · show w.operations ++ b.operations = _
    rw [h.operations, List.flatMap_append]
    simp

theorem gathered_foldl (ws : List WorkspaceEdit) : Gathered ws (ws.foldl union {}) := by
  have hfold : ∀ {rest done : List WorkspaceEdit} {w : WorkspaceEdit}, Gathered done w →
      Gathered (done ++ rest) (rest.foldl union w) := by
    intro rest
    induction rest with
    | nil =>
      intro done w h
      rwa [List.append_nil]
    | cons b rest ih =>
      intro done w h
      have hrest := ih (h.union b)
      rwa [List.append_assoc] at hrest
  exact hfold Gathered.nil

/-! ## The merged edit -/

/-- The union of some edits, sorted, before it is checked. -/
def combined (ws : List WorkspaceEdit) : WorkspaceEdit :=
  let all := ws.foldl union {}
  { all with changes := (all.changes.map fun file => (file.1, TextEdit.sorted file.2)).filter (!·.2.isEmpty) }

theorem merge_eq_ok_iff_combined : merge ws = .ok m ↔ combined ws = m ∧ m.validate = .ok () := by
  have hmerge : merge ws = (do
    (combined ws).validate
    return combined ws) := rfl
  rw [hmerge]
  constructor
  · intro h
    cases hvalid : (combined ws).validate with
    | error fault =>
      rw [hvalid] at h
      cases h
    | ok _ =>
      rw [hvalid] at h
      cases h
      exact ⟨rfl, hvalid⟩
  · rintro ⟨rfl, hvalid⟩
    rw [hvalid]
    rfl

/-- A union as merging gives it: files that are all different, none without edits, each with every edit that the inputs
bring for it, once and sorted, and the operations of the inputs one after the other. -/
structure IsUnion (ws : List WorkspaceEdit) (m : WorkspaceEdit) : Prop where
  files : m.changes.Sorted
  complete : ∀ p e, Brings ws p e → ∃ file ∈ m.changes, (file.1 == p) = true
  edits : ∀ file ∈ m.changes, ∀ e, e ∈ file.2 ↔ Brings ws file.1 e
  once : ∀ file ∈ m.changes, file.2.Nodup
  sorted : ∀ file ∈ m.changes, TextEdit.Sorted file.2
  nonempty : ∀ file ∈ m.changes, file.2 ≠ []
  operations : m.operations = ws.flatMap (·.operations)

theorem combined_isUnion (ws : List WorkspaceEdit) : IsUnion ws (combined ws) := by
  have hall := gathered_foldl ws
  have hfind : ∀ {file : Path × List TextEdit}, file ∈ (ws.foldl union {}).changes →
      (ws.foldl union {}).editsOf file.1 = file.2 := fun {file} hfile => by
    rw [editsOf, hall.sorted.find?_of_mem hfile, Option.getD_some]
  have hof : ∀ {file : Path × List TextEdit}, file ∈ (combined ws).changes →
      file.2 ≠ [] ∧ ∃ old ∈ (ws.foldl union {}).changes, file = (old.1, TextEdit.sorted old.2) := by
    intro file hfile
    obtain ⟨hmem, hnonempty⟩ := List.mem_filter.mp hfile
    obtain ⟨old, hold, rfl⟩ := List.mem_map.mp hmem
    exact ⟨by simpa using hnonempty, old, hold, rfl⟩
  refine ⟨?_, ?_, ?_, ?_, ?_, fun file hfile => (hof hfile).1, hall.operations⟩
  · exact List.Pairwise.filter _ (List.pairwise_map.mpr hall.sorted)
  · intro p e hbrings
    have he := (hall.edits p e).mpr hbrings
    cases hentry : (ws.foldl union {}).changes.find? p with
    | none =>
      rw [editsOf, hentry] at he
      cases he
    | some es =>
      rw [editsOf, hentry, Option.getD_some] at he
      obtain ⟨old, hold, hbeq, rfl⟩ := PathMap.exists_entry_of_find? hentry
      refine ⟨(old.1, TextEdit.sorted old.2), List.mem_filter.mpr ⟨List.mem_map.mpr ⟨old, hold, rfl⟩, ?_⟩, hbeq⟩
      have hsorted := (TextEdit.sorted_perm old.2).mem_iff.mpr he
      simpa using List.ne_nil_of_mem hsorted
  · intro file hfile e
    obtain ⟨_, old, hold, rfl⟩ := hof hfile
    rw [(TextEdit.sorted_perm old.2).mem_iff, ← hfind hold, hall.edits]
  · intro file hfile
    obtain ⟨_, old, hold, rfl⟩ := hof hfile
    have honce := hall.once old.1
    rw [hfind hold] at honce
    exact (TextEdit.sorted_perm old.2).nodup_iff.mpr honce
  · intro file hfile
    obtain ⟨_, old, _, rfl⟩ := hof hfile
    exact TextEdit.sorted_sorted old.2

namespace IsUnion

variable (h : IsUnion ws m)
include h

theorem mem_editsOf : e ∈ m.editsOf p ↔ Brings ws p e := by
  unfold editsOf
  cases hentry : m.changes.find? p with
  | none =>
    refine iff_of_false (by simp) fun hbrings => ?_
    obtain ⟨file, hfile, hbeq⟩ := h.complete p e hbrings
    rw [Path.beq_comm, PathMap.not_beq_of_find?_none hentry file hfile] at hbeq
    cases hbeq
  | some es =>
    obtain ⟨file, hfile, hbeq, rfl⟩ := PathMap.exists_entry_of_find? hentry
    rw [Option.getD_some, h.edits file hfile, Brings.congr hbeq]

theorem editsOf_nodup (p : Path) : (m.editsOf p).Nodup := by
  unfold editsOf
  cases hentry : m.changes.find? p with
  | none => exact List.nodup_nil
  | some es =>
    obtain ⟨file, hfile, _, rfl⟩ := PathMap.exists_entry_of_find? hentry
    exact h.once file hfile

end IsUnion

/-! ## The check of the union -/

/-- Inputs that get on with each other: different edits of one file do not overlap, no two operations have a source or a
destination in common, none takes what another one produces, and no deleted file is edited. -/
structure Mergeable (ws : List WorkspaceEdit) : Prop where
  beside : ∀ p e e', Brings ws p e → Brings ws p e' → e ≠ e' → TextEdit.Beside e e'
  apart : (ws.flatMap (·.operations)).Pairwise FileOperation.Apart
  deleted : ∀ p, .delete p ∈ ws.flatMap (·.operations) → ∀ e, ¬Brings ws p e

theorem Mergeable.perm (h : ws.Perm ws') (hws : Mergeable ws) : Mergeable ws' := by
  have hoperations := h.flatMap_right (·.operations)
  refine ⟨fun p e e' he he' => ?_, hoperations.pairwise hws.apart FileOperation.Apart.symm, fun p hp e he => ?_⟩
  · exact hws.beside p e e' ((Brings.perm h).mpr he) ((Brings.perm h).mpr he')
  · exact hws.deleted p (hoperations.mem_iff.mpr hp) e ((Brings.perm h).mpr he)

theorem IsUnion.validate_eq_ok_iff (h : IsUnion ws m) : m.validate = .ok () ↔ Mergeable ws := by
  rw [WorkspaceEdit.validate_eq_ok_iff, forM_checkOverlaps_eq_ok_iff]
  constructor
  · rintro ⟨hoverlaps, hchecked⟩
    refine ⟨fun p e e' he he' hne => ?_, h.operations ▸ hchecked.apart, fun p hp e he => ?_⟩
    · obtain ⟨file, hfile, hbeq⟩ := h.complete p e he
      have hsymm : Std.Symm TextEdit.Beside := ⟨fun _ _ => TextEdit.Beside.symm⟩
      have hmem := (h.edits file hfile e).mpr ((Brings.congr hbeq).mpr he)
      have hmem' := (h.edits file hfile e').mpr ((Brings.congr hbeq).mpr he')
      exact (hoverlaps file hfile).forall hmem hmem' hne
    · have hmem := h.mem_editsOf.mpr he
      rw [hchecked.deleted p (h.operations ▸ hp)] at hmem
      cases hmem
  · intro hws
    refine ⟨fun file hfile => ?_, h.operations.symm ▸ hws.apart, fun p hp => ?_⟩
    · refine (h.once file hfile).imp_of_mem fun {e e'} he he' hne => ?_
      exact hws.beside file.1 e e' ((h.edits file hfile e).mp he) ((h.edits file hfile e').mp he') hne
    · rw [List.eq_nil_iff_forall_not_mem]
      exact fun e he => hws.deleted p (h.operations ▸ hp) e (h.mem_editsOf.mp he)

theorem exists_merge_iff (ws : List WorkspaceEdit) : (∃ m, merge ws = .ok m) ↔ Mergeable ws := by
  rw [← (combined_isUnion ws).validate_eq_ok_iff]
  constructor
  · rintro ⟨m, hm⟩
    obtain ⟨rfl, hvalid⟩ := merge_eq_ok_iff_combined.mp hm
    exact hvalid
  · exact fun hvalid => ⟨_, merge_eq_ok_iff_combined.mpr ⟨rfl, hvalid⟩⟩

theorem merge_isUnion (h : merge ws = .ok m) : IsUnion ws m := by
  obtain ⟨rfl, _⟩ := merge_eq_ok_iff_combined.mp h
  exact combined_isUnion ws

/-- Merging succeeds when the inputs get on with each other and only then, and gives their union. In another order, the
same inputs are merged or refused, and every file gets the same edits. -/
theorem merge_canonical (ws : List WorkspaceEdit) :
    ((∃ m, merge ws = .ok m) ↔ Mergeable ws) ∧
      (∀ m, merge ws = .ok m → IsUnion ws m) ∧
      ∀ ws', ws.Perm ws' → ((∃ m', merge ws' = .ok m') ↔ ∃ m, merge ws = .ok m) ∧
        ∀ m m', merge ws = .ok m → merge ws' = .ok m' →
          m.operations.Perm m'.operations ∧ ∀ p, (m.editsOf p).Perm (m'.editsOf p) := by
  refine ⟨exists_merge_iff ws, fun m hm => merge_isUnion hm, fun ws' hperm => ⟨?_, fun m m' hm hm' => ?_⟩⟩
  · rw [exists_merge_iff, exists_merge_iff]
    exact ⟨Mergeable.perm hperm.symm, Mergeable.perm hperm⟩
  · have hunion := merge_isUnion hm
    have hunion' := merge_isUnion hm'
    refine ⟨?_, fun p => ?_⟩
    · rw [hunion.operations, hunion'.operations]
      exact hperm.flatMap_right _
    · refine (List.perm_ext_iff_of_nodup (hunion.editsOf_nodup p) (hunion'.editsOf_nodup p)).mpr fun e => ?_
      rw [hunion.mem_editsOf, hunion'.mem_editsOf, Brings.perm hperm]

/-- The same insertion from two inputs that write the path of its file in two ways. -/
theorem merge_canonical_twice :
    ∃ m m', merge [addEdits {} ⟨"a/f"⟩ [.inserting ⟨0, 0⟩ "x"], addEdits {} ⟨"a/./f"⟩ [.inserting ⟨0, 0⟩ "x"]] = .ok m ∧
      merge [addEdits {} ⟨"a/./f"⟩ [.inserting ⟨0, 0⟩ "x"], addEdits {} ⟨"a/f"⟩ [.inserting ⟨0, 0⟩ "x"]] = .ok m' ∧
      m.editsOf ⟨"a/f"⟩ = [.inserting ⟨0, 0⟩ "x"] ∧ (m.editsOf ⟨"a/f"⟩).Perm (m'.editsOf ⟨"a/f"⟩) := by
  obtain ⟨_, _, hperm⟩ := merge_canonical
    [addEdits {} ⟨"a/f"⟩ [.inserting ⟨0, 0⟩ "x"], addEdits {} ⟨"a/./f"⟩ [.inserting ⟨0, 0⟩ "x"]]
  have hedits : (merge [addEdits {} ⟨"a/f"⟩ [.inserting ⟨0, 0⟩ "x"],
      addEdits {} ⟨"a/./f"⟩ [.inserting ⟨0, 0⟩ "x"]]).toOption.map (·.editsOf ⟨"a/f"⟩) =
        some [.inserting ⟨0, 0⟩ "x"] := by
    decide +kernel
  obtain ⟨hsame, hagree⟩ := hperm _ (List.Perm.swap _ _ [])
  cases hmerge : merge [addEdits {} ⟨"a/f"⟩ [.inserting ⟨0, 0⟩ "x"], addEdits {} ⟨"a/./f"⟩ [.inserting ⟨0, 0⟩ "x"]] with
  | error fault =>
    rw [hmerge] at hedits
    cases hedits
  | ok m =>
    rw [hmerge] at hedits
    obtain ⟨m', hmerge'⟩ := hsame.mpr ⟨m, hmerge⟩
    exact ⟨m, m', rfl, hmerge', Option.some.inj hedits, (hagree m m' hmerge hmerge').2 _⟩

end Refactor.WorkspaceEdit
