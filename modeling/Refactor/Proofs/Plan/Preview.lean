import Refactor.Plan.Preview
import Refactor.Proofs.Edit.Substitution
import Refactor.Proofs.Path.Sorted

/-!
# What previews show

Every entry of a preview is that of a file with text edits, or that of an operation; a move whose file has text edits has
no entry of its own.

* `FileOperation.entry`, `Plan.editedEntry` — the entries
* `Plan.Shows` — what an entry of a preview can be
* `Plan.preview_shows` — a preview has no others
-/

namespace Refactor

open Tree (placeOf)

/-! ## Entries -/

/-- The entry that an operation on these files gives. -/
def FileOperation.entry (f : Files) : FileOperation → FilePreview
  | .move a b _ =>
    { path := a, newPath := some b, status := .moved, before := (f (placeOf a)).bind Bytes.text?
      rendered := (f (placeOf a)).bind Bytes.text? }
  | .create p content _ => { path := p, status := .created, rendered := some content }
  | .delete p => { path := p, status := .deleted, before := (f (placeOf p)).bind Bytes.text? }

namespace Plan

/-- The entry of a file with text edits. -/
def editedEntry (plan : Plan) (p : Path) (before out : String) : FilePreview :=
  { path := p, newPath := plan.destination? p, status := if (plan.destination? p).isSome then .moved else .modified
    before := some before, rendered := some out }

theorem exists_move_of_destination? {plan : Plan} {p b : Path} (h : plan.destination? p = some b) :
    ∃ a o, .move a b o ∈ plan.edit.operations ∧ (p == a) = true := by
  have hmem : ∀ {l : List (Path × Path)}, l.lookup p = some b → ∃ a, (a, b) ∈ l ∧ (p == a) = true := by
    intro l
    induction l with
    | nil => simp
    | cons first rest ih =>
      intro h
      rw [List.lookup_cons] at h
      split at h
      · rename_i hp
        obtain rfl := Option.some.inj h
        exact ⟨first.1, by simp, hp⟩
      · obtain ⟨a, ha, hp⟩ := ih h
        exact ⟨a, List.mem_cons_of_mem _ ha, hp⟩
  obtain ⟨a, ha, hp⟩ := hmem h
  obtain ⟨op, hop, hmove⟩ := List.mem_filterMap.mp (List.mem_reverse.mp ha)
  cases op with
  | move a' b' o =>
    cases hmove
    exact ⟨_, _, hop, hp⟩
  | create => cases hmove
  | delete => cases hmove

theorem no_move_of_destination? {plan : Plan} {p : Path} (h : plan.destination? p = none) {a b : Path} {o : Bool}
    (hop : .move a b o ∈ plan.edit.operations) : (p == a) = false := by
  have hmem : (a, b) ∈ plan.moves.reverse := List.mem_reverse.mpr (List.mem_filterMap.mpr ⟨_, hop, rfl⟩)
  unfold destination? at h
  rw [List.lookup_eq_none_iff] at h
  exact (Bool.not_eq_true' _).mp (h _ hmem)

variable {plan : Plan} {d : Disk}

theorem fileAt_of_read (ht : d.tree.WellFormed) {p : Path} {b : ByteArray} (h : d.read p = .ok b) :
    d.tree.fileAt (placeOf p) = some b := by
  unfold Disk.read at h
  cases hread : d.tree.read p with
  | error fault =>
    rw [hread] at h
    cases h
  | ok b' =>
    rw [hread] at h
    obtain rfl := Except.ok.inj h
    exact Tree.fileAt_eq_some_iff.mpr ((Tree.read_eq_ok_iff ht p _).mp hread).2.2

theorem readContent_eq (ht : d.tree.WellFormed) {p : Path} {content : Option String}
    (h : readContent d p = .ok content) : content = (d.tree.fileAt (placeOf p)).bind Bytes.text? := by
  unfold readContent at h
  cases hread : d.read p with
  | error e =>
    rw [hread] at h
    cases h
  | ok b =>
    rw [hread] at h
    rw [fileAt_of_read ht hread]
    exact (Except.ok.inj h).symm

theorem rendered_of_read (ht : d.tree.WellFormed) {p : Path} {es : List TextEdit} {before out : String}
    (hread : d.readText p = .ok before) (hout : TextEdit.applyAll p.raw before es = .ok out) :
    WorkspaceEdit.rendered d.tree.fileAt p es = some (Bytes.ofText out) := by
  cases hbytes : d.read p with
  | error e =>
    rw [Disk.readText, hbytes] at hread
    cases hread
  | ok b =>
    simp only [Disk.readText, hbytes, bind, Except.bind] at hread
    cases htext : Bytes.text? b with
    | none =>
      simp only [htext] at hread
      cases hread
    | some s =>
      simp only [htext] at hread
      obtain rfl := Except.ok.inj hread
      unfold WorkspaceEdit.rendered
      rw [fileAt_of_read ht hbytes, Option.bind_some, htext, Option.bind_some, hout]
      rfl

/-! ## The two parts of a preview -/

theorem previewEdits_find? (ht : d.tree.WellFormed) : ∀ {changes : List (Path × List TextEdit)}
    {files files' : PathMap FilePreview}, plan.previewEdits d changes files = .ok files' →
    (files.Sorted → files'.Sorted) ∧
    (∀ q e, files'.find? q = some e → files.find? q = some e ∨ ∃ p es before out, (p, es) ∈ changes ∧ es ≠ [] ∧
      WorkspaceEdit.rendered d.tree.fileAt p es = some (Bytes.ofText out) ∧ e = plan.editedEntry p before out ∧
      (q == p) = true) ∧
    (∀ q, files.find? q ≠ none → files'.find? q ≠ none) ∧ ∀ p es, (p, es) ∈ changes → es ≠ [] → files'.find? p ≠ none
  | [], files, files', h => by
    cases h
    exact ⟨fun hfiles => hfiles, fun q e he => Or.inl he, fun q hq => hq, by simp⟩
  | (p, es) :: rest, files, files', h => by
    unfold previewEdits at h
    split at h
    · rename_i hempty
      obtain ⟨hsorted, hentries, hmono, hall⟩ := previewEdits_find? ht h
      refine ⟨hsorted, fun q e he => (hentries q e he).imp_right ?_, hmono, fun p' es' hmem hes => ?_⟩
      · rintro ⟨p', es', before, out, hmem, hrest⟩
        exact ⟨p', es', before, out, List.mem_cons_of_mem _ hmem, hrest⟩
      · rcases List.mem_cons.mp hmem with heq | hmem
        · cases heq
          exact absurd (List.isEmpty_iff.mp hempty) hes
        · exact hall p' es' hmem hes
    · rename_i hempty
      have hes : es ≠ [] := fun heq => hempty (List.isEmpty_iff.mpr heq)
      cases hread : d.readText p with
      | error e =>
        rw [hread] at h
        cases h
      | ok before =>
        rw [hread] at h
        dsimp only at h
        cases hout : TextEdit.applyAll p.raw before es with
        | error e =>
          rw [hout] at h
          cases h
        | ok out =>
          rw [hout] at h
          change plan.previewEdits d rest (files.insert p (plan.editedEntry p before out)) = .ok files' at h
          obtain ⟨hsorted, hentries, hmono, hall⟩ := previewEdits_find? ht h
          refine ⟨fun hfiles => hsorted (PathMap.insert_sorted _ _ hfiles), fun q e he => ?_, fun q hq => hmono q ?_,
            fun p' es' hmem hes' => ?_⟩
          · rcases hentries q e he with he | ⟨p', es', before', out', hmem, hrest⟩
            · rw [PathMap.find?_insert] at he
              split at he
              · rename_i hqp
                exact Or.inr ⟨p, es, before, out, by simp, hes, rendered_of_read ht hread hout,
                  (Option.some.inj he).symm, hqp⟩
              · exact Or.inl he
            · exact Or.inr ⟨p', es', before', out', List.mem_cons_of_mem _ hmem, hrest⟩
          · rw [PathMap.find?_insert]
            split
            · simp
            · exact hq
          · rcases List.mem_cons.mp hmem with heq | hmem
            · cases heq
              refine hmono p ?_
              rw [PathMap.find?_insert]
              simp
            · exact hall p' es' hmem hes'

theorem previewOperations_find? (ht : d.tree.WellFormed) : ∀ {ops : List FileOperation}
    {files files' : PathMap FilePreview}, previewOperations d ops files = .ok files' →
    (files.Sorted → files'.Sorted) ∧
    ∀ q e, files'.find? q = some e →
      (files.find? q = some e ∧ ∀ op ∈ ops, op.isMove = false → ∀ p ∈ op.paths, (q == p) = false) ∨
      ∃ op ∈ ops, e = op.entry d.tree.fileAt ∧ (q == e.path) = true ∧ (op.isMove = true → files.find? q = none)
  | [], files, files', h => by
    cases h
    exact ⟨fun hfiles => hfiles, fun q e he => Or.inl ⟨he, by simp⟩⟩
  | op :: rest, files, files', h => by
    -- after an entry went in, the rest either leaves it or puts another one over it
    have hinsert : ∀ {p : Path}, (∀ q ∈ op.paths, op.isMove = false → q = p) → (op.entry d.tree.fileAt).path = p →
        (op.isMove = true → files.find? p = none) →
        previewOperations d rest (files.insert p (op.entry d.tree.fileAt)) = .ok files' →
        (files.Sorted → files'.Sorted) ∧ ∀ q e, files'.find? q = some e →
          (files.find? q = some e ∧ ∀ op' ∈ op :: rest, op'.isMove = false → ∀ p ∈ op'.paths, (q == p) = false) ∨
          ∃ op' ∈ op :: rest, e = op'.entry d.tree.fileAt ∧ (q == e.path) = true ∧
            (op'.isMove = true → files.find? q = none) := by
      intro p hpaths hpath hfresh h
      obtain ⟨hsorted, hentries⟩ := previewOperations_find? ht h
      refine ⟨fun hfiles => hsorted (PathMap.insert_sorted _ _ hfiles), fun q e he => ?_⟩
      rcases hentries q e he with ⟨he, hkept⟩ | ⟨op', hop', rfl, hq, hmove⟩
      · rw [PathMap.find?_insert] at he
        split at he
        · rename_i hqp
          obtain rfl := Option.some.inj he
          refine Or.inr ⟨op, by simp, rfl, hpath ▸ hqp, fun hmove => ?_⟩
          rw [PathMap.find?_congr ((Path.beq_iff q p).mp hqp)]
          exact hfresh hmove
        · rename_i hqp
          refine Or.inl ⟨he, fun op' hop' hmove p' hp' => ?_⟩
          rcases List.mem_cons.mp hop' with rfl | hop'
          · rw [hpaths p' hp' hmove]
            simpa using hqp
          · exact hkept op' hop' hmove p' hp'
      · refine Or.inr ⟨op', List.mem_cons_of_mem _ hop', rfl, hq, fun hm => ?_⟩
        have hnone := hmove hm
        rw [PathMap.find?_insert] at hnone
        split at hnone
        · cases hnone
        · exact hnone
    cases op with
    | move a b o =>
      unfold previewOperations at h
      split at h
      · obtain ⟨hsorted, hentries⟩ := previewOperations_find? ht h
        refine ⟨hsorted, fun q e he => ?_⟩
        rcases hentries q e he with ⟨he, hkept⟩ | ⟨op', hop', hrest⟩
        · refine Or.inl ⟨he, fun op' hop' hmove => ?_⟩
          rcases List.mem_cons.mp hop' with rfl | hop'
          · cases hmove
          · exact hkept op' hop' hmove
        · exact Or.inr ⟨op', List.mem_cons_of_mem _ hop', hrest⟩
      · rename_i hfresh
        cases hcontent : readContent d a with
        | error e =>
          rw [hcontent] at h
          cases h
        | ok content =>
          rw [hcontent] at h
          obtain rfl := readContent_eq ht hcontent
          refine hinsert (p := a) (by simp [FileOperation.isMove]) rfl (fun _ => ?_) h
          rw [PathMap.contains_eq] at hfresh
          simpa using hfresh
    | create p content o => exact hinsert (p := p) (by simp [FileOperation.paths]) rfl (by simp [FileOperation.isMove]) h
    | delete p =>
      unfold previewOperations at h
      cases hcontent : readContent d p with
      | error e =>
        rw [hcontent] at h
        cases h
      | ok content =>
        rw [hcontent] at h
        obtain rfl := readContent_eq ht hcontent
        exact hinsert (p := p) (by simp [FileOperation.paths]) rfl (by simp [FileOperation.isMove]) h

/-! ## Previews -/

/-- What an entry of a preview can be: that of a file with text edits that no other entry took the place of, or that of
an operation, which is none of a moved file with text edits. -/
inductive Shows (plan : Plan) (t : Tree) : FilePreview → Prop where
  | edited {p : Path} {es : List TextEdit} {before out : String} (hmem : (p, es) ∈ plan.edit.changes) (hes : es ≠ [])
      (hrendered : WorkspaceEdit.rendered t.fileAt p es = some (Bytes.ofText out))
      (hkept : ∀ op ∈ plan.edit.operations, op.isMove = false → ∀ q ∈ op.paths, (p == q) = false) :
      Shows plan t (plan.editedEntry p before out)
  | operation {op : FileOperation} (hmem : op ∈ plan.edit.operations)
      (hunedited : op.isMove = true → ∀ p es, (p, es) ∈ plan.edit.changes → es ≠ [] →
        (p == (op.entry t.fileAt).path) = false) :
      Shows plan t (op.entry t.fileAt)

theorem preview_shows (ht : d.tree.WellFormed) {preview : Preview} (h : plan.preview d = .ok preview) :
    ∀ e ∈ preview.files, plan.Shows d.tree e := by
  unfold Plan.preview at h
  cases hedits : plan.previewEdits d plan.edit.changes [] with
  | error e =>
    rw [hedits] at h
    cases h
  | ok files =>
    rw [hedits] at h
    change (previewOperations d plan.edit.operations files >>= fun files =>
      (.ok ⟨plan.id, files.map (·.2), plan.warnings, plan.impact⟩ : Except Error Preview)) = .ok preview at h
    cases hoperations : previewOperations d plan.edit.operations files with
    | error e =>
      rw [hoperations] at h
      cases h
    | ok files' =>
      rw [hoperations] at h
      obtain rfl := Except.ok.inj h
      obtain ⟨hsorted, hentries, _, hall⟩ := previewEdits_find? ht hedits
      obtain ⟨hsorted', hentries'⟩ := previewOperations_find? ht hoperations
      intro e he
      obtain ⟨⟨q, _⟩, hmem, rfl⟩ := List.mem_map.mp he
      rcases hentries' q _ ((hsorted' (hsorted PathMap.Sorted.empty)).find?_of_mem hmem) with ⟨hfound, hkept⟩ |
        ⟨op, hop, heq, hq, hmove⟩
      · rcases hentries q _ hfound with hnone | ⟨p, es, before, out, hmem, hes, hrendered, heq, hq⟩
        · cases hnone
        · dsimp only at heq ⊢
          rw [heq]
          refine .edited hmem hes hrendered fun op hop hmove p' hp' => ?_
          have hne := hkept op hop hmove p' hp'
          rw [Path.beq_eq_false_iff] at hne ⊢
          rwa [← (Path.beq_iff q p).mp hq]
      · dsimp only at heq hq ⊢
        rw [heq] at hq ⊢
        refine .operation hop fun hm p es hmem hes => ?_
        by_contra hbeq
        refine hall p es hmem hes ?_
        rw [PathMap.find?_congr (((Path.beq_iff _ _).mp (by simpa using hbeq)).trans ((Path.beq_iff q _).mp hq).symm)]
        exact hmove hm

end Plan

end Refactor
