import Refactor.Proofs.Apply.Emptied

/-!
# Writings that do not fail

On a steady file system, and when no cancellation is heeded, the writing of a plan ends well: text edits fit, nothing
stands in the way of a target, and no file stands above the counterpart of an emptied directory.

* `Files.FreeAbove` — no file stands above a place
* `WorkspaceEdit.Unhindered` — nothing stands in the way of a target
* `Transaction.Ready`, `Transaction.writeFiles_succeeds` — the changes of files
* `Transaction.Roomy`, `Transaction.removeAllEmptied_succeeds` — the removal of emptied directories
-/

set_option linter.unusedSectionVars false

namespace Refactor

open Tree (Below Beside pathOf placeOf)
open Path (IsName)

/-! ## Free ways -/

def Files.FreeAbove (f : Files) (place : Place) : Prop := ∀ q, Below q place → f q = none

theorem Tree.below_concat_iff {q d : Place} {s : String} : Below q (d ++ [s]) ↔ q <+: d := by
  unfold Below
  rw [List.prefix_concat_iff]
  constructor
  · rintro ⟨rfl | hq, hne⟩
    · exact absurd rfl hne
    · exact hq
  · refine fun hq => ⟨Or.inr hq, fun heq => ?_⟩
    have hlength := hq.length_le
    rw [← heq] at hlength
    simp at hlength

theorem Tree.clear_iff_freeAbove {t : Tree} {d : Place} {s : String} :
    t.Clear d ↔ Files.FreeAbove t.fileAt (d ++ [s]) := by
  constructor
  · intro h q hq
    cases hfile : t.fileAt q with
    | none => rfl
    | some b => exact absurd (Tree.fileAt_eq_some_iff.mp hfile) (h q b (Tree.below_concat_iff.mp hq))
  · intro h q b hq hfile
    have hnone := h q (Tree.below_concat_iff.mpr hq)
    rw [Tree.fileAt_eq_some_iff.mpr hfile] at hnone
    cases hnone

theorem Tree.freeAbove_of_taken {t : Tree} (ht : t.WellFormed) {place : Place} (h : t.get? place ≠ none) :
    Files.FreeAbove t.fileAt place := by
  rintro q ⟨⟨rest, rfl⟩, hne⟩
  exact Tree.fileAt_of_dir (ht.dir_of_lt rest (by simpa using hne) h)

/-- Nothing stands in the way of a target: no file above it, no directory at it, and no other target above it. -/
structure WorkspaceEdit.Unhindered (t : Tree) (edit : WorkspaceEdit) : Prop where
  above : ∀ op ∈ edit.operations, ∀ place ∈ op.targetPlace?, Files.FreeAbove t.fileAt place
  target : ∀ op ∈ edit.operations, ∀ place ∈ op.targetPlace?, t.get? place ≠ some .dir
  apart : ∀ op ∈ edit.operations, ∀ place ∈ op.targetPlace?, ∀ op' ∈ edit.operations, ∀ place' ∈ op'.targetPlace?,
    ¬Below place place'

variable {σ : Type} [TreeBacked σ]

namespace Transaction

theorem Ensured.heeds {m m' : Moment} {place : Place} (h : Ensured m place m') : m'.heeds = m.heeds := by
  cases h with
  | there _ => rfl
  | made => rfl

/-! ## Changes of files -/

/-- While files are changed: every file is one of before or at a target, every directory is one of before or above a
target, and the operations to come find their sources. -/
structure Ready (t₀ : Tree) (edit : WorkspaceEdit) (pending : List FileOperation) (m : Moment) : Prop where
  wellFormed : m.tree.WellFormed
  heedless : m.heeds = false
  files : ∀ q b, m.tree.get? q = some (.file b) →
    (∃ c, t₀.get? q = some (.file c)) ∨ ∃ op ∈ edit.operations, op.targetPlace? = some q
  dirs : ∀ q, m.tree.get? q = some .dir →
    t₀.get? q = some .dir ∨ ∃ op ∈ edit.operations, ∃ place ∈ op.targetPlace?, Below q place
  standing : ∀ op ∈ pending, ∀ a ∈ op.source?, ∃ c, m.tree.get? (placeOf a) = some (.file c)

namespace Ready

variable {t₀ : Tree} {edit : WorkspaceEdit} {pending : List FileOperation} {m m' : Moment}

/-- Nothing stands in the way of a target yet. -/
theorem way (h : Ready t₀ edit pending m) (hedit : edit.Unhindered t₀) {op : FileOperation} (hop : op ∈ edit.operations)
    {d : Place} {s : String} (htarget : op.targetPlace? = some (d ++ [s])) :
    m.tree.Clear d ∧ m.tree.get? (d ++ [s]) ≠ some .dir := by
  constructor
  · intro q b hq hfile
    rcases h.files q b hfile with ⟨c, hc⟩ | ⟨op', hop', htarget'⟩
    · exact Tree.clear_iff_freeAbove.mpr (hedit.above op hop _ htarget) q c hq hc
    · exact hedit.apart op' hop' q htarget' op hop _ htarget (Tree.below_concat_iff.mpr hq)
  · intro hdir
    rcases h.dirs _ hdir with hdir | ⟨op', hop', place, hplace, hbelow⟩
    · exact hedit.target op hop _ htarget hdir
    · exact hedit.apart op hop _ htarget op' hop' place hplace hbelow

/-- The directory of a target is made. -/
theorem ensured (h : Ready t₀ edit pending m) (hedit : edit.Unhindered t₀) {op : FileOperation}
    (hop : op ∈ edit.operations) {d : Place} {s : String} (htarget : op.targetPlace? = some (d ++ [s]))
    (hensured : Ensured m d m') : Ready t₀ edit pending m' ∧ m'.tree.get? d = some .dir := by
  have hcases := hensured.get?_cases h.wellFormed
  refine ⟨⟨hensured.wellFormed h.wellFormed, hensured.heeds.trans h.heedless, fun q b hq => ?_, fun q hq => ?_,
    fun op' hop' a ha => ?_⟩, ?_⟩
  · rcases hcases q with heq | ⟨_, hdir, _⟩
    · exact h.files q b (heq ▸ hq)
    · rw [hdir] at hq
      cases hq
  · rcases hcases q with heq | ⟨_, _, hlead⟩
    · exact h.dirs q (heq ▸ hq)
    · exact Or.inr ⟨op, hop, d ++ [s], htarget, Tree.below_concat_iff.mpr hlead⟩
  · obtain ⟨c, hc⟩ := h.standing op' hop' a ha
    exact ⟨c, hensured.file h.wellFormed hc⟩
  · obtain ⟨e, he⟩ := Option.ne_none_iff_exists'.mp hensured.taken
    rcases (hensured.wellFormed h.wellFormed).file_or_dir he with rfl | ⟨b, rfl⟩
    · exact he
    · rcases hcases d with heq | ⟨_, hdir, _⟩
      · exact absurd (heq ▸ he) ((h.way hedit hop htarget).1 d b List.prefix_rfl)
      · exact hdir

/-- Files are put at targets or taken away. -/
theorem set (h : Ready t₀ edit pending m) {pending' : List FileOperation} {w : Written} {t : Tree}
    (hwellFormed : t.WellFormed) (hdirs : ∀ q, t.get? q = some .dir → m.tree.get? q = some .dir)
    (hfiles : ∀ q b, t.get? q = some (.file b) → (∃ c, m.tree.get? q = some (.file c)) ∨
      ∃ op ∈ edit.operations, op.targetPlace? = some q)
    (hstanding : ∀ op ∈ pending', ∀ a ∈ op.source?, ∃ c, t.get? (placeOf a) = some (.file c)) :
    Ready t₀ edit pending' ((m.record w).over t) where
  wellFormed := hwellFormed
  heedless := h.heedless
  files q b hq := by
    rcases hfiles q b hq with ⟨c, hc⟩ | htarget
    · exact h.files q c hc
    · exact Or.inr htarget
  dirs q hq := h.dirs q (hdirs q hq)
  standing := hstanding

/-- A file is put at a place where a file stands or an operation has its target. -/
theorem put (h : Ready t₀ edit pending m) {p : Place} {b : ByteArray} {w : Written} {t : Tree}
    (hplace : (∃ c, m.tree.get? p = some (.file c)) ∨ ∃ op ∈ edit.operations, op.targetPlace? = some p)
    (hholds : m.tree.Holds p (some (.file b)) t) : Ready t₀ edit pending ((m.record w).over t) := by
  refine h.set hholds.wellFormed (fun q hq => ?_) (fun q c hq => ?_) fun op hop a ha => ?_
  · rw [hholds.get?] at hq
    split_ifs at hq
    · cases hq
    · exact hq
  · rw [hholds.get?] at hq
    split_ifs at hq with heq
    · exact heq ▸ hplace
    · exact Or.inl ⟨c, hq⟩
  · rw [hholds.get?]
    split_ifs
    · exact ⟨b, rfl⟩
    · exact h.standing op hop a ha

end Ready

variable {t₀ : Tree} {snapshots : Snapshots} {edit : WorkspaceEdit} {op : FileOperation}
  {pending : List FileOperation}

/-- What was there before is there, with other contents at most. -/
def Kept (t₀ : Tree) (m : Moment) : Prop :=
  (∀ q, t₀.get? q = some .dir → m.tree.get? q = some .dir) ∧
    ∀ q b, t₀.get? q = some (.file b) → ∃ c, m.tree.get? q = some (.file c)

/-- Text edits that can be rendered fit the snapshot of their file. -/
theorem exists_edits {p : Path} {es : List TextEdit} (hp : Written.Recorded t₀ snapshots (.path p))
    (hrendered : WorkspaceEdit.rendered t₀.fileAt p es ≠ none) :
    ∃ out b, Edits snapshots p es out ∧ t₀.Finds p (.file b) := by
  unfold WorkspaceEdit.rendered at hrendered
  cases hp.paths p (by simp [Written.paths]) with
  | absent _ _ hfree =>
    unfold Tree.fileAt at hrendered
    rw [hfree] at hrendered
    exact absurd rfl hrendered
  | content b hfound _ hfinds =>
    rw [Tree.fileAt_eq_some_iff.mpr hfinds.2.2, Option.bind_some] at hrendered
    cases htext : Bytes.text? b with
    | none =>
      rw [htext] at hrendered
      exact absurd rfl hrendered
    | some text =>
      rw [htext, Option.bind_some] at hrendered
      cases hout : TextEdit.applyAll p.raw text es with
      | error e =>
        rw [hout] at hrendered
        exact absurd rfl hrendered
      | ok out => exact ⟨out, b, ⟨b, text, hfound, htext, hout⟩, hfinds⟩

theorem writeEdits_succeeds (plan : Plan) {p : Path} {es : List TextEdit}
    (hp : es ≠ [] → Written.Recorded t₀ snapshots (.path p) ∧ WorkspaceEdit.rendered t₀.fileAt p es ≠ none) :
    Runs (At (σ := σ) True fun m => Ready t₀ edit pending m ∧ Kept t₀ m) (writeEdits plan snapshots p es)
      (fun _ => At True fun m => Ready t₀ edit pending m ∧ Kept t₀ m) (fun _ => False) := by
  by_cases hes : es = []
  · subst hes
    exact Runs.pure _ fun _ htx => htx
  obtain ⟨hrecorded, hrendered⟩ := hp hes
  obtain ⟨out, b, hedits, hraw, hroute, hfile⟩ := exists_edits hrecorded hrendered
  refine (writeEdits_runs (E := fun _ => False) plan snapshots p es (fun m hm hnone => hnone hm.1.heedless out hedits)
    fun _ m hm hfault => ?_).conseq (fun _ h => h) ?_ fun _ h => h
  · obtain ⟨out, fault, hfault⟩ := hfault trivial
    obtain ⟨c, hc⟩ := hm.2.2 _ b hfile
    obtain ⟨t, ht⟩ := Tree.write_of_route hm.1.wellFormed hraw (fun q hq => hm.2.1 q (hroute q hq))
      (by rw [hc]; simp) (Bytes.ofText out)
    rw [ht] at hfault
    cases hfault
  · rintro _ tx ⟨⟨hnil, _⟩ | ⟨_, m, out, ⟨hready, hkept⟩, _, hlogged⟩, hcalm⟩
    · exact absurd hnil hes
    have hholds := (Tree.write_ok hready.wellFormed hlogged.tree).2
    refine ⟨⟨?_, fun q hq => ?_, fun q c hq => ?_⟩, hcalm⟩
    · rw [hlogged.moment]
      exact hready.put (Or.inl (hkept.2 _ b hfile)) hholds
    · rw [hholds.get?, if_neg]
      · exact hkept.1 q hq
      · rintro rfl
        rw [hfile] at hq
        cases hq
    · rw [hholds.get?]
      split_ifs
      · exact ⟨_, rfl⟩
      · exact hkept.2 q c hq

/-- Sources of operations differ. -/
def SourcesDiffer (ops : List FileOperation) : Prop :=
  ops.Pairwise fun op op' => ∀ a ∈ op.source?, ∀ a' ∈ op'.source?, placeOf a ≠ placeOf a'

theorem writeMove_succeeds (hedit : edit.Unhindered t₀) (hstraight : ∀ op ∈ edit.operations, ∀ p ∈ op.paths, p.Straight)
    {a b : Path} {o : Bool} (hop : .move a b o ∈ edit.operations)
    (hapart : SourcesDiffer (.move a b o :: pending)) :
    Runs (At (σ := σ) True (Ready t₀ edit (.move a b o :: pending))) (writeMove a b)
      (fun _ => At True (Ready t₀ edit pending)) (fun _ => False) := by
  obtain ⟨src, hsrc, _, rfl⟩ := hstraight _ hop a (by simp [FileOperation.paths])
  obtain ⟨dst, hdst, hne, rfl⟩ := hstraight _ hop b (by simp [FileOperation.paths])
  obtain ⟨d, s, rfl⟩ : ∃ d s, dst = d ++ [s] := ⟨_, _, (List.dropLast_append_getLast hne).symm⟩
  have htarget : (FileOperation.move (pathOf src) (pathOf (d ++ [s])) o).targetPlace? = some (d ++ [s]) :=
    congrArg some (Tree.placeOf_names hdst)
  have hfile : ∀ {m}, Ready t₀ edit (.move (pathOf src) (pathOf (d ++ [s])) o :: pending) m →
      ∃ c, m.tree.get? src = some (.file c) := by
    intro m hm
    have hc := hm.standing _ List.mem_cons_self _ rfl
    rwa [Tree.placeOf_names hsrc] at hc
  refine (writeMove_runs (E := fun _ => False) (fun m hm => hm.wellFormed) (pathOf src) hdst
    (fun m hm hclear => hclear trivial hm.heedless (hm.way hedit hop htarget).1) fun m m' hm hensured hfault => ?_).conseq
    (fun _ h => h) ?_ fun _ h => h
  · obtain ⟨fault, hfault⟩ := hfault trivial
    obtain ⟨hready, hdir⟩ := hm.ensured hedit hop htarget hensured
    obtain ⟨c, hc⟩ := hfile hready
    obtain ⟨t, ht⟩ := Tree.rename_of_parent hready.wellFormed hsrc hdst hc hdir (hready.way hedit hop htarget).2
    rw [ht] at hfault
    cases hfault
  · rintro _ tx ⟨⟨m, m₁, hm, hensured, hlogged⟩, hcalm⟩
    obtain ⟨hready, -⟩ := hm.ensured hedit hop htarget hensured
    obtain ⟨c, hc⟩ := hfile hready
    obtain ⟨_, hwellFormed, hget⟩ := Tree.rename_ok hready.wellFormed hsrc hdst hc hlogged.tree
    refine ⟨?_, hcalm⟩
    rw [hlogged.moment]
    refine hready.set hwellFormed (fun q hq => ?_) (fun q b hq => ?_) fun op' hop' a' ha' => ?_
    · rw [hget] at hq
      split_ifs at hq
      · cases hq
      · exact hq
    · rw [hget] at hq
      split_ifs at hq with heq
      · exact Or.inr ⟨_, hop, heq ▸ htarget⟩
      · exact Or.inl ⟨b, hq⟩
    · have hother := (List.pairwise_cons.mp hapart).1 op' hop' _ rfl a' ha'
      rw [Tree.placeOf_names hsrc] at hother
      rw [hget, if_neg (Ne.symm hother)]
      split_ifs
      · exact ⟨c, rfl⟩
      · exact hready.standing op' (List.mem_cons_of_mem _ hop') a' ha'

theorem writeCreate_succeeds (hedit : edit.Unhindered t₀)
    (hstraight : ∀ op ∈ edit.operations, ∀ p ∈ op.paths, p.Straight) {p : Path} {content : String} {o : Bool}
    (hop : .create p content o ∈ edit.operations) :
    Runs (At (σ := σ) True (Ready t₀ edit pending)) (writeCreate p content) (fun _ => At True (Ready t₀ edit pending))
      (fun _ => False) := by
  obtain ⟨place, hplace, hne, rfl⟩ := hstraight _ hop p (by simp [FileOperation.paths])
  obtain ⟨d, s, rfl⟩ : ∃ d s, place = d ++ [s] := ⟨_, _, (List.dropLast_append_getLast hne).symm⟩
  have htarget : (FileOperation.create (pathOf (d ++ [s])) content o).targetPlace? = some (d ++ [s]) :=
    congrArg some (Tree.placeOf_names hplace)
  refine (writeCreate_runs (E := fun _ => False) (fun m hm => hm.wellFormed) content hplace
    (fun m hm hclear => hclear trivial hm.heedless (hm.way hedit hop htarget).1) fun m m' hm hensured hfault => ?_).conseq
    (fun _ h => h) ?_ fun _ h => h
  · obtain ⟨fault, hfault⟩ := hfault trivial
    obtain ⟨hready, hdir⟩ := hm.ensured hedit hop htarget hensured
    obtain ⟨t, ht⟩ := Tree.write_of_parent hready.wellFormed hplace hdir (hready.way hedit hop htarget).2
      (Bytes.ofText content)
    rw [ht] at hfault
    cases hfault
  · rintro _ tx ⟨⟨m, m₁, hm, hensured, hlogged⟩, hcalm⟩
    obtain ⟨hready, -⟩ := hm.ensured hedit hop htarget hensured
    have hholds := (Tree.write_ok hready.wellFormed hlogged.tree).2
    rw [Tree.placeOf_names hplace] at hholds
    refine ⟨?_, hcalm⟩
    rw [hlogged.moment]
    exact hready.put (Or.inr ⟨_, hop, htarget⟩) hholds

theorem writeDelete_succeeds (hstraight : ∀ op ∈ edit.operations, ∀ p ∈ op.paths, p.Straight) {p : Path}
    (hop : .delete p ∈ edit.operations) (hapart : SourcesDiffer (.delete p :: pending)) :
    Runs (At (σ := σ) True (Ready t₀ edit (.delete p :: pending))) (writeDelete p)
      (fun _ => At True (Ready t₀ edit pending)) (fun _ => False) := by
  have hp := hstraight _ hop p (by simp [FileOperation.paths])
  refine (writeDelete_runs (E := fun _ => False) p (fun m hm hheeds => ?_) fun m hm hfault => ?_).conseq
    (fun _ h => h) ?_ fun _ h => h
  · rw [hm.heedless] at hheeds
    cases hheeds
  · obtain ⟨fault, hfault⟩ := hfault trivial
    obtain ⟨c, hc⟩ := hm.standing _ List.mem_cons_self p rfl
    obtain ⟨t, ht⟩ := Tree.removeFile_of_finds hm.wellFormed ((hp.finds_iff hm.wellFormed _).mpr hc)
    rw [ht] at hfault
    cases hfault
  · rintro _ tx ⟨⟨m, hm, hlogged⟩, hcalm⟩
    have hholds := (Tree.removeFile_ok hm.wellFormed hlogged.tree).2
    refine ⟨?_, hcalm⟩
    rw [hlogged.moment]
    refine hm.set hholds.wellFormed (fun q hq => ?_) (fun q b hq => ?_) fun op' hop' a' ha' => ?_
    · rw [hholds.get?] at hq
      split_ifs at hq
      exact hq
    · rw [hholds.get?] at hq
      split_ifs at hq
      exact Or.inl ⟨b, hq⟩
    · rw [hholds.get?, if_neg (Ne.symm ((List.pairwise_cons.mp hapart).1 op' hop' p rfl a' ha'))]
      exact hm.standing op' (List.mem_cons_of_mem _ hop') a' ha'

theorem SourcesDiffer.passes {ops : List FileOperation} (h : SourcesDiffer ops) :
    SourcesDiffer (ops.filter FileOperation.isMove ++ ops.filter FileOperation.isDelete) := by
  have : Std.Symm fun op op' : FileOperation => ∀ a ∈ op.source?, ∀ a' ∈ op'.source?, placeOf a ≠ placeOf a' :=
    ⟨fun _ _ h a ha a' ha' => (h a' ha' a ha).symm⟩
  refine List.pairwise_append.mpr ⟨h.sublist List.filter_sublist, h.sublist List.filter_sublist, fun op hop op' hop' => ?_⟩
  rw [List.mem_filter] at hop hop'
  refine List.Pairwise.forall h hop.1 hop'.1 ?_
  rintro rfl
  cases op <;> simp_all [FileOperation.isMove, FileOperation.isDelete]

/-- No change of a file fails. -/
theorem writeFiles_succeeds {plan : Plan} (h : plan.edit.Admitted t₀ (Written.Recorded t₀ snapshots))
    (ht₀ : t₀.WellFormed) (hedit : plan.edit.Unhindered t₀) (hfits : plan.edit.Fits t₀.fileAt) :
    Runs (At (σ := σ) True (· = .start t₀ false)) (writeFiles plan snapshots)
      (fun _ => At True (Ready t₀ plan.edit [])) (fun _ => False) := by
  have hapart : SourcesDiffer _ := SourcesDiffer.passes h.apart
  have hstart : Ready t₀ plan.edit [] (.start t₀ false) :=
    ⟨ht₀, rfl, fun q b hq => Or.inl ⟨b, hq⟩, fun q hq => Or.inl hq, by simp⟩
  unfold writeFiles
  refine ((Runs.forM (I := fun _ => At True fun m => Ready t₀ plan.edit [] m ∧ Kept t₀ m) _
    fun change rest hsuffix => ?_).conseq ?_ (fun _ _ h => h) fun _ h => h).bind fun _ => ?_
  · have hmem : change ∈ plan.edit.changes := hsuffix.subset List.mem_cons_self
    exact writeEdits_succeeds plan fun hes => ⟨h.edited _ _ hmem hes, hfits _ _ hmem hes⟩
  · rintro tx ⟨htx, hcalm⟩
    refine ⟨?_, hcalm⟩
    rw [htx]
    exact ⟨hstart, fun _ hq => hq, fun _ b hq => ⟨b, hq⟩⟩
  refine ((Runs.forM (I := fun ops => At True (Ready t₀ plan.edit
      (ops.filter FileOperation.isMove ++ plan.edit.operations.filter FileOperation.isDelete))) _
    fun op rest hsuffix => ?_).conseq ?_ (fun _ _ h => h) fun _ h => h).bind fun _ => ?_
  · have hmem : op ∈ plan.edit.operations := hsuffix.subset List.mem_cons_self
    cases op with
    | move a b o =>
      refine writeMove_succeeds hedit h.straight hmem (hapart.sublist ?_)
      exact (hsuffix.sublist.filter FileOperation.isMove).append (List.Sublist.refl _)
    | create p content o => exact Runs.pure _ fun _ htx => htx
    | delete p => exact Runs.pure _ fun _ htx => htx
  · rintro tx ⟨⟨hready, hkept⟩, hcalm⟩
    refine ⟨⟨hready.wellFormed, hready.heedless, hready.files, hready.dirs, fun op hop a ha => ?_⟩, hcalm⟩
    have hmem : op ∈ plan.edit.operations := by
      rcases List.mem_append.mp hop with hop | hop
      · exact List.mem_of_mem_filter hop
      · exact List.mem_of_mem_filter hop
    obtain ⟨b, hb⟩ := h.sources op hmem a ha
    exact hkept.2 _ b hb
  refine (Runs.forM (I := fun _ => At True (Ready t₀ plan.edit
      (plan.edit.operations.filter FileOperation.isDelete))) _ fun op rest hsuffix => ?_).bind fun _ => ?_
  · cases op with
    | move a b o => exact Runs.pure _ fun _ htx => htx
    | create p content o => exact writeCreate_succeeds hedit h.straight (hsuffix.subset List.mem_cons_self)
    | delete p => exact Runs.pure _ fun _ htx => htx
  refine Runs.forM (I := fun ops => At True (Ready t₀ plan.edit (ops.filter FileOperation.isDelete))) _
    fun op rest hsuffix => ?_
  cases op with
  | move a b o => exact Runs.pure _ fun _ htx => htx
  | create p content o => exact Runs.pure _ fun _ htx => htx
  | delete p =>
    refine writeDelete_succeeds h.straight (hsuffix.subset List.mem_cons_self) (hapart.sublist ?_)
    exact (hsuffix.sublist.filter FileOperation.isDelete).trans (List.sublist_append_right _ _)

/-! ## Emptied directories -/

/-- While emptied directories are removed: the destinations of sources stand, and no file stands above the counterpart of
a directory in a source. -/
structure Roomy (sources : List SourceDir) (m : Moment) : Prop where
  wellFormed : m.tree.WellFormed
  heedless : m.heeds = false
  stands : ∀ c ∈ sources, ∀ d ∈ c.destination, m.tree.get? (placeOf d) = some .dir
  room : ∀ c ∈ sources, ∀ d ∈ c.destination, ∀ names, m.tree.get? (placeOf c.path ++ names) = some .dir →
    Files.FreeAbove m.tree.fileAt (placeOf d ++ names)

namespace Roomy

variable {sources : List SourceDir} {src names : Place} {destination : Option Place} {m m' : Moment} {t : Tree}

/-- A directory of a source goes. -/
theorem without (h : Roomy sources m) (hsources : SourcesApart sources)
    (hmem : ⟨pathOf src, destination.map pathOf⟩ ∈ sources) (hsrc : ∀ s ∈ src ++ names, IsName s) (hne : src ≠ [])
    (hremove : m.tree.removeDir (pathOf (src ++ names)) = .ok t) :
    Roomy sources (m.without (pathOf (src ++ names)) t) := by
  have hplace : placeOf (pathOf src) = src := Tree.placeOf_names fun s hs => hsrc s (List.mem_append_left _ hs)
  obtain ⟨hdir, _, hholds⟩ := Tree.removeDir_ok h.wellFormed hsrc (by simp [hne]) hremove
  refine ⟨hholds.wellFormed, h.heedless, fun c hc d hd => ?_, fun c hc d hd names' hdir' => ?_⟩
  · show t.get? _ = _
    rw [hholds.get?, if_neg]
    · exact h.stands c hc d hd
    · intro heq
      have hbeside := hsources.destinations _ hmem c hc d hd
      rw [hplace, heq] at hbeside
      exact hbeside.1 (List.prefix_append _ _)
  · change t.get? _ = _ at hdir'
    rw [hholds.get?] at hdir'
    split_ifs at hdir'
    show Files.FreeAbove t.fileAt _
    rw [hholds.fileAt_of_dir hdir]
    exact h.room c hc d hd names' hdir'

/-- The counterpart of a directory that went is made. -/
theorem carried (h : Roomy sources m) (hsources : SourcesApart sources)
    (hmem : ⟨pathOf src, destination.map pathOf⟩ ∈ sources) (hdst : ∀ d ∈ destination, (∀ s ∈ d, IsName s) ∧ d ≠ [])
    (hcarried : Carried destination names m m') : Roomy sources m' := by
  cases destination with
  | none =>
    obtain rfl : m' = _ := hcarried
    exact h
  | some d =>
    have hensured : Ensured m (d ++ names) m' := hcarried
    have hcases := hensured.get?_cases h.wellFormed
    refine ⟨hensured.wellFormed h.wellFormed, hensured.heeds.trans h.heedless, fun c hc d' hd' => ?_,
      fun c hc d' hd' names' hdir' => ?_⟩
    · have hstands := h.stands c hc d' hd'
      rcases hcases (placeOf d') with heq | ⟨hnone, _⟩
      · rw [heq, hstands]
      · rw [hnone] at hstands
        cases hstands
    · rw [hensured.fileAt h.wellFormed]
      rcases hcases (placeOf c.path ++ names') with heq | ⟨_, _, hlead⟩
      · exact h.room c hc d' hd' names' (heq ▸ hdir')
      · have hbeside := hsources.destinations c hc _ hmem (pathOf d) rfl
        rw [Tree.placeOf_names (hdst d rfl).1] at hbeside
        exact absurd ((List.prefix_append _ _).trans hlead) (hbeside.symm.append names).2

end Roomy

/-- No removal of an emptied directory fails. -/
theorem removeAllEmptied_succeeds {sources : List SourceDir} (h : SourcesApart sources) :
    Runs (At (σ := σ) True (Roomy sources)) (removeAllEmptied sources) (fun _ => At True (Roomy sources))
      (fun _ => False) := by
  refine removeAllEmptied_keeps (E := fun _ => False) (fun m hm => hm.wellFormed) h.straight
    fun src destination names hmem hsrc hne hdst => ?_
  refine (removeEmptied_runs (E := fun _ => False) (fun m hm => hm.wellFormed) hsrc hne hdst
    fun m t hm hremove hfault => ?_).conseq (fun _ h => h) ?_ fun _ h => h
  · obtain ⟨d, hd, hslash, hroom⟩ := hfault
    have hplace : placeOf (pathOf d) = d := Tree.placeOf_names (hdst d hd).1
    have hdmem : pathOf d ∈ destination.map pathOf := Option.mem_map_of_mem pathOf hd
    by_cases hnil : names = []
    · refine hslash hnil ?_
      have hstands := (hm.without h hmem hsrc hne hremove).stands _ hmem _ hdmem
      rwa [hplace] at hstands
    · obtain ⟨hnone, hclear⟩ := hroom hnil
      obtain ⟨hdir, _, hholds⟩ := Tree.removeDir_ok hm.wellFormed hsrc (by simp [hne]) hremove
      have hfree := hm.room _ hmem _ hdmem names
        (by rw [Tree.placeOf_names fun s hs => hsrc s (List.mem_append_left _ hs)]; exact hdir)
      rw [hplace, ← hholds.fileAt_of_dir hdir] at hfree
      refine hclear trivial fun q b hq hfile => ?_
      by_cases heq : q = d ++ names
      · rw [heq, hnone] at hfile
        cases hfile
      · have hgone := hfree q ⟨hq, Ne.symm heq⟩
        rw [Tree.fileAt_eq_some_iff.mpr hfile] at hgone
        cases hgone
  · rintro _ tx ⟨⟨hm, _⟩ | ⟨m, t, hm, hremove, hcarried⟩, hcalm⟩
    · exact ⟨hm, hcalm⟩
    · exact ⟨(hm.without h hmem hsrc hne hremove).carried h hmem hdst hcarried, hcalm⟩

end Transaction

end Refactor
