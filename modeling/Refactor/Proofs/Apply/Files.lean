import Refactor.Proofs.Apply.Targets
import Refactor.Proofs.Edit.Substitution

/-!
# Files after the writing

The passes of the writing, one step after the other, do to the files of a tree what the operations and text edits of a
plan say.

* `Tree.rename_fileAt` — the files after a move
* `Transaction.Turns` — steps that change the files in a known way
* `Transaction.Underway` — a moment of the passes: the new directories are those above destinations
* `Transaction.writeAll_runs` — what the passes leave, whatever is then done about emptied directories
-/

set_option linter.unusedSectionVars false

namespace Refactor

open Tree (pathOf placeOf)
open Path (IsName)

/-! ## Files after moves -/

namespace Tree

variable {t t' : Tree}

theorem rename_fileAt (h : t.WellFormed) {src dst : Place} (hsrc : ∀ s ∈ src, IsName s) (hdst : ∀ s ∈ dst, IsName s)
    {b : ByteArray} (hfile : t.get? src = some (.file b)) (hrename : t.rename (pathOf src) (pathOf dst) = .ok t')
    (o : Bool) : t'.fileAt = FileOperation.effect t.fileAt (.move (pathOf src) (pathOf dst) o) := by
  have hget := (rename_ok h hsrc hdst hfile hrename).2.2
  funext q
  have hcontent : t.fileAt src = some b := fileAt_eq_some_iff.mpr hfile
  unfold FileOperation.effect
  simp only [FileOperation.targetPlace?, FileOperation.sourcePlace?, FileOperation.destination?,
    FileOperation.source?, Option.map_some, placeOf_names hsrc, placeOf_names hdst, Option.some.injEq,
    FileOperation.content?, hcontent]
  unfold fileAt
  rw [hget]
  by_cases hqd : q = dst
  · simp [hqd]
  · rw [if_neg hqd, if_neg (Ne.symm hqd)]
    by_cases hqs : q = src
    · rw [if_pos hqs, if_pos hqs.symm]
    · rw [if_neg hqs, if_neg (Ne.symm hqs)]

end Tree

namespace FileOperation

theorem effect_create (f : Files) (p : Path) (content : String) (o : Bool) :
    effect f (.create p content o) = Function.update f (placeOf p) (some (Bytes.ofText content)) := by
  funext q
  rw [Function.update_apply]
  unfold effect
  simp only [targetPlace?, sourcePlace?, destination?, source?, Option.map_some, Option.map_none, Option.some.injEq,
    reduceCtorEq, if_false, eq_comm, content?]

theorem effect_delete (f : Files) (p : Path) : effect f (.delete p) = Function.update f (placeOf p) none := by
  funext q
  rw [Function.update_apply]
  unfold effect
  simp only [targetPlace?, sourcePlace?, destination?, source?, Option.map_some, Option.map_none, Option.some.injEq,
    reduceCtorEq, if_false, eq_comm]

end FileOperation

variable {σ : Type} [TreeBacked σ]

namespace Transaction

theorem Ensured.fileAt {m m' : Moment} {place : Place} (h : m.tree.WellFormed) (hm : Ensured m place m') :
    m'.tree.fileAt = m.tree.fileAt := by
  funext q
  refine Tree.fileAt_congr fun b => ?_
  rcases hm.get?_cases h q with heq | ⟨hnone, hdir, _⟩
  · rw [heq]
  · simp [hnone, hdir]

/-! ## Steps that change files -/

variable {C : Prop} {P Q R : Moment → Prop} {g g' : Files → Files}

/-- From moments with `P`, a step that does not fail comes to ones with `Q`, and the files change as `g` says. -/
def Turns (calm : Prop) (P Q : Moment → Prop) (g : Files → Files) (f : Writing σ Unit) : Prop :=
  ∀ F, Runs (At calm fun m => P m ∧ m.tree.fileAt = F) f (fun _ => At calm fun m => Q m ∧ m.tree.fileAt = g F)
    fun _ => True

namespace Turns

theorem skip (h : ∀ m, P m → Q m) : Turns (σ := σ) C P Q id (pure ()) := fun _ =>
  Runs.pure _ fun _ htx => ⟨⟨h _ htx.1.1, htx.1.2⟩, htx.2⟩

theorem bind {f : Writing σ Unit} {e : Unit → Writing σ Unit} (hf : Turns C P Q g f)
    (he : Turns C Q R g' (e ())) : Turns C P R (g' ∘ g) (f >>= e) := fun F =>
  (hf F).bind fun _ => he (g F)

/-- A loop whose condition tells what is left to do. -/
theorem forM {α : Type} {f : α → Writing σ Unit} {k : Files → α → Files} {I : List α → Moment → Prop} :
    ∀ l₀ : List α, (∀ a l, a :: l <:+ l₀ → Turns C (I (a :: l)) (I l) (fun F => k F a) (f a)) →
    Turns C (I l₀) (I []) (fun F => l₀.foldl k F) (l₀.forM f)
  | [], _ => Turns.skip fun _ h => h
  | a :: l, hf => Turns.bind (e := fun _ => l.forM f) (hf a l List.suffix_rfl)
    (Turns.forM l fun b rest hsuffix => hf b rest (hsuffix.trans (List.suffix_cons a l)))

end Turns

/-! ## Passes -/

/-- Every directory was there before, or it is on the way to a destination. -/
def OnTheWay (t₀ : Tree) (edit : WorkspaceEdit) (t : Tree) : Prop :=
  ∀ q, t.get? q = some .dir → t₀.get? q = some .dir ∨ ∃ op ∈ edit.operations, ∃ place ∈ op.targetPlace?, q <+: place

/-- A moment of the passes: the records account for the tree, the moves to come find their sources, and every new
directory is on the way to a destination. -/
structure Underway (t₀ : Tree) (snapshots : Snapshots) (edit : WorkspaceEdit) (ops : List FileOperation) (m : Moment) :
    Prop where
  whole : Whole t₀ (Written.Recorded t₀ snapshots) m
  standing : Standing ops m
  dirs : OnTheWay t₀ edit m.tree

variable {t₀ : Tree} {snapshots : Snapshots} {edit : WorkspaceEdit} {ops : List FileOperation}

theorem OnTheWay.set {t t' : Tree} (h : OnTheWay t₀ edit t) {p : Place} {entry : Option Entry}
    (hentry : entry ≠ some .dir) (hholds : t.Holds p entry t') : OnTheWay t₀ edit t' := by
  intro q hq
  rw [hholds.get?] at hq
  split_ifs at hq
  · exact absurd hq hentry
  · exact h q hq

theorem OnTheWay.ensured {m m' : Moment} (h : OnTheWay t₀ edit m.tree) (hm : m.tree.WellFormed) {op : FileOperation}
    (hop : op ∈ edit.operations) {d : Place} {s : String} (htarget : op.targetPlace? = some (d ++ [s]))
    (hensured : Ensured m d m') : OnTheWay t₀ edit m'.tree := by
  intro q hq
  rcases hensured.get?_cases hm q with heq | ⟨_, _, hlead⟩
  · exact h q (heq ▸ hq)
  · exact Or.inr ⟨op, hop, d ++ [s], htarget, hlead.trans (List.prefix_append _ _)⟩

/-- Text edits of a file, as its snapshot tells, are those of the file before the writing. -/
theorem Edits.rendered {p : Path} {es : List TextEdit} {out : String} (h : Edits snapshots p es out)
    (hp : Written.Recorded t₀ snapshots (.path p)) :
    WorkspaceEdit.rendered t₀.fileAt p es = some (Bytes.ofText out) := by
  obtain ⟨bytes, text, hfind, htext, hout⟩ := h
  cases hp.paths p (by simp [Written.paths]) with
  | content b hfound _ hfinds =>
    rw [hfind] at hfound
    cases hfound
    unfold WorkspaceEdit.rendered
    rw [Tree.fileAt_eq_some_iff.mpr hfinds.2.2]
    simp only [Option.bind_some, htext, hout]
    rfl
  | absent hfound _ _ =>
    rw [hfind] at hfound
    cases hfound

theorem writeEdits_turns (h : edit.Admitted t₀ (Written.Recorded t₀ snapshots)) (plan : Plan) {p : Path}
    {es : List TextEdit} (hmem : (p, es) ∈ edit.changes) :
    Turns (σ := σ) C (Underway t₀ snapshots edit ops) (Underway t₀ snapshots edit ops)
      (fun F => WorkspaceEdit.editStep t₀.fileAt F (p, es)) (writeEdits plan snapshots p es) := by
  intro F
  have hwhole := writeEdits_whole (σ := σ) (C := C) h plan snapshots hmem ops
  have hruns := writeEdits_runs (σ := σ) (C := C) (E := fun _ => True)
    (P := fun m => Underway t₀ snapshots edit ops m ∧ m.tree.fileAt = F) plan snapshots p es (fun _ _ _ => trivial)
    fun _ _ _ _ => trivial
  refine ((hwhole.conseq (fun _ h => ⟨⟨h.1.1.whole, h.1.1.standing⟩, h.2⟩) (fun _ _ h => h) fun _ _ => trivial).and
    hruns).conseq (fun _ h => ⟨h, h⟩) ?_ fun _ _ => trivial
  rintro _ tx ⟨⟨⟨hwhole, hstanding⟩, _⟩, ⟨⟨rfl, hsame⟩ | ⟨hes, m, out, ⟨hunderway, hF⟩, hedits, hlogged⟩, hcalm⟩⟩
  · exact ⟨hsame, hcalm⟩
  have hholds := (Tree.write_ok hunderway.whole.1.wellFormed hlogged.tree).2
  refine ⟨⟨⟨hwhole, hstanding, hunderway.dirs.set (by simp) hholds⟩, ?_⟩, hcalm⟩
  have hempty : es.isEmpty = false := by simpa using hes
  show _ = WorkspaceEdit.editStep t₀.fileAt F (p, es)
  unfold WorkspaceEdit.editStep
  rw [hholds.fileAt_file, hF, hempty, if_neg (by simp), hedits.rendered (h.edited p es hmem hes)]

theorem writeMove_turns (h : edit.Admitted t₀ (Written.Recorded t₀ snapshots)) {a b : Path} {o : Bool}
    (hsuffix : .move a b o :: ops <:+ edit.operations) :
    Turns (σ := σ) C (Underway t₀ snapshots edit (.move a b o :: ops)) (Underway t₀ snapshots edit ops)
      (fun F => FileOperation.effect F (.move a b o)) (writeMove a b) := by
  intro F
  have hmem : .move a b o ∈ edit.operations := hsuffix.subset (by simp)
  have hwhole := writeMove_whole (σ := σ) (C := C) h hsuffix
  obtain ⟨src, hsrc, _, rfl⟩ := h.straight _ hmem a (by simp [FileOperation.paths])
  obtain ⟨dst, hdst, hne, rfl⟩ := h.straight _ hmem b (by simp [FileOperation.paths])
  obtain ⟨d, s, rfl⟩ : ∃ d s, dst = d ++ [s] := ⟨_, _, (List.dropLast_append_getLast hne).symm⟩
  have hd : ∀ n ∈ d, IsName n := fun n hn => hdst n (List.mem_append_left _ hn)
  have hruns := writeMove_runs (σ := σ) (C := C) (E := fun _ => True)
    (P := fun m => Underway t₀ snapshots edit (.move (pathOf src) (pathOf (d ++ [s])) o :: ops) m ∧ m.tree.fileAt = F)
    (fun m hm => hm.1.whole.1.wellFormed) (pathOf src) hdst (fun _ _ _ => trivial) fun _ _ _ _ _ => trivial
  refine ((hwhole.conseq (fun _ h => ⟨⟨h.1.1.whole, h.1.1.standing⟩, h.2⟩) (fun _ _ h => h) fun _ _ => trivial).and
    hruns).conseq (fun _ h => ⟨h, h⟩) ?_ fun _ _ => trivial
  rintro _ tx ⟨⟨⟨hwhole, hstanding⟩, _⟩, ⟨⟨m, m₁, ⟨hunderway, hF⟩, hensured, hlogged⟩, hcalm⟩⟩
  have hwhole₁ := hunderway.whole.ensured hd hensured
  obtain ⟨c, hc⟩ := hunderway.standing _ _ _ List.mem_cons_self
  rw [Tree.placeOf_names hsrc] at hc
  have hfile := hensured.file hunderway.whole.1.wellFormed hc
  obtain ⟨_, _, hget⟩ := Tree.rename_ok hwhole₁.1.wellFormed hsrc hdst hfile hlogged.tree
  have htarget : (FileOperation.move (pathOf src) (pathOf (d ++ [s])) o).targetPlace? = some (d ++ [s]) := by
    simp [FileOperation.targetPlace?, FileOperation.destination?, Tree.placeOf_names hdst]
  have hdirs := hunderway.dirs.ensured hunderway.whole.1.wellFormed hmem htarget hensured
  refine ⟨⟨⟨hwhole, hstanding, fun q hq => ?_⟩, ?_⟩, hcalm⟩
  · rw [hget] at hq
    split_ifs at hq
    · cases hq
    · exact hdirs q hq
  · rw [Tree.rename_fileAt hwhole₁.1.wellFormed hsrc hdst hfile hlogged.tree o,
      hensured.fileAt hunderway.whole.1.wellFormed, hF]

theorem writeCreate_turns (h : edit.Admitted t₀ (Written.Recorded t₀ snapshots)) {p : Path} {content : String} {o : Bool}
    (hmem : .create p content o ∈ edit.operations) :
    Turns (σ := σ) C (Underway t₀ snapshots edit []) (Underway t₀ snapshots edit [])
      (fun F => FileOperation.effect F (.create p content o)) (writeCreate p content) := by
  intro F
  have hwhole := writeCreate_whole (σ := σ) (C := C) h hmem
  obtain ⟨place, hplace, hne, rfl⟩ := h.straight _ hmem p (by simp [FileOperation.paths])
  obtain ⟨d, s, rfl⟩ : ∃ d s, place = d ++ [s] := ⟨_, _, (List.dropLast_append_getLast hne).symm⟩
  have hd : ∀ n ∈ d, IsName n := fun n hn => hplace n (List.mem_append_left _ hn)
  have hruns := writeCreate_runs (σ := σ) (C := C) (E := fun _ => True)
    (P := fun m => Underway t₀ snapshots edit [] m ∧ m.tree.fileAt = F)
    (fun m hm => hm.1.whole.1.wellFormed) content hplace (fun _ _ _ => trivial) fun _ _ _ _ _ => trivial
  refine ((hwhole.conseq (fun _ h => ⟨h.1.1.whole, h.2⟩) (fun _ _ h => h) fun _ _ => trivial).and
    hruns).conseq (fun _ h => ⟨h, h⟩) ?_ fun _ _ => trivial
  rintro _ tx ⟨⟨hwhole, _⟩, ⟨⟨m, m₁, ⟨hunderway, hF⟩, hensured, hlogged⟩, hcalm⟩⟩
  have hholds := (Tree.write_ok (hunderway.whole.ensured hd hensured).1.wellFormed hlogged.tree).2
  have htarget : (FileOperation.create (pathOf (d ++ [s])) content o).targetPlace? = some (d ++ [s]) := by
    simp [FileOperation.targetPlace?, FileOperation.destination?, Tree.placeOf_names hplace]
  have hdirs := hunderway.dirs.ensured hunderway.whole.1.wellFormed hmem htarget hensured
  refine ⟨⟨⟨hwhole, by simp [Standing], hdirs.set (by simp) hholds⟩, ?_⟩, hcalm⟩
  show _ = FileOperation.effect F _
  rw [hholds.fileAt_file, hensured.fileAt hunderway.whole.1.wellFormed, hF, FileOperation.effect_create]

theorem writeDelete_turns (h : edit.Admitted t₀ (Written.Recorded t₀ snapshots)) {p : Path}
    (hmem : .delete p ∈ edit.operations) :
    Turns (σ := σ) C (Underway t₀ snapshots edit []) (Underway t₀ snapshots edit [])
      (fun F => FileOperation.effect F (.delete p)) (writeDelete p) := by
  intro F
  have hwhole := writeDelete_whole (σ := σ) (C := C) h hmem
  have hruns := writeDelete_runs (σ := σ) (C := C) (E := fun _ => True)
    (P := fun m => Underway t₀ snapshots edit [] m ∧ m.tree.fileAt = F) p (fun _ _ _ => trivial) fun _ _ _ => trivial
  refine ((hwhole.conseq (fun _ h => ⟨h.1.1.whole, h.2⟩) (fun _ _ h => h) fun _ _ => trivial).and
    hruns).conseq (fun _ h => ⟨h, h⟩) ?_ fun _ _ => trivial
  rintro _ tx ⟨⟨hwhole, _⟩, ⟨⟨m, ⟨hunderway, hF⟩, hlogged⟩, hcalm⟩⟩
  have hholds := (Tree.removeFile_ok hunderway.whole.1.wellFormed hlogged.tree).2
  refine ⟨⟨⟨hwhole, by simp [Standing], hunderway.dirs.set (by simp) hholds⟩, ?_⟩, hcalm⟩
  show _ = FileOperation.effect F _
  rw [hholds.fileAt_none, hF, FileOperation.effect_delete]

/-! ## All passes -/

/-- One operation in the pass of its sort. -/
def pass (sort : FileOperation → Bool) (F : Files) (op : FileOperation) : Files :=
  if sort op then FileOperation.effect F op else F

/-- The files after all passes over those of before. -/
def filesAfter (edit : WorkspaceEdit) (F : Files) : Files :=
  (FileOperation.passes edit.operations).foldl FileOperation.effect (edit.changes.foldl (WorkspaceEdit.editStep F) F)

/-- The changes of files in a writing, pass after pass. -/
def writeFiles (plan : Plan) (snapshots : Snapshots) : Writing σ Unit := do
  plan.edit.changes.forM fun (path, edits) => writeEdits plan snapshots path edits
  plan.edit.operations.forM fun
    | .move a b _ => writeMove a b
    | _ => pure ()
  plan.edit.operations.forM fun
    | .create p content _ => writeCreate p content
    | _ => pure ()
  plan.edit.operations.forM fun
    | .delete p => writeDelete p
    | _ => pure ()

theorem writeAll_eq (plan : Plan) (snapshots : Snapshots) (sources : List SourceDir) :
    writeAll (σ := σ) plan snapshots sources = (do
      writeFiles plan snapshots
      removeAllEmptied sources
      heedCancel) := by
  unfold writeAll writeFiles
  refine ((bind_assoc _ _ _).trans (bind_congr fun _ => ?_)).symm
  refine (bind_assoc _ _ _).trans (bind_congr fun _ => ?_)
  exact bind_assoc _ _ _

/-- The passes do to the files what they say. -/
theorem writeFiles_runs {plan : Plan} (h : plan.edit.Admitted t₀ (Written.Recorded t₀ snapshots)) (ht₀ : t₀.WellFormed)
    (heeds : Bool) : Runs (At (σ := σ) C (· = .start t₀ heeds)) (writeFiles plan snapshots)
      (fun _ => At C fun m => Underway t₀ snapshots plan.edit [] m ∧ m.tree.fileAt = filesAfter plan.edit t₀.fileAt)
      fun _ => True := by
  have hskip : ∀ {op : FileOperation} {rest : List FileOperation} (m : Moment),
      Underway t₀ snapshots plan.edit (op :: rest) m → Underway t₀ snapshots plan.edit rest m := fun m hm =>
    ⟨hm.whole, fun a b o hab => hm.standing a b o (List.mem_cons_of_mem _ hab), hm.dirs⟩
  have hstart : Underway t₀ snapshots plan.edit plan.edit.operations (.start t₀ heeds) :=
    ⟨Whole.start ht₀ heeds, fun a b o hab => h.sources _ hab a rfl, fun q hq => Or.inl hq⟩
  have hedits := Turns.forM (σ := σ) (C := C) (k := WorkspaceEdit.editStep t₀.fileAt)
    (I := fun _ => Underway t₀ snapshots plan.edit plan.edit.operations) plan.edit.changes fun change rest hsuffix =>
    writeEdits_turns h plan (hsuffix.subset List.mem_cons_self)
  unfold writeFiles
  refine ((hedits t₀.fileAt).conseq (fun tx htx => ⟨?_, htx.2⟩) (fun _ _ h => h) fun _ h => h).bind fun _ => ?_
  · rw [htx.1]
    exact ⟨hstart, rfl⟩
  refine (Turns.forM (k := pass FileOperation.isMove) (I := Underway t₀ snapshots plan.edit) _
    (fun op rest hsuffix => ?_) _).bind fun _ => ?_
  · cases op with
    | move a b o => exact writeMove_turns h hsuffix
    | create p content o => exact Turns.skip hskip
    | delete p => exact Turns.skip hskip
  refine (Turns.forM (k := pass FileOperation.isCreate) (I := fun _ => Underway t₀ snapshots plan.edit []) _
    (fun op rest hsuffix => ?_) _).bind fun _ => ?_
  · cases op with
    | move a b o => exact Turns.skip fun _ hm => hm
    | create p content o => exact writeCreate_turns h (hsuffix.subset List.mem_cons_self)
    | delete p => exact Turns.skip fun _ hm => hm
  refine (Turns.forM (k := pass FileOperation.isDelete) (I := fun _ => Underway t₀ snapshots plan.edit []) _
    (fun op rest hsuffix => ?_) _).conseq (fun _ h => h) (fun _ tx htx => ⟨⟨htx.1.1, htx.1.2.trans ?_⟩, htx.2⟩)
    fun _ h => h
  · cases op with
    | move a b o => exact Turns.skip fun _ hm => hm
    | create p content o => exact Turns.skip fun _ hm => hm
    | delete p => exact writeDelete_turns h (hsuffix.subset List.mem_cons_self)
  · simp only [filesAfter, FileOperation.passes, List.foldl_append, List.foldl_filter]
    rfl

/-- The writing does what the passes say to the files, and goes on to the emptied directories. -/
theorem writeAll_runs {plan : Plan} (h : plan.edit.Admitted t₀ (Written.Recorded t₀ snapshots)) (ht₀ : t₀.WellFormed)
    {sources : List SourceDir}
    (hsweep : Runs (At (σ := σ) C fun m => Underway t₀ snapshots plan.edit [] m ∧
      m.tree.fileAt = filesAfter plan.edit t₀.fileAt) (removeAllEmptied sources) (fun _ => At C Q) fun _ => True)
    (heeds : Bool) : Runs (At (σ := σ) C (· = .start t₀ heeds)) (writeAll plan snapshots sources) (fun _ => At C Q)
      fun _ => True := by
  rw [writeAll_eq]
  exact (writeFiles_runs h ht₀ heeds).bind fun _ => hsweep.bind fun _ => heedCancel_runs fun _ _ _ => trivial

end Transaction

end Refactor
