import Refactor.Proofs.Apply.Traced

/-!
# What putting back settles

However many calls fail, putting back settles every path of a plan: its file is as before, or a failure tells of it, or
the file was moved there and a failure tells of its source, which could not be put back.

* `Transaction.Attempt` — what an attempt at one path changes
* `Transaction.Settled` — a path is back, or a failure tells of it
* `Transaction.restorePath_settles`, `Transaction.restoreSource_settles` — one path
* `Transaction.Settling` — how far undoing has got, with its steps for a path, for the source and for the target of a move
* `Transaction.undo_settles`, `Transaction.putBack_settles` — all paths
-/

set_option linter.unusedSectionVars false

namespace Refactor

open Tree (pathOf placeOf)
open FileSystem (Looks)

def SnapshotState.bytes : SnapshotState → Option ByteArray
  | .content b => some b
  | .absent => none

theorem SnapshotState.Of.bytes_eq {t : Tree} {p : Path} {state : SnapshotState} (h : state.Of t p) :
    state.bytes = t.content? p := by
  unfold Tree.content?
  cases state with
  | content b =>
    have hread : t.read p = .ok b := h
    rw [hread]
    rfl
  | absent =>
    have hread : t.read p = .error .notFound := h
    rw [hread]
    rfl

/-- The record of a path has the bytes of the file that was there. -/
def Snapshots.Know (s : Snapshots) (t₀ : Tree) (p : Path) : Prop :=
  ∃ state, s.find? p = some state ∧ state.bytes = t₀.fileAt (placeOf p)

def WorkspaceEdit.Touches (edit : WorkspaceEdit) (p : Path) : Prop := ∃ c ∈ edit.writes, p ∈ c.paths

variable {σ : Type} [Fallible σ] {α : Type}

namespace Transaction

/-! ## Attempts -/

/-- After an attempt at a path, files differ at its place only, and no failure is forgotten. -/
structure Attempt (tx : Transaction σ) (p : Path) (tx' : Transaction σ) : Prop where
  wellFormed : tx'.tree.WellFormed
  files : ∀ q, q ≠ placeOf p → tx'.tree.fileAt q = tx.tree.fileAt q
  failures : tx.result.restoreFailures ⊆ tx'.result.restoreFailures

variable {tx tx' tx'' : Transaction σ} {p : Path}

theorem Attempt.start (h : tx.tree.WellFormed) (p : Path) : Attempt tx p tx := ⟨h, fun _ _ => rfl, fun _ h => h⟩

theorem Attempt.trans (h : Attempt tx p tx') (h' : Attempt tx' p tx'') : Attempt tx p tx'' :=
  ⟨h'.wellFormed, fun q hq => (h'.files q hq).trans (h.files q hq), fun _ hf => h'.failures (h.failures hf)⟩

theorem Idle.attempt (h : Idle tx tx') (hwf : tx.tree.WellFormed) (p : Path) : Attempt tx p tx' :=
  ⟨(h.files hwf).1, fun q _ => congrFun (h.files hwf).2 q, by rw [h.failures]; exact fun _ hf => hf⟩

theorem idle_ends {m : StateM (Transaction σ) α} (h : Relates Idle m) (tx : Transaction σ) (p : Path) :
    Ends (Attempt tx p) m (fun _ => Attempt tx p) := fun tx' htx' => htx'.trans ((h tx').attempt htx'.wellFormed p)

/-- A call that is tried: it is done, or it fails and leaves all files as they are. -/
theorem ask_ends_of_tries {f : StateM σ (Except DiskError Unit)} {change : Tree → Except SystemFault Tree}
    (hf : ∀ s, Tries Fallible.tree change s (f.run s)) {P : Transaction σ → Prop}
    {Q : Except DiskError Unit → Transaction σ → Prop}
    (hdone : ∀ tx s, P tx → change tx.tree = .ok (Fallible.tree s) → Q (.ok ()) { tx with disk := s })
    (hfailed : ∀ tx e s, P tx → (f.run tx.disk).1 = .error e →
      (tx.tree.WellFormed → (Fallible.tree s).WellFormed) → (Fallible.tree s).fileAt = tx.tree.fileAt →
      Q (.error e) { tx with disk := s }) : Ends P (ask f) Q := by
  intro tx htx
  have htries := hf tx.disk
  show Q (f.run tx.disk).1 { tx with disk := (f.run tx.disk).2 }
  cases hout : f.run tx.disk with
  | mk r s =>
    rw [hout] at htries
    cases htries with
    | done _ htree => exact hdone tx s htx htree
    | failed e _ hkeeps hfiles => exact hfailed tx e s htx (by rw [hout]) hkeeps hfiles

/-- A file is put at a path, or nothing changes. -/
theorem write_ends (tx : Transaction σ) (p : Path) (b : ByteArray) :
    Ends (Attempt tx p) (ask (FileSystem.write p b)) (fun r tx' => Attempt tx p tx' ∧
      (r = .ok () → tx'.tree.fileAt (placeOf p) = some b)) := by
  refine ask_ends_of_tries (Fallible.write_tries p b) (fun tx' s h hwrite => ?_) fun tx' e s h _ hkeeps hfiles => ?_
  · obtain ⟨_, hholds⟩ := Tree.write_ok h.wellFormed hwrite
    refine ⟨h.trans ⟨hholds.wellFormed, fun q hq => hholds.fileAt_of_ne hq, fun _ h => h⟩, fun _ => ?_⟩
    show (Fallible.tree s).fileAt (placeOf p) = some b
    rw [hholds.fileAt_file, Function.update_self]
  · exact ⟨h.trans ⟨hkeeps h.wellFormed, fun q _ => congrFun hfiles q, fun _ h => h⟩, fun hok => by cases hok⟩

/-- A file is taken from a path, or nothing changes; when nothing is found, no file is there. -/
theorem removeFile_ends (tx : Transaction σ) (hp : p.Straight) :
    Ends (Attempt tx p) (ask (FileSystem.removeFile p)) (fun r tx' => Attempt tx p tx' ∧
      ((∀ e, r = .error e → e.isNotFound = true) → tx'.tree.fileAt (placeOf p) = none)) := by
  refine ask_ends_of_tries (Fallible.removeFile_tries p) (fun tx' s h hremove => ?_)
    fun tx' e s h herror hkeeps hfiles => ?_
  · obtain ⟨_, hholds⟩ := Tree.removeFile_ok h.wellFormed hremove
    refine ⟨h.trans ⟨hholds.wellFormed, fun q hq => hholds.fileAt_of_ne hq, fun _ h => h⟩, fun _ => ?_⟩
    show (Fallible.tree s).fileAt (placeOf p) = none
    rw [hholds.fileAt_none, Function.update_self]
  · refine ⟨h.trans ⟨hkeeps h.wellFormed, fun q _ => congrFun hfiles q, fun _ h => h⟩, fun hnotFound => ?_⟩
    have hmissing := Fallible.removeFile_missing p tx'.disk e herror (hnotFound e rfl)
    show (Fallible.tree s).fileAt (placeOf p) = none
    rw [hfiles]
    refine Tree.fileAt_eq_none fun b hfile => ?_
    obtain ⟨t, ht⟩ := Tree.removeFile_of_finds h.wellFormed ((hp.finds_iff h.wellFormed _).mpr hfile)
    cases ht.symm.trans hmissing

/-- A path is put back, or this fails and is said to fail. -/
theorem restore_settles (tx : Transaction σ) (hp : p.Straight) (state : SnapshotState) :
    Ends (Attempt tx p) (restore p state) (fun r tx' => Attempt tx p tx' ∧
      (r = .ok () → tx'.tree.fileAt (placeOf p) = state.bytes)) := by
  unfold restore
  cases state with
  | content b =>
    dsimp only
    split
    · refine (idle_ends (makeDirs_idle _) tx p).bind fun made => ?_
      cases made with
      | ok _ => exact write_ends tx p b
      | error e => exact Ends.pure _ fun _ h => ⟨h, fun hok => by cases hok⟩
    · exact write_ends tx p b
  | absent =>
    refine (removeFile_ends tx hp).bind fun r => ?_
    cases r with
    | ok _ => exact Ends.pure _ fun _ h => ⟨h.1, fun _ => h.2 fun _ herror => by cases herror⟩
    | error e =>
      refine Ends.pure _ fun _ h => ⟨h.1, fun hok => h.2 fun e' heq => ?_⟩
      cases heq
      by_contra hfound
      rw [if_neg hfound] at hok
      cases hok

/-! ## Failures -/

/-- Noting a failure reads the path and adds to the failures; nothing else changes. -/
theorem notRestored_reports (hwf : tx.tree.WellFormed) (p : Path) (state : SnapshotState) (e : DiskError)
    (kept : Option Path) :
    Attempt tx p ((notRestored p state e kept).run tx).2 ∧ ((notRestored p state e kept).run tx).2.tree = tx.tree ∧
      ∃ f ∈ ((notRestored p state e kept).run tx).2.result.restoreFailures, f.path = p ∧
        f.priorContent = state.bytes ∧ f.preservedAt = kept := by
  have htree : ((notRestored p state e kept).run tx).2.tree = tx.tree :=
    Fallible.looks (FileSystem.read_looks p tx.disk)
  refine ⟨⟨htree ▸ hwf, fun q _ => by rw [htree], List.subset_append_left _ _⟩, htree, _,
    List.mem_append_right _ (List.mem_singleton.mpr rfl), rfl, ?_, rfl⟩
  cases state <;> rfl

variable (edit : WorkspaceEdit) (t₀ : Tree)

/-- A failure tells of a path and has the bytes of the file that was there. -/
def Reported (tx : Transaction σ) (p : Path) : Prop :=
  ∃ f ∈ tx.result.restoreFailures, f.path = p ∧ f.priorContent = t₀.fileAt (placeOf p)

/-- A path is the target of a move, and a failure tells of the source; it names the path when a file is there, unless the
file system did not say so. -/
def LeftAt (tx : Transaction σ) (p : Path) : Prop :=
  ∃ source overwrite, .move source p overwrite ∈ edit.operations ∧ ∃ f ∈ tx.result.restoreFailures, f.path = source ∧
    f.priorContent = t₀.fileAt (placeOf source) ∧
    (Fallible.Candid σ p → (tx.tree.fileAt (placeOf p)).isSome = true → f.preservedAt = some p)

/-- The file at a path is as before, or a failure tells of it, or it was moved there and a failure tells of its source. -/
def Settled (tx : Transaction σ) (p : Path) : Prop :=
  tx.tree.fileAt (placeOf p) = t₀.fileAt (placeOf p) ∨ Reported t₀ tx p ∨ LeftAt edit t₀ tx p

variable {edit t₀}

theorem Settled.mono (h : Settled edit t₀ tx p) (hfile : tx'.tree.fileAt (placeOf p) = tx.tree.fileAt (placeOf p))
    (hfailures : tx.result.restoreFailures ⊆ tx'.result.restoreFailures) : Settled edit t₀ tx' p := by
  obtain hback | ⟨f, hf, hreports⟩ | ⟨source, o, hmove, f, hf, hpath, hprior, hpreserved⟩ := h
  · exact Or.inl (hfile.trans hback)
  · exact Or.inr (Or.inl ⟨f, hfailures hf, hreports⟩)
  · exact Or.inr (Or.inr ⟨source, o, hmove, f, hfailures hf, hpath, hprior, hfile ▸ hpreserved⟩)

theorem Idle.settled (h : Idle tx tx') (hwf : tx.tree.WellFormed) (hp : Settled edit t₀ tx p) :
    Settled edit t₀ tx' p :=
  hp.mono (congrFun (h.files hwf).2 _) (by rw [h.failures]; exact fun _ hf => hf)

variable {snapshots : Snapshots}

/-- An attempt at a path settles it. -/
theorem restorePath_settles (tx : Transaction σ) (hp : p.Straight) (hknow : snapshots.Know t₀ p) :
    Ends (Attempt tx p) (restorePath snapshots p) (fun _ tx' => Attempt tx p tx' ∧ Settled edit t₀ tx' p) := by
  obtain ⟨state, hfind, hbytes⟩ := hknow
  unfold restorePath
  rw [hfind]
  refine (restore_settles tx hp state).bind fun r => ?_
  cases r with
  | ok _ => exact fun tx' h => ⟨⟨h.1.wellFormed, h.1.files, h.1.failures⟩, Or.inl ((h.2 rfl).trans hbytes)⟩
  | error e =>
    rintro tx' ⟨h, _⟩
    obtain ⟨hattempt, _, f, hf, hpath, hprior, _⟩ := notRestored_reports h.wellFormed p state e none
    exact ⟨h.trans hattempt, Or.inr (Or.inl ⟨f, hf, hpath, hprior.trans hbytes⟩)⟩

/-- An attempt at the source of a move settles it, and when the target has to stay for it, the target as well. -/
theorem restoreSource_settles (tx : Transaction σ) {a b : Path} {o : Bool} (ha : a.Straight) (hb : b.Straight)
    (hmove : .move a b o ∈ edit.operations) (hknow : snapshots.Know t₀ a) :
    Ends (Attempt tx a) (restoreSource snapshots a b) (fun kept tx' => Attempt tx a tx' ∧ Settled edit t₀ tx' a ∧
      (kept = false → Settled edit t₀ tx' b)) := by
  obtain ⟨state, hfind, hbytes⟩ := hknow
  unfold restoreSource
  rw [hfind]
  refine (restore_settles tx ha state).bind fun r => ?_
  cases r with
  | ok _ =>
    exact fun tx' h => ⟨⟨h.1.wellFormed, h.1.files, h.1.failures⟩, Or.inl ((h.2 rfl).trans hbytes), fun h => by cases h⟩
  | error e =>
    refine Ends.bind (Q := fun there tx' => Attempt tx a tx' ∧ (Fallible.Candid σ b → there = tx'.tree.exists? b)) ?_
      fun there => ?_
    · rintro tx' ⟨h, _⟩
      have htree : ((ask (FileSystem.exists? b)).run tx').2.tree = tx'.tree :=
        Fallible.looks (FileSystem.exists?_looks b tx'.disk)
      refine ⟨h.trans ((look_idle (FileSystem.exists?_looks b) tx').attempt h.wellFormed a), fun hcandid => ?_⟩
      rw [htree]
      exact hcandid tx'.disk
    refine Ends.bind (Q := fun _ tx' => Attempt tx a tx' ∧ Settled edit t₀ tx' a ∧ Settled edit t₀ tx' b) ?_
      fun _ => Ends.pure _ fun _ h => ⟨h.1, h.2.1, fun _ => h.2.2⟩
    rintro tx' ⟨h, hthere⟩
    obtain ⟨hattempt, htree, f, hf, hpath, hprior, hpreserved⟩ :=
      notRestored_reports h.wellFormed a state e (if there then some b else none)
    refine ⟨h.trans hattempt, Or.inr (Or.inl ⟨f, hf, hpath, hprior.trans hbytes⟩),
      Or.inr (Or.inr ⟨a, o, hmove, f, hf, hpath, hprior.trans hbytes, fun hcandid hfile => ?_⟩)⟩
    rw [htree] at hfile
    obtain ⟨c, hc⟩ := Option.isSome_iff_exists.mp hfile
    have hexists : tx'.tree.exists? b = true := (Tree.exists?_iff h.wellFormed b).mpr
      ⟨_, (hb.finds_iff h.wellFormed _).mpr (Tree.fileAt_eq_some_iff.mp hc)⟩
    rw [hpreserved, hthere hcandid, hexists, if_pos rfl]

/-! ## All paths -/

/-- Undoing has got to where `left` is left of the log and `seen` was attempted: what is not left, or was attempted, is
settled. -/
structure Settling (edit : WorkspaceEdit) (t₀ : Tree) (left : List Written) (seen : List Path) (tx : Transaction σ) :
    Prop where
  wellFormed : tx.tree.WellFormed
  writes : ∀ c ∈ left, c ∈ edit.writes
  straight : ∀ p ∈ seen, p.Straight
  settled : ∀ p, edit.Touches p → (∀ c ∈ left, p ∉ c.paths) ∨ p ∈ seen → Settled edit t₀ tx p

namespace Settling

variable {left : List Written} {seen : List Path}

theorem attempted (h : Settling edit t₀ left seen tx) (hstraight : edit.Straight) (hp : p.Straight)
    (hattempt : Attempt tx p tx') (hsettled : Settled edit t₀ tx' p) : Settling edit t₀ left (p :: seen) tx' := by
  refine ⟨hattempt.wellFormed, h.writes, List.forall_mem_cons.mpr ⟨hp, h.straight⟩, fun q ⟨c, hc, hq⟩ hcase => ?_⟩
  by_cases hqp : q = p
  · rw [hqp]
    exact hsettled
  have hother : placeOf q ≠ placeOf p := fun heq => hqp ((hstraight.paths hc hq).eq_of_placeOf hp heq)
  refine (h.settled q ⟨c, hc, hq⟩ (hcase.imp_right fun hmem => ?_)).mono (hattempt.files _ hother) hattempt.failures
  exact (List.mem_cons.mp hmem).resolve_left hqp

theorem again (h : Settling edit t₀ left seen tx) (hp : p.Straight) (hsettled : edit.Touches p → Settled edit t₀ tx p) :
    Settling edit t₀ left (p :: seen) tx := by
  refine ⟨h.wellFormed, h.writes, List.forall_mem_cons.mpr ⟨hp, h.straight⟩, fun q hq hcase => ?_⟩
  by_cases hqp : q = p
  · rw [hqp] at hq ⊢
    exact hsettled hq
  · exact h.settled q hq (hcase.imp_right fun hmem => (List.mem_cons.mp hmem).resolve_left hqp)

theorem seen_again (h : Settling edit t₀ left seen tx) (hp : p.Straight) (hseen : seen.contains p = true) :
    Settling edit t₀ left (p :: seen) tx := by
  obtain ⟨q, hq, hpq⟩ := List.contains_iff_exists_mem_beq.mp hseen
  obtain rfl := (hp.beq_iff (h.straight q hq)).mp hpq
  exact h.again hp fun htouches => h.settled p htouches (Or.inr hq)

theorem next {c : Written} (h : Settling edit t₀ (c :: left) seen tx) (hc : ∀ p ∈ c.paths, p ∈ seen) :
    Settling edit t₀ left seen tx := by
  refine ⟨h.wellFormed, fun c hc => h.writes c (List.mem_cons_of_mem _ hc), h.straight,
    fun q hq hcase => h.settled q hq ?_⟩
  by_cases hmem : q ∈ c.paths
  · exact Or.inr (hc q hmem)
  · refine hcase.imp_left fun hleft c' hc' => ?_
    rcases List.mem_cons.mp hc' with rfl | hc'
    · exact hmem
    · exact hleft c' hc'

end Settling

section Steps

variable {left : List Written} {seen : List Path}

/-- The step for a path: it is attempted unless it was attempted before. -/
theorem unlessSeen_settling (hstraight : edit.Straight) (hp : p.Straight) (hknow : snapshots.Know t₀ p) :
    Ends (Settling (σ := σ) edit t₀ left seen) (if seen.contains p then pure () else restorePath snapshots p)
      (fun _ => Settling edit t₀ left (p :: seen)) := by
  cases hcontains : seen.contains p with
  | true => exact Ends.pure _ fun _ h => h.seen_again hp hcontains
  | false =>
    intro tx h
    obtain ⟨hattempt, hsettled⟩ := restorePath_settles tx hp hknow tx (.start h.wellFormed p)
    exact h.attempted hstraight hp hattempt hsettled

/-- The step for the source of a move. When the target has to stay for it, the target is settled as well. -/
theorem source_settling (hstraight : edit.Straight) {a b : Path} {o : Bool} (hmove : .move a b o ∈ edit.operations)
    (ha : a.Straight) (hb : b.Straight) (hknow : snapshots.Know t₀ a) :
    Ends (Settling (σ := σ) edit t₀ left seen) (if seen.contains a then pure true else restoreSource snapshots a b)
      (fun kept tx => Settling edit t₀ left (a :: seen) tx ∧ (kept = false → Settled edit t₀ tx b)) := by
  cases hcontains : seen.contains a with
  | true => exact Ends.pure _ fun _ h => ⟨h.seen_again ha hcontains, fun h => by cases h⟩
  | false =>
    intro tx h
    obtain ⟨hattempt, hsource, htarget⟩ := restoreSource_settles tx ha hb hmove hknow tx (.start h.wellFormed a)
    exact ⟨h.attempted hstraight ha hattempt hsource, htarget⟩

/-- The step for the target of a move: it is attempted unless it has to stay or was attempted before. -/
theorem target_settling (hstraight : edit.Straight) {b : Path} (hb : b.Straight) (hknow : snapshots.Know t₀ b)
    (kept : Bool) :
    Ends (fun tx : Transaction σ => Settling edit t₀ left seen tx ∧ (kept = false → Settled edit t₀ tx b))
      (if kept && !seen.contains b then restorePath snapshots b else pure ())
      (fun _ => Settling edit t₀ left (b :: seen)) := by
  cases kept with
  | false => exact Ends.pure _ fun _ h => h.1.again hb fun _ => h.2 rfl
  | true =>
    have hunless : Ends (Settling (σ := σ) edit t₀ left seen) _ _ := unlessSeen_settling hstraight hb hknow
    cases hcontains : seen.contains b with
    | true =>
      rw [hcontains] at hunless
      exact hunless.conseq (fun _ h => h.1) fun _ _ h => h
    | false =>
      rw [hcontains] at hunless
      exact hunless.conseq (fun _ h => h.1) fun _ _ h => h

end Steps

/-- Undoing a part of the changes settles all their paths. -/
theorem undo_settles (hstraight : edit.Straight) (hknow : ∀ p, edit.Touches p → snapshots.Know t₀ p)
    (log : List Written) (seen : List Path) :
    Ends (Settling (σ := σ) edit t₀ log seen) (undo snapshots log seen)
      (fun _ tx => ∃ seen, Settling edit t₀ [] seen tx) := by
  refine undo_keeps ?_ ?_ log seen
  · intro p rest seen tx h
    have hmem := h.writes (.path p) List.mem_cons_self
    have hp : p.Straight := hstraight.paths hmem (List.mem_singleton.mpr rfl)
    have hknown := hknow p ⟨_, hmem, List.mem_singleton.mpr rfl⟩
    refine (unlessSeen_settling hstraight hp hknown tx h).next fun q hq => ?_
    rw [List.mem_singleton.mp hq]
    exact List.mem_cons_self
  · intro a b rest seen tx h
    have hmem := h.writes (.move a b) List.mem_cons_self
    obtain ⟨o, hmove⟩ := WorkspaceEdit.move_mem_writes.mp hmem
    have hpath : ∀ p ∈ Written.paths (.move a b), p.Straight ∧ snapshots.Know t₀ p :=
      fun p hp => ⟨hstraight.paths hmem hp, hknow p ⟨_, hmem, hp⟩⟩
    obtain ⟨ha, hknowa⟩ := hpath a (by simp [Written.paths])
    obtain ⟨hb, hknowb⟩ := hpath b (by simp [Written.paths])
    have hsource := source_settling hstraight hmove ha hb hknowa tx h
    refine (target_settling hstraight hb hknowb _ _ hsource).next fun q hq => ?_
    simp only [Written.paths, List.mem_cons, List.not_mem_nil, or_false] at hq ⊢
    tauto

/-! ## Putting back -/

/-- A transaction that can be put back: it logged changes of the plan only, and files that it did not log are as they
were. -/
structure Abortable (edit : WorkspaceEdit) (t₀ : Tree) (tx : Transaction σ) : Prop where
  wellFormed : tx.tree.WellFormed
  log : ∀ c ∈ tx.log, c ∈ edit.writes
  files : ∀ p, edit.Touches p → (∃ c ∈ tx.log, p ∈ c.paths) ∨ tx.tree.fileAt (placeOf p) = t₀.fileAt (placeOf p)

/-- Wherever the writing stops, it can be put back. -/
theorem Stopped.abortable (hstraight : edit.Straight) (h : Stopped edit t₀ tx) : Abortable edit t₀ tx := by
  obtain ⟨left, htraced⟩ := h
  have hlog : ∀ c ∈ tx.log, c ∈ edit.writes := fun c hc => by
    rw [← htraced.log]
    exact List.mem_append_left _ hc
  refine ⟨htraced.wellFormed, hlog, fun p ⟨c₀, hc₀, hp⟩ => ?_⟩
  by_cases hlogged : ∃ c ∈ tx.log, p ∈ c.paths
  · exact Or.inl hlogged
  · refine Or.inr (htraced.files _ fun hmem => hlogged ?_)
    obtain ⟨c, hc, hplace⟩ := List.mem_flatMap.mp hmem
    obtain ⟨q, hq, heq⟩ := List.mem_map.mp hplace
    obtain rfl := (hstraight.paths (hlog c hc) hq).eq_of_placeOf (hstraight.paths hc₀ hp) heq
    exact ⟨c, hc, hq⟩

/-- When all changes are logged, whatever is done to the files afterwards can be put back. -/
theorem abortable_of_log (hwf : tx.tree.WellFormed) (hlog : tx.log = edit.writes) : Abortable edit t₀ tx :=
  ⟨hwf, fun _ hc => hlog ▸ hc, fun _ hp => Or.inl (hlog ▸ hp)⟩

theorem Abortable.idle (h : Abortable edit t₀ tx) (hidle : Idle tx tx') : Abortable edit t₀ tx' := by
  obtain ⟨hwf, hfiles⟩ := hidle.files h.wellFormed
  refine ⟨hwf, by rw [hidle.log]; exact h.log, fun p hp => ?_⟩
  rw [hidle.log, hfiles]
  exact h.files p hp

theorem putBack_settles (hstraight : edit.Straight) (hknow : ∀ p, edit.Touches p → snapshots.Know t₀ p) :
    Ends (Abortable (σ := σ) edit t₀) (putBack snapshots)
      (fun _ tx => tx.tree.WellFormed ∧ ∀ p, edit.Touches p → Settled edit t₀ tx p) := by
  unfold putBack
  refine Ends.getBind fun tx₀ h₀ => ?_
  refine Ends.bind (Q := fun _ => Abortable edit t₀) ?_ fun _ => ?_
  · rintro _ rfl
    exact h₀.idle (Relates.forM (fun dir => (makeDirs_idle dir).bind fun _ => Relates.pure _) _ _)
  refine Ends.getBind fun tx h => ?_
  have hstart : Settling edit t₀ tx.log.reverse [] tx := by
    refine ⟨h.wellFormed, fun c hc => h.log c (List.mem_reverse.mp hc), by simp, fun p hp hcase =>
      Or.inl ((h.files p hp).resolve_left ?_)⟩
    rintro ⟨c, hc, hmem⟩
    exact hcase.resolve_right List.not_mem_nil c (List.mem_reverse.mpr hc) hmem
  have hundo := undo_settles (σ := σ) hstraight hknow tx.log.reverse []
  refine Ends.bind (hundo.conseq (fun s hs => hs ▸ hstart) fun _ _ h => h) fun _ => ?_
  refine Ends.getBind fun _ ⟨seen, hsettling⟩ => ?_
  rintro tx₁ rfl
  have hsweep : ∀ dirs : List Path, Relates (Idle (σ := σ))
      (dirs.forM fun dir => do let _ ← ask (FileSystem.removeDir dir)) :=
    Relates.forM fun dir => (removeDir_idle dir).bind fun _ => Relates.pure _
  have hidle := hsweep tx₁.createdDirs.reverse tx₁
  exact ⟨(hidle.files hsettling.wellFormed).1, fun p hp =>
    hidle.settled hsettling.wellFormed (hsettling.settled p hp (Or.inl (by simp)))⟩

end Transaction

end Refactor
