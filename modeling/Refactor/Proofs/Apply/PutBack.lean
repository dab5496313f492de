import Refactor.Proofs.Apply.Course
import Refactor.Proofs.Apply.Sound
import Refactor.Proofs.Apply.Sweep

/-!
# Putting back

From a sound moment on, while no call fails without a reason in the tree, all files of before are put back, and of the
directories those that were made are removed as far as they are empty.

* `Recorded` — the snapshot of a path tells what the tree of before holds there
* `Transaction.Reached` — the directories are those of before and those that were made
* `Transaction.undo_ends` — every logged path is as it was before
* `Transaction.putBack_ends` — the tree after putting back
-/

set_option linter.unusedSectionVars false

namespace Refactor

open Tree (Below pathOf placeOf)
open Path (IsName)

/-- The snapshot of a path tells what a tree holds there. -/
inductive Recorded (t₀ : Tree) (snapshots : Snapshots) (p : Path) : Prop where
  | content (b : ByteArray) (found : snapshots.find? p = some (.content b)) (absolute : p.isAbsolute = true)
    (finds : t₀.Finds p (.file b))
  | absent (found : snapshots.find? p = some .absent) (straight : p.Straight) (free : t₀.get? (placeOf p) = none)

theorem Recorded.isAbsolute {t₀ : Tree} {snapshots : Snapshots} {p : Path} (h : Recorded t₀ snapshots p) :
    p.isAbsolute = true := by
  cases h with
  | content _ _ habsolute _ => exact habsolute
  | absent _ hstraight _ =>
    obtain ⟨place, _, _, rfl⟩ := hstraight
    exact Path.isAbsolute_pathOf place

/-- All paths of a change have snapshots, and the source of a move was a file. -/
structure Written.Recorded (t₀ : Tree) (snapshots : Snapshots) (w : Written) : Prop where
  paths : ∀ p ∈ w.paths, Refactor.Recorded t₀ snapshots p
  source : ∀ a b, w = .move a b → ∃ c, t₀.get? (placeOf a) = some (.file c)

variable {σ : Type} [TreeBacked σ]

namespace Transaction

variable {P : Moment → Prop} {α : Type}

/-! ## Calls -/

/-- After a call that does as it is told or has a reason not to. -/
def Did (P : Moment → Prop) (change : Tree → Except SystemFault Tree) : Except DiskError Unit → Moment → Prop
  | .ok (), m' => ∃ m t, P m ∧ change m.tree = .ok t ∧ m' = m.over t
  | .error e, m' => P m' ∧ ∃ fault, e = .system fault ∧ change m'.tree = .error fault

theorem ask_ends {f : StateM σ (Except DiskError Unit)} {change : Tree → Except SystemFault Tree}
    (hf : ∀ s, Acts TreeBacked.tree TreeBacked.steady change s (f.run s)) :
    Ends (At True P) (ask f) (fun r => At True (Did P change r)) := by
  rintro tx ⟨hm, hcalm⟩
  have hacts := hf tx.disk
  show At True (Did P change (f.run tx.disk).1) { tx with disk := (f.run tx.disk).2 }
  generalize f.run tx.disk = out at hacts ⊢
  cases hacts with
  | done s' htree hkeeps => exact ⟨⟨tx.moment, TreeBacked.tree s', hm, htree, rfl⟩, fun h => hkeeps (hcalm h)⟩
  | failed e s' htree hkeeps =>
    obtain ⟨hsteady, fault, rfl, hfault⟩ := hkeeps (hcalm trivial)
    have hmoment : { tx.moment with tree := TreeBacked.tree s' } = tx.moment := by rw [htree]; rfl
    refine ⟨⟨?_, fault, rfl, ?_⟩, fun _ => hsteady⟩
    · show P { tx.moment with tree := TreeBacked.tree s' }
      rw [hmoment]
      exact hm
    · show change (TreeBacked.tree s') = _
      rw [htree, hfault]

theorem ask_look_ends {f : StateM σ α} (h : Relates FileSystem.Looks f) :
    Ends (At True P) (ask f) (fun _ => At True P) := by
  rintro tx ⟨hm, hcalm⟩
  obtain ⟨hmoment, hsteady⟩ := ask_moment h tx
  exact ⟨hmoment ▸ hm, fun h => hsteady (hcalm h)⟩

theorem restored_ends (p : Path) : Ends (At (σ := σ) True P) (restored p) (fun _ => At True P) := fun _ h => h

theorem notRestored_ends (p : Path) (state : SnapshotState) (e : DiskError) (preservedAt : Option Path) :
    Ends (At (σ := σ) True P) (notRestored p state e preservedAt) (fun _ => At True P) := by
  unfold notRestored
  exact (ask_look_ends (FileSystem.read_looks p)).bind fun _ _ h => h

/-! ## One path -/

/-- The directories are those of before and those that were made. -/
structure Reached (t₀ : Tree) (made : List Place) (t : Tree) : Prop where
  wellFormed : t.WellFormed
  dirs : ∀ q, t.get? q = some .dir ↔ t₀.get? q = some .dir ∨ q ∈ made

/-- A place holds the file that it held before, or no file as before. -/
def BackAt (t₀ t : Tree) (q : Place) : Prop := ∀ b, t.get? q = some (.file b) ↔ t₀.get? q = some (.file b)

/-- A place is put back, unless a directory is in the way of a file, and nothing else changes. -/
structure Attempted (t₀ t : Tree) (p : Place) (t' : Tree) : Prop where
  wellFormed : t'.WellFormed
  others : ∀ q, q ≠ p → t'.get? q = t.get? q
  dir : t'.get? p = some .dir ↔ t.get? p = some .dir
  back : (∀ b, t₀.get? p = some (.file b) → t.get? p ≠ some .dir) → BackAt t₀ t' p

theorem Attempted.same {t₀ t : Tree} {p : Place} (h : t.WellFormed)
    (hback : (∀ b, t₀.get? p = some (.file b) → t.get? p ≠ some .dir) → BackAt t₀ t p) : Attempted t₀ t p t :=
  ⟨h, fun _ _ => rfl, Iff.rfl, hback⟩

theorem Attempted.reached {t₀ t t' : Tree} {p : Place} {made : List Place} (h : Attempted t₀ t p t')
    (hreached : Reached t₀ made t) : Reached t₀ made t' := by
  refine ⟨h.wellFormed, fun q => ?_⟩
  by_cases hq : q = p
  · rw [hq, h.dir, hreached.dirs]
  · rw [h.others q hq, hreached.dirs]

variable {t₀ : Tree} {made : List Place} {snapshots : Snapshots}

/-- The moments after an attempt at a path. -/
def AfterAttempt (t₀ : Tree) (P : Moment → Prop) (p : Path) (done : Moment → Prop) (m' : Moment) : Prop :=
  ∃ m t, P m ∧ m' = m.over t ∧ Attempted t₀ m.tree (placeOf p) t ∧ done m

theorem restore_content_ends (h₀ : t₀.WellFormed) (hP : ∀ m, P m → Reached t₀ made m.tree) {p : Path} {b : ByteArray}
    (habs : p.isAbsolute = true) (hfinds : t₀.Finds p (.file b)) :
    Ends (At (σ := σ) True P) (restore p (.content b)) (fun r => At True (AfterAttempt t₀ P p fun m =>
      m.tree.get? (placeOf p) ≠ some .dir → r = .ok ())) := by
  obtain ⟨hraw, hroute, hfile⟩ := hfinds
  obtain ⟨dir, hparent, hdir⟩ := Tree.isDir_parent? h₀ habs hroute (by rw [hfile]; simp)
  unfold restore
  dsimp only
  rw [hparent]
  refine Ends.bind (Q := fun r => At True fun m => P m ∧ r = .ok ()) ?_ fun r => ?_
  · refine (ask_ends (TreeBacked.makeDirs_acts dir)).conseq (fun _ h => h) ?_
    have hmake : ∀ m, P m → m.tree.makeDirs dir = .ok m.tree := by
      intro m hm
      have hreached := hP m hm
      refine Tree.makeDirs_of_isDir hreached.wellFormed ((Tree.isDir_iff hreached.wellFormed dir).mpr ?_)
      exact ((Tree.isDir_iff h₀ dir).mp hdir).dir_mono fun q hq => (hreached.dirs q).mpr (Or.inl hq)
    rintro (e | _) tx ⟨hdid, hcalm⟩
    · obtain ⟨hm, fault, _, hfault⟩ := hdid
      cases (hmake _ hm).symm.trans hfault
    · obtain ⟨m, t, hm, ht, htx⟩ := hdid
      obtain rfl := Except.ok.inj ((hmake m hm).symm.trans ht)
      refine ⟨⟨?_, rfl⟩, hcalm⟩
      rw [htx]
      exact hm
  · cases r with
    | error e => exact fun tx htx => by cases htx.1.2
    | ok _ =>
      dsimp only
      refine (ask_ends (TreeBacked.write_acts p b)).conseq (fun _ h => h) ?_
      rintro (e | _) tx ⟨hdid, hcalm⟩
      · obtain ⟨⟨hm, _⟩, fault, _, hfault⟩ := hdid
        have hreached := hP _ hm
        have hinway : tx.moment.tree.get? (placeOf p) = some .dir := by
          by_contra hdir
          obtain ⟨t, ht⟩ := Tree.write_of_route hreached.wellFormed hraw
            (fun q hq => (hreached.dirs q).mpr (Or.inl (hroute q hq))) hdir b
          cases ht.symm.trans hfault
        refine ⟨⟨tx.moment, tx.moment.tree, hm, rfl, Attempted.same hreached.wellFormed fun hback => ?_,
          fun hdir => absurd hinway hdir⟩, hcalm⟩
        exact absurd hinway (hback b hfile)
      · obtain ⟨m, t, ⟨hm, _⟩, hwrite, htx⟩ := hdid
        obtain ⟨hdir, hholds⟩ := Tree.write_ok (hP m hm).wellFormed hwrite
        refine ⟨⟨m, t, hm, htx, ⟨hholds.wellFormed, fun q hq => ?_, ?_, fun _ c => ?_⟩, fun _ => rfl⟩, hcalm⟩
        · rw [hholds.get?, if_neg hq]
        · rw [hholds.get?, if_pos rfl]
          simp [hdir]
        · rw [hholds.get?, if_pos rfl, hfile]

theorem restore_absent_ends (hP : ∀ m, P m → Reached t₀ made m.tree) {p : Path} (hstraight : p.Straight)
    (hfree : t₀.get? (placeOf p) = none) :
    Ends (At (σ := σ) True P) (restore p .absent) (fun _ => At True (AfterAttempt t₀ P p fun _ => True)) := by
  unfold restore
  refine Ends.bind (Q := fun _ => At True (AfterAttempt t₀ P p fun _ => True)) ?_ fun r => ?_
  · refine (ask_ends (TreeBacked.removeFile_acts p)).conseq (fun _ h => h) ?_
    rintro (e | _) tx ⟨hdid, hcalm⟩
    · obtain ⟨hm, fault, _, hfault⟩ := hdid
      have hreached := hP _ hm
      refine ⟨⟨tx.moment, tx.moment.tree, hm, rfl, Attempted.same hreached.wellFormed fun _ b => ?_, trivial⟩, hcalm⟩
      rw [hfree]
      refine ⟨fun hfile => ?_, fun h => (by cases h)⟩
      obtain ⟨place, hplace, _, rfl⟩ := hstraight
      rw [Tree.placeOf_names hplace] at hfile
      obtain ⟨t, ht⟩ := Tree.removeFile_of_finds hreached.wellFormed
        ((Tree.finds_names_iff hreached.wellFormed hplace _).mpr hfile)
      cases ht.symm.trans hfault
    · obtain ⟨m, t, hm, hremove, htx⟩ := hdid
      obtain ⟨⟨c, hfile⟩, hholds⟩ := Tree.removeFile_ok (hP m hm).wellFormed hremove
      refine ⟨⟨m, t, hm, htx, ⟨hholds.wellFormed, fun q hq => ?_, ?_, fun _ b => ?_⟩, trivial⟩, hcalm⟩
      · rw [hholds.get?, if_neg hq]
      · rw [hholds.get?, if_pos rfl, hfile]
        simp
      · rw [hholds.get?, if_pos rfl, hfree]
  · cases r with
    | error e => exact Ends.pure _ fun _ h => h
    | ok _ => exact Ends.pure _ fun _ h => h

theorem restorePath_ends (h₀ : t₀.WellFormed) (hP : ∀ m, P m → Reached t₀ made m.tree) {p : Path}
    (hp : Recorded t₀ snapshots p) :
    Ends (At (σ := σ) True P) (restorePath snapshots p) (fun _ => At True (AfterAttempt t₀ P p fun _ => True)) := by
  unfold restorePath
  cases hp with
  | content b hfound habs hfinds =>
    rw [hfound]
    refine (restore_content_ends h₀ hP habs hfinds).bind fun r => ?_
    refine Ends.conseq (P := At True (AfterAttempt t₀ P p fun _ => True)) ?_ ?_ fun _ _ h => h
    · cases r with
      | ok _ => exact restored_ends p
      | error e => exact notRestored_ends p _ e none
    · rintro tx ⟨⟨m, t, hm, htx, hattempted, _⟩, hcalm⟩
      exact ⟨⟨m, t, hm, htx, hattempted, trivial⟩, hcalm⟩
  | absent hfound hstraight hfree =>
    rw [hfound]
    refine (restore_absent_ends hP hstraight hfree).bind fun r => ?_
    cases r with
    | ok _ => exact restored_ends p
    | error e => exact notRestored_ends p _ e none

/-- The source of a move is put back, unless a directory is in the way. -/
theorem restoreSource_ends (h₀ : t₀.WellFormed) (hP : ∀ m, P m → Reached t₀ made m.tree) {p target : Path}
    (hp : Recorded t₀ snapshots p) (hsource : ∃ c, t₀.get? (placeOf p) = some (.file c)) :
    Ends (At (σ := σ) True P) (restoreSource snapshots p target) (fun kept => At True (AfterAttempt t₀ P p fun m =>
      m.tree.get? (placeOf p) ≠ some .dir → kept = true)) := by
  cases hp with
  | absent _ _ hfree =>
    obtain ⟨c, hc⟩ := hsource
    rw [hfree] at hc
    cases hc
  | content b hfound habs hfinds =>
    unfold restoreSource
    rw [hfound]
    refine (restore_content_ends h₀ hP habs hfinds).bind fun r => ?_
    cases r with
    | ok _ =>
      refine (restored_ends p).bind fun _ => Ends.pure _ ?_
      rintro tx ⟨⟨m, t, hm, htx, hattempted, _⟩, hcalm⟩
      exact ⟨⟨m, t, hm, htx, hattempted, fun _ => rfl⟩, hcalm⟩
    | error e =>
      refine (ask_look_ends (FileSystem.exists?_looks target)).bind fun there => ?_
      refine (notRestored_ends p _ e _).bind fun _ => Ends.pure _ ?_
      rintro tx ⟨⟨m, t, hm, htx, hattempted, hdone⟩, hcalm⟩
      exact ⟨⟨m, t, hm, htx, hattempted, fun hdir => by cases hdone hdir⟩, hcalm⟩

/-! ## All paths -/

/-- Undoing has got to where `left` is left of the log and `seen` was attempted: unless a directory was made in the
place of a file, what was attempted is back, and so is what is not logged. -/
structure Undone (t₀ : Tree) (made : List Place) (left : List Written) (seen : List Path) (t : Tree) : Prop where
  reached : Reached t₀ made t
  back : (∀ c ∈ made, ∀ b, t₀.get? c ≠ some (.file b)) → ∀ q,
    q ∉ left.flatMap Written.places ∨ q ∈ seen.map placeOf → BackAt t₀ t q

namespace Undone

variable {left : List Written} {seen : List Path} {t t' : Tree}

theorem attempted (h : Undone t₀ made left seen t) {p : Path} (hp : Attempted t₀ t (placeOf p) t') :
    Undone t₀ made left (p :: seen) t' := by
  refine ⟨hp.reached h.reached, fun hfiles q hq => ?_⟩
  by_cases hqp : q = placeOf p
  · subst hqp
    refine hp.back fun b hfile hdir => ?_
    rcases (h.reached.dirs _).mp hdir with hdir | hmade
    · rw [hdir] at hfile
      cases hfile
    · exact hfiles _ hmade b hfile
  · intro b
    rw [hp.others q hqp]
    refine h.back hfiles q (hq.imp_right fun hmem => ?_) b
    rw [List.map_cons] at hmem
    exact (List.mem_cons.mp hmem).resolve_left hqp

theorem again (h : Undone t₀ made left seen t) {p : Path} (hp : placeOf p ∈ seen.map placeOf) :
    Undone t₀ made left (p :: seen) t := by
  refine ⟨h.reached, fun hfiles q hq => h.back hfiles q (hq.imp_right fun hmem => ?_)⟩
  rw [List.map_cons] at hmem
  rcases List.mem_cons.mp hmem with rfl | hmem
  · exact hp
  · exact hmem

theorem next {w : Written} (h : Undone t₀ made (w :: left) seen t)
    (hw : ∀ p ∈ w.paths, placeOf p ∈ seen.map placeOf) : Undone t₀ made left seen t := by
  refine ⟨h.reached, fun hfiles q hq => h.back hfiles q ?_⟩
  by_cases hmem : q ∈ w.places
  · obtain ⟨p, hp, rfl⟩ := List.mem_map.mp hmem
    exact Or.inr (hw p hp)
  · refine hq.imp_left fun hq hall => ?_
    rw [List.flatMap_cons] at hall
    exact (List.mem_append.mp hall).elim hmem hq

end Undone

theorem placeOf_mem_of_contains {p : Path} (hp : p.isAbsolute = true) {seen : List Path}
    (h : seen.contains p = true) : placeOf p ∈ seen.map placeOf := by
  rw [List.contains_iff_exists_mem_beq] at h
  obtain ⟨q, hq, hpq⟩ := h
  rw [Tree.placeOf_congr hp ((Path.beq_iff p q).mp hpq)]
  exact List.mem_map_of_mem hq

section Steps

variable {left : List Written} {seen : List Path} {m₀ : Moment} {p : Path}

/-- The step for a path: it is attempted unless it was attempted before. -/
theorem unlessSeen_ends (h₀ : t₀.WellFormed) (hp : Recorded t₀ snapshots p) :
    Ends (At (σ := σ) True fun m => Undone t₀ made left seen m.tree ∧ m = m₀.over m.tree)
      (if seen.contains p then pure () else restorePath snapshots p)
      (fun _ => At True fun m => Undone t₀ made left (p :: seen) m.tree ∧ m = m₀.over m.tree) := by
  cases hseen : seen.contains p with
  | true =>
    exact Ends.pure _ fun tx ⟨⟨hundone, htx⟩, hcalm⟩ =>
      ⟨⟨hundone.again (placeOf_mem_of_contains hp.isAbsolute hseen), htx⟩, hcalm⟩
  | false =>
    refine (restorePath_ends h₀ (fun m hm => hm.1.reached) hp).conseq (fun _ h => h) ?_
    rintro _ tx ⟨⟨m, t, ⟨hundone, hm⟩, htx, hattempted, _⟩, hcalm⟩
    rw [At, htx]
    refine ⟨⟨hundone.attempted hattempted, ?_⟩, hcalm⟩
    rw [hm]
    rfl

/-- The step for the source of a move. The target may be put back when no directory was made in the place of a file. -/
theorem source_ends (h₀ : t₀.WellFormed) (target : Path) (hp : Recorded t₀ snapshots p)
    (hsource : ∃ c, t₀.get? (placeOf p) = some (.file c)) :
    Ends (At (σ := σ) True fun m => Undone t₀ made left seen m.tree ∧ m = m₀.over m.tree)
      (if seen.contains p then pure true else restoreSource snapshots p target)
      (fun kept => At True fun m => (Undone t₀ made left (p :: seen) m.tree ∧ m = m₀.over m.tree) ∧
        ((∀ c ∈ made, ∀ b, t₀.get? c ≠ some (.file b)) → kept = true)) := by
  cases hseen : seen.contains p with
  | true =>
    exact Ends.pure _ fun tx ⟨⟨hundone, htx⟩, hcalm⟩ =>
      ⟨⟨⟨hundone.again (placeOf_mem_of_contains hp.isAbsolute hseen), htx⟩, fun _ => rfl⟩, hcalm⟩
  | false =>
    refine (restoreSource_ends h₀ (fun m hm => hm.1.reached) hp hsource).conseq (fun _ h => h) ?_
    rintro kept tx ⟨⟨m, t, ⟨hundone, hm⟩, htx, hattempted, hkept⟩, hcalm⟩
    rw [At, htx]
    refine ⟨⟨⟨hundone.attempted hattempted, ?_⟩, fun hfiles => hkept fun hdir => ?_⟩, hcalm⟩
    · rw [hm]
      rfl
    · obtain ⟨c, hc⟩ := hsource
      rcases (hundone.reached.dirs _).mp hdir with hdir | hmade
      · rw [hdir] at hc
        cases hc
      · exact hfiles _ hmade c hc

/-- The step for the target of a move: it is attempted unless it has to stay or was attempted before. -/
theorem target_ends (h₀ : t₀.WellFormed) (hp : Recorded t₀ snapshots p) (kept : Bool) :
    Ends (At (σ := σ) True fun m => (Undone t₀ made left seen m.tree ∧ m = m₀.over m.tree) ∧
        ((∀ c ∈ made, ∀ b, t₀.get? c ≠ some (.file b)) → kept = true))
      (if kept && !seen.contains p then restorePath snapshots p else pure ())
      (fun _ => At True fun m => Undone t₀ made left (p :: seen) m.tree ∧ m = m₀.over m.tree) := by
  cases kept with
  | false =>
    exact Ends.pure _ fun tx ⟨⟨⟨hundone, htx⟩, hkept⟩, hcalm⟩ =>
      ⟨⟨⟨hundone.reached, fun hfiles => absurd (hkept hfiles) (by simp)⟩, htx⟩, hcalm⟩
  | true =>
    have hunless : Ends (At (σ := σ) True fun m => Undone t₀ made left seen m.tree ∧ m = m₀.over m.tree) _ _ :=
      unlessSeen_ends h₀ hp
    cases hseen : seen.contains p with
    | true =>
      rw [hseen] at hunless
      exact hunless.conseq (fun _ h => ⟨h.1.1, h.2⟩) fun _ _ h => h
    | false =>
      rw [hseen] at hunless
      exact hunless.conseq (fun _ h => ⟨h.1.1, h.2⟩) fun _ _ h => h

end Steps

/-- Undoing a log whose paths all have snapshots. -/
theorem undo_ends (h₀ : t₀.WellFormed) (m₀ : Moment) (log : List Written) (seen : List Path)
    (hlog : ∀ w ∈ log, w.Recorded t₀ snapshots) :
    Ends (At (σ := σ) True fun m => Undone t₀ made log seen m.tree ∧ m = m₀.over m.tree) (undo snapshots log seen)
      (fun _ => At True fun m => ∃ seen, Undone t₀ made [] seen m.tree ∧ m = m₀.over m.tree) := by
  refine (undo_keeps (I := fun left seen tx => (∀ w ∈ left, w.Recorded t₀ snapshots) ∧
    At (σ := σ) True (fun m => Undone t₀ made left seen m.tree ∧ m = m₀.over m.tree) tx) ?_ ?_ log seen).conseq
    (fun tx htx => ⟨hlog, htx⟩) fun _ tx ⟨seen, _, ⟨hundone, hm⟩, hcalm⟩ => ⟨⟨seen, hundone, hm⟩, hcalm⟩
  · rintro p rest seen tx ⟨hlog, htx⟩
    have hp : Recorded t₀ snapshots p := (hlog (.path p) (by simp)).paths p (by simp [Written.paths])
    obtain ⟨⟨hundone, hm⟩, hcalm⟩ := unlessSeen_ends h₀ hp tx htx
    refine ⟨fun w hw => hlog w (List.mem_cons_of_mem _ hw), ⟨hundone.next fun q hq => ?_, hm⟩, hcalm⟩
    rw [List.mem_singleton.mp hq]
    simp
  · rintro a b rest seen tx ⟨hlog, htx⟩
    have hw := hlog (.move a b) (by simp)
    have ha : Recorded t₀ snapshots a := hw.paths a (by simp [Written.paths])
    have hb : Recorded t₀ snapshots b := hw.paths b (by simp [Written.paths])
    obtain ⟨⟨hundone, hm⟩, hcalm⟩ := ((source_ends h₀ b ha (hw.source a b rfl)).bind fun kept =>
      target_ends h₀ hb kept) tx htx
    refine ⟨fun w hw => hlog w (List.mem_cons_of_mem _ hw), ⟨hundone.next fun q hq => ?_, hm⟩, hcalm⟩
    rcases List.mem_cons.mp hq with rfl | hq
    · simp
    · rw [List.mem_singleton.mp hq]
      simp

/-! ## Directories -/

/-- Directories that were removed are made again where no file is in the way. -/
theorem remake_ends {m₀ : Moment} (hwf : m₀.tree.WellFormed) (dirs : List Path) (hdirs : ∀ d ∈ dirs, d.Straight)
    (hclear : ∀ d ∈ dirs, m₀.tree.Clear (placeOf d)) :
    Ends (At (σ := σ) True (· = m₀)) (dirs.forM fun dir => do let _ ← ask (FileSystem.makeDirs dir))
      (fun _ => At True fun m => m = m₀.over m.tree ∧ m.tree.WellFormed ∧
        ∀ q, m.tree.get? q = if ∃ d ∈ dirs, q <+: placeOf d then some .dir else m₀.tree.get? q) := by
  let I (left : List Path) (m : Moment) : Prop := m = m₀.over m.tree ∧ m.tree.WellFormed ∧
    ∃ done, done ++ left = dirs ∧
      ∀ q, m.tree.get? q = if ∃ d ∈ done, q <+: placeOf d then some .dir else m₀.tree.get? q
  refine (Ends.forM (I := fun left => At (σ := σ) True (I left)) dirs fun dir left hsuffix => ?_).conseq ?_ ?_
  · obtain ⟨place, hplace, _, rfl⟩ := hdirs dir (hsuffix.subset List.mem_cons_self)
    have hfree := hclear _ (hsuffix.subset List.mem_cons_self)
    rw [Tree.placeOf_names hplace] at hfree
    refine (ask_ends (TreeBacked.makeDirs_acts _)).bind fun r => Ends.pure _ ?_
    have hstill : ∀ m, I (pathOf place :: left) m → m.tree.Clear place := by
      rintro m ⟨_, _, done, _, hget⟩ q b hq
      rw [hget]
      split_ifs
      · simp
      · exact hfree q b hq
    rcases r with e | _ <;> rintro tx ⟨hdid, hcalm⟩
    · obtain ⟨hm, fault, _, hfault⟩ := hdid
      rcases Tree.makeDirs_names hm.2.1 hplace with ⟨t, ht, _⟩ | ⟨_, _, hinway⟩
      · cases ht.symm.trans hfault
      · exact absurd (hstill _ hm) hinway
    · obtain ⟨m, t, ⟨hm, hmwf, done, hdone, hget⟩, hmake, htx⟩ := hdid
      have hgrown := Tree.makeDirs_ok hmwf hplace hmake
      rw [At, htx]
      refine ⟨⟨by rw [hm]; rfl, hgrown.wellFormed, done ++ [pathOf place], by simpa using hdone, fun q => ?_⟩, hcalm⟩
      show t.get? q = _
      rw [hgrown.get?, hget]
      by_cases hq : q <+: place
      · rw [if_pos hq, if_pos ⟨pathOf place, by simp, by rwa [Tree.placeOf_names hplace]⟩]
      · rw [if_neg hq]
        refine if_congr ⟨?_, ?_⟩ rfl rfl
        · rintro ⟨d, hd, hqd⟩
          exact ⟨d, List.mem_append_left _ hd, hqd⟩
        · rintro ⟨d, hd, hqd⟩
          rcases List.mem_append.mp hd with hd | hd
          · exact ⟨d, hd, hqd⟩
          · rw [List.mem_singleton.mp hd, Tree.placeOf_names hplace] at hqd
            exact absurd hqd hq
  · rintro tx ⟨htx, hcalm⟩
    rw [At, htx]
    exact ⟨⟨rfl, hwf, [], rfl, fun q => by simp⟩, hcalm⟩
  · rintro _ tx ⟨⟨hm, hmwf, done, hdone, hget⟩, hcalm⟩
    rw [List.append_nil] at hdone
    exact ⟨⟨hm, hmwf, hdone ▸ hget⟩, hcalm⟩

/-- Making the removed directories again leads from a sound moment to the start of undoing. -/
theorem Sound.remade {G : Written → Prop} {m : Moment} {t : Tree} (h : Sound t₀ G m) (hwf : t.WellFormed)
    (hget : ∀ q, t.get? q = if ∃ d ∈ m.removedDirs, q <+: placeOf d then some .dir else m.tree.get? q) :
    Undone t₀ (m.createdDirs.map placeOf) m.log.reverse [] t := by
  have hclear : ∀ q, (∃ d ∈ m.removedDirs, q <+: placeOf d) → (∀ b, m.tree.get? q ≠ some (.file b)) ∧
      (t₀.get? q = some .dir ∨ q ∈ m.createdDirs.map placeOf) := by
    rintro q ⟨d, hd, hq⟩
    exact h.accounted.unmade_clear _ (List.mem_map_of_mem hd) q hq
  have hremoved : ∀ q, q ∈ m.removedDirs.map placeOf → t.get? q = some .dir := by
    intro q hq
    obtain ⟨d, hd, rfl⟩ := List.mem_map.mp hq
    rw [hget, if_pos ⟨d, hd, List.prefix_rfl⟩]
  have hstays : ∀ q, m.tree.get? q = some .dir → t.get? q = some .dir := by
    intro q hq
    rw [hget, hq]
    split_ifs <;> rfl
  refine ⟨⟨hwf, fun q => ⟨fun hq => ?_, ?_⟩⟩, fun _ q hq b => ?_⟩
  · rw [hget] at hq
    split_ifs at hq with hmade
    · exact (hclear q hmade).2
    · exact h.accounted.fresh q hq
  · rintro (hq | hq)
    · exact (h.accounted.kept q hq).elim (hstays q) (hremoved q)
    · exact (h.accounted.made_stands q hq).elim (hstays q) (hremoved q)
  · have hunlogged : q ∉ m.log.flatMap Written.places := by
      have hq' := hq.resolve_right (by simp)
      rw [List.mem_flatMap] at hq' ⊢
      simpa using hq'
    rw [← h.accounted.files q hunlogged b, hget]
    split_ifs with hmade
    · simp [(hclear q hmade).1 b]
    · rfl

/-- The created directories are removed last first. -/
theorem removeCreated_ends {m₀ : Moment} (dirs : List Path) (hdirs : ∀ d ∈ dirs, d.Straight) :
    Ends (At (σ := σ) True (· = m₀)) (dirs.reverse.forM fun dir => do let _ ← ask (FileSystem.removeDir dir))
      (fun _ => At True fun m => m.tree = m₀.tree.sweep (dirs.map placeOf)) := by
  let I (left : List Path) (m : Moment) : Prop := ∃ done, left.reverse ++ done = dirs ∧
    m.tree = m₀.tree.sweep (done.map placeOf)
  refine (Ends.forM (I := fun left => At (σ := σ) True (I left)) dirs.reverse fun dir left hsuffix => ?_).conseq ?_ ?_
  · obtain ⟨place, hplace, hne, rfl⟩ := hdirs dir (List.mem_reverse.mp (hsuffix.subset List.mem_cons_self))
    refine (ask_ends (TreeBacked.removeDir_acts _)).bind fun r => Ends.pure _ ?_
    have hnext : ∀ {t : Tree} {done : List Path}, t = m₀.tree.sweep (done.map placeOf) →
        t.tryRemoveDir place = m₀.tree.sweep ((pathOf place :: done).map placeOf) := by
      rintro t done rfl
      rw [List.map_cons, Tree.placeOf_names hplace]
      rfl
    rcases r with e | _ <;> rintro tx ⟨hdid, hcalm⟩
    · obtain ⟨⟨done, hdone, htree⟩, fault, _, hfault⟩ := hdid
      refine ⟨⟨pathOf place :: done, by simpa using hdone, ?_⟩, hcalm⟩
      rw [← hnext htree, Tree.tryRemoveDir]
      have hfault' : tx.moment.tree.removeDir (pathOf place) = .error fault := hfault
      rw [hfault']
    · obtain ⟨m, t, ⟨done, hdone, htree⟩, hremove, htx⟩ := hdid
      refine ⟨⟨pathOf place :: done, by simpa using hdone, ?_⟩, hcalm⟩
      have hremove' : m.tree.removeDir (pathOf place) = .ok t := hremove
      rw [← hnext htree, Tree.tryRemoveDir, hremove', htx]
      rfl
  · rintro tx ⟨htx, hcalm⟩
    rw [At, htx]
    exact ⟨⟨[], by simp, rfl⟩, hcalm⟩
  · rintro _ tx ⟨⟨done, hdone, htree⟩, hcalm⟩
    obtain rfl : done = dirs := by simpa using hdone
    exact ⟨htree, hcalm⟩

/-- Undoing has come to its end, and the created directories are removed. -/
theorem Undone.sweep_eq_iff {seen : List Path} {t : Tree} {G : Written → Prop} {m : Moment} (h₀ : t₀.WellFormed)
    (hsound : Sound t₀ G m) (h : Undone t₀ (m.createdDirs.map placeOf) [] seen t) :
    t.sweep (m.createdDirs.map placeOf) = t₀ ↔ ¬Clobbers t₀ (m.createdDirs.map placeOf) := by
  have hmade : ∀ c ∈ m.createdDirs.map placeOf, (∀ s ∈ c, IsName s) ∧ c ≠ [] := by
    intro c hc
    obtain ⟨p, hp, rfl⟩ := List.mem_map.mp hc
    obtain ⟨place, hplace, hne, rfl⟩ := hsound.created p hp
    rw [Tree.placeOf_names hplace]
    exact ⟨hplace, hne⟩
  by_cases hfiles : ∀ c ∈ m.createdDirs.map placeOf, ∀ b, t₀.get? c ≠ some (.file b)
  · exact Tree.sweep_eq_iff h₀ h.reached.wellFormed hmade (fun q => h.back hfiles q (Or.inl (by simp)))
      h.reached.dirs hsound.accounted.made_above hsound.accounted.made_between
  · -- a directory in the place of a file stays or goes, but the file does not come back
    simp only [not_forall, not_not] at hfiles
    obtain ⟨c, hc, b, hfile⟩ := hfiles
    obtain ⟨before, after, hsplit⟩ := List.append_of_mem hc
    refine iff_of_false (fun heq => ?_) (not_not.mpr ⟨before, c, after, hsplit, Or.inl ⟨b, hfile⟩⟩)
    rw [← heq, Tree.sweep_file h.reached.wellFormed hmade] at hfile
    rw [(h.reached.dirs c).mpr (Or.inr hc)] at hfile
    cases hfile

theorem putBack_ends (h₀ : t₀.WellFormed) {m₀ : Moment} (h : Sound t₀ (Written.Recorded t₀ snapshots) m₀) :
    Ends (At (σ := σ) True (· = m₀)) (putBack snapshots)
      (fun _ => At True fun m => m.tree = t₀ ↔ ¬Clobbers t₀ (m₀.createdDirs.map placeOf)) := by
  have hclear : ∀ d ∈ m₀.removedDirs, m₀.tree.Clear (placeOf d) := fun d hd q b hq =>
    (h.accounted.unmade_clear _ (List.mem_map_of_mem hd) q hq).1 b
  unfold putBack
  refine Ends.getBind fun tx htx => ?_
  have hremoved : tx.removedDirs = m₀.removedDirs := congrArg Moment.removedDirs htx.1
  rw [hremoved]
  refine Ends.bind ((remake_ends h.wellFormed _ h.removed hclear).conseq (fun s hs => hs ▸ htx) fun _ _ h => h)
    fun _ => ?_
  refine Ends.getBind fun tx ⟨⟨hm, hwf, hget⟩, hcalm⟩ => ?_
  have hlog : tx.log = m₀.log := congrArg Moment.log hm
  rw [hlog]
  have hundo : Ends (At (σ := σ) True fun m => Undone t₀ (m₀.createdDirs.map placeOf) m₀.log.reverse [] m.tree ∧
      m = m₀.over m.tree) (undo snapshots m₀.log.reverse []) _ :=
    undo_ends h₀ m₀ m₀.log.reverse [] fun w hw => h.log w (List.mem_reverse.mp hw)
  refine Ends.bind (hundo.conseq ?_ fun _ _ h => h) fun _ => ?_
  · rintro _ rfl
    exact ⟨⟨h.remade hwf hget, hm⟩, hcalm⟩
  refine Ends.getBind fun tx ⟨⟨seen, hundone, hm⟩, hcalm⟩ => ?_
  have hcreated : tx.createdDirs = m₀.createdDirs := congrArg Moment.createdDirs hm
  rw [hcreated]
  have hsweep : Ends (At (σ := σ) True (· = tx.moment)) _ _ := removeCreated_ends _ h.created
  refine hsweep.conseq ?_ ?_
  · rintro _ rfl
    exact ⟨rfl, hcalm⟩
  · rintro _ tx' ⟨htree, hcalm'⟩
    refine ⟨?_, hcalm'⟩
    show tx'.moment.tree = t₀ ↔ _
    rw [htree]
    exact hundone.sweep_eq_iff h₀ h

end Transaction

end Refactor
