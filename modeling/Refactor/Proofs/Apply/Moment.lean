import Refactor.Proofs.Apply.Ledger
import Refactor.Proofs.Disk.Backed

/-!
# Moments of a transaction

What matters of a transaction on a tree is a moment: the tree, the log and the two lists of directories. A call that
looks keeps the moment; a call that changes touches the tree alone.

* `Transaction.Moment`, `Transaction.moment` — moments
* `Transaction.perform_runs`, `Transaction.record_runs`, `Transaction.heedCancel_runs` — steps of the writing
* `Transaction.Ensured`, `Transaction.ensureDir_runs` — a directory that is there, or was made with all above it
-/

set_option linter.unusedSectionVars false

namespace Refactor

open Tree (Below pathOf placeOf slashOf)
open Path (IsName)

variable {σ : Type} [TreeBacked σ]

namespace Transaction

/-- The tree and the records of a transaction. -/
structure Moment where
  tree : Tree
  log : List Written
  createdDirs : List Path
  removedDirs : List Path
  /-- whether a raised cancellation is heeded -/
  heeds : Bool

def moment (tx : Transaction σ) : Moment :=
  ⟨TreeBacked.tree tx.disk, tx.log, tx.createdDirs, tx.removedDirs, tx.heeds⟩

def Moment.start (t : Tree) (heeds : Bool) : Moment := ⟨t, [], [], [], heeds⟩

def Moment.over (m : Moment) (t : Tree) : Moment := { m with tree := t }

def Moment.record (m : Moment) (w : Written) : Moment := { m with log := m.log ++ [w] }

/-- A transaction at a moment with `P`; when it is to be calm, its file system is steady. -/
def At (calm : Prop) (P : Moment → Prop) (tx : Transaction σ) : Prop :=
  P tx.moment ∧ (calm → TreeBacked.steady tx.disk)

variable {C : Prop} {P E : Moment → Prop} {α : Type}

/-! ## Calls -/

theorem ask_moment {f : StateM σ α} (h : Relates FileSystem.Looks f) (tx : Transaction σ) :
    ((ask f).run tx).2.moment = tx.moment ∧
      (TreeBacked.steady tx.disk → TreeBacked.steady ((ask f).run tx).2.disk) := by
  obtain ⟨htree, hsteady⟩ := TreeBacked.looks (h tx.disk)
  refine ⟨?_, hsteady⟩
  show Moment.mk (TreeBacked.tree (f.run tx.disk).2) _ _ _ _ = _
  rw [htree]
  rfl

theorem call_run (f : StateM σ α) (tx : Transaction σ) :
    (call f).run.run tx = (.ok (f.run tx.disk).1, { tx with disk := (f.run tx.disk).2 }) := rfl

theorem call_keeps {f : StateM σ α} (h : Relates FileSystem.Looks f) :
    Runs (At C P) (call (σ := σ) f) (fun _ => At C P) (fun tx => E tx.moment) := by
  rintro tx ⟨hm, hcalm⟩
  obtain ⟨hmoment, hsteady⟩ := ask_moment h tx
  show At C P ((ask f).run tx).2
  exact ⟨hmoment ▸ hm, fun h => hsteady (hcalm h)⟩

/-- A call that looks tells what the tree holds. -/
theorem call_runs {f : StateM σ α} (h : Relates FileSystem.Looks f) (answer : Tree → α)
    (hanswer : ∀ s, (f.run s).1 = answer (TreeBacked.tree s)) :
    Runs (At C P) (call f) (fun a => At C fun m => P m ∧ a = answer m.tree) (fun tx => E tx.moment) := by
  rintro tx ⟨hm, hcalm⟩
  obtain ⟨hmoment, hsteady⟩ := ask_moment h tx
  show At C (fun m => P m ∧ (f.run tx.disk).1 = answer m.tree) ((ask f).run tx).2
  refine ⟨?_, fun h => hsteady (hcalm h)⟩
  rw [hmoment]
  exact ⟨hm, hanswer tx.disk⟩

/-- Only a transaction that heeds a cancellation is ended by one. -/
theorem heedCancel_runs (hE : ∀ m, P m → m.heeds = true → E m) :
    Runs (At (σ := σ) C P) heedCancel (fun _ => At C P) (fun tx => E tx.moment) := by
  have hget : Runs (At C P) (get : Writing σ (Transaction σ))
      (fun tx => At C fun m => P m ∧ m.heeds = tx.heeds) (fun tx => E tx.moment) :=
    fun _ htx => ⟨⟨htx.1, rfl⟩, htx.2⟩
  refine hget.bind fun tx => ?_
  cases tx.heeds
  · exact Runs.pure _ fun _ htx => ⟨htx.1.1, htx.2⟩
  · refine (call_keeps FileSystem.cancelled_looks).bind fun raised => ?_
    cases raised
    · exact Runs.pure _ fun _ htx => ⟨htx.1.1, htx.2⟩
    · exact Runs.throw _ fun tx htx => hE _ htx.1.1 htx.1.2

/-- After a call that changes the tree, or fails and leaves it. -/
def Tried (calm : Prop) (P : Moment → Prop) (change : Tree → Except SystemFault Tree) :
    Except DiskError Unit → Moment → Prop
  | .ok (), m' => ∃ m t, P m ∧ change m.tree = .ok t ∧ m' = m.over t
  | .error _, m' => P m' ∧ (calm → ∃ fault, change m'.tree = .error fault)

theorem try_runs {f : StateM σ (Except DiskError Unit)} {change : Tree → Except SystemFault Tree}
    (hf : ∀ s, Acts TreeBacked.tree TreeBacked.steady change s (f.run s)) :
    Runs (At C P) (call f) (fun r => At C (Tried C P change r)) (fun tx => E tx.moment) := by
  rintro tx ⟨hm, hcalm⟩
  have hacts := hf tx.disk
  rw [call_run]
  generalize f.run tx.disk = out at hacts ⊢
  cases hacts with
  | done s' htree hkeeps => exact ⟨⟨tx.moment, TreeBacked.tree s', hm, htree, rfl⟩, fun h => hkeeps (hcalm h)⟩
  | failed e s' htree hkeeps =>
    have hmoment : { tx.moment with tree := TreeBacked.tree s' } = tx.moment := by rw [htree]; rfl
    show At C (fun m' => P m' ∧ (C → ∃ fault, change m'.tree = .error fault)) { tx with disk := s' }
    refine ⟨?_, fun h => (hkeeps (hcalm h)).1⟩
    show P { tx.moment with tree := TreeBacked.tree s' } ∧ (C → ∃ fault, change (TreeBacked.tree s') = .error fault)
    rw [hmoment, htree]
    refine ⟨hm, fun h => ?_⟩
    obtain ⟨fault, _, hfault⟩ := (hkeeps (hcalm h)).2
    exact ⟨fault, hfault⟩

/-- A call whose failure ends the writing. -/
theorem perform_runs {f : StateM σ (Except DiskError Unit)} {change : Tree → Except SystemFault Tree} (p : Path)
    (hf : ∀ s, Acts TreeBacked.tree TreeBacked.steady change s (f.run s))
    (hE : ∀ m, P m → (C → ∃ fault, change m.tree = .error fault) → E m) :
    Runs (At C P) (perform p f) (fun _ => At C fun m' => ∃ m t, P m ∧ change m.tree = .ok t ∧ m' = m.over t)
      (fun tx => E tx.moment) := by
  unfold perform
  refine (try_runs hf).bind fun r => ?_
  cases r with
  | ok _ => exact Runs.pure _ fun _ htx => htx
  | error e => exact Runs.throw _ fun _ htx => hE _ htx.1.1 htx.1.2

theorem record_runs (w : Written) : Runs (At (σ := σ) C P) (record w)
    (fun _ => At C fun m' => ∃ m, P m ∧ m' = m.record w) (fun tx => E tx.moment) :=
  fun tx htx => ⟨⟨tx.moment, htx.1, rfl⟩, htx.2⟩

theorem note_runs (f : ApplyResult → ApplyResult) : Runs (At (σ := σ) C P) (note f) (fun _ => At C P)
    (fun tx => E tx.moment) := fun _ htx => htx

/-! ## Directories -/

/-- A place is taken, or it was made a directory with the missing ones above it. -/
inductive Ensured (m : Moment) (place : Place) : Moment → Prop where
  | there (h : m.tree.get? place ≠ none) : Ensured m place m
  | made (d : Place) (rest : List String) (t : Tree) (place_eq : place = d ++ rest) (dir : m.tree.get? d = some .dir)
    (free : ∀ q ∈ chain d rest, m.tree.get? q = none) (grown : m.tree.Grown place t) :
    Ensured m place { m with tree := t, createdDirs := m.createdDirs ++ (chain d rest).map pathOf }

/-- Only free places are made directories. -/
theorem Ensured.get?_cases {m m' : Moment} {place : Place} (h : m.tree.WellFormed) (hm : Ensured m place m')
    (q : Place) : m'.tree.get? q = m.tree.get? q ∨
      m.tree.get? q = none ∧ m'.tree.get? q = some .dir ∧ q <+: place := by
  cases hm with
  | there _ => exact Or.inl rfl
  | made d rest t heq hdir hfree hgrown =>
    show t.get? q = _ ∨ _ ∧ t.get? q = _ ∧ _
    rw [hgrown.get?]
    split_ifs with hq
    · by_cases hd : q <+: d
      · have := (Tree.Grown.refl h hdir).get? q
        rw [if_pos hd] at this
        exact Or.inl this.symm
      · subst heq
        have hbelow : Below d q := by
          rcases List.prefix_or_prefix_of_prefix hq (List.prefix_append d rest) with hlead | hlead
          · exact absurd hlead hd
          · exact ⟨hlead, fun heq => hd (heq ▸ List.prefix_rfl)⟩
        exact Or.inr ⟨hfree q (mem_chain.mpr ⟨hbelow, hq⟩), rfl, hq⟩
    · exact Or.inl rfl

theorem Ensured.file {m m' : Moment} {place q : Place} {b : ByteArray} (h : m.tree.WellFormed)
    (hm : Ensured m place m') (hq : m.tree.get? q = some (.file b)) : m'.tree.get? q = some (.file b) := by
  rcases hm.get?_cases h q with heq | ⟨hnone, _⟩
  · rw [heq, hq]
  · rw [hnone] at hq
    cases hq

theorem exists_last_taken (t : Tree) : ∀ place : Place,
    ∃ d rest, place = d ++ rest ∧ t.get? d ≠ none ∧ ∀ q ∈ chain d rest, t.get? q = none := by
  intro place
  induction place using List.reverseRecOn with
  | nil => exact ⟨[], [], rfl, by simp, by simp [chain]⟩
  | append_singleton place s ih =>
    by_cases htaken : t.get? (place ++ [s]) = none
    · obtain ⟨d, rest, rfl, hd, hfree⟩ := ih
      refine ⟨d, rest ++ [s], by simp, hd, fun q hq => ?_⟩
      rw [chain_concat] at hq
      rcases List.mem_append.mp hq with hq | hq
      · exact hfree q hq
      · rw [List.mem_singleton.mp hq]
        exact htaken
    · exact ⟨place ++ [s], [], by simp, htaken, by simp [chain]⟩

/-- The paths before the first one that is there. -/
theorem missingDirs_run (tx : Transaction σ) : ∀ l : List Path,
    ((missingDirs l).run tx).1 = l.takeWhile (fun p => !tx.moment.tree.exists? p) ∧
      ((missingDirs l).run tx).2.moment = tx.moment ∧
      (TreeBacked.steady tx.disk → TreeBacked.steady ((missingDirs l).run tx).2.disk) := by
  intro l
  induction l generalizing tx with
  | nil => exact ⟨rfl, rfl, id⟩
  | cons p above ih =>
    obtain ⟨hmoment, hsteady⟩ := ask_moment (FileSystem.exists?_looks p) tx
    have hanswer : ((ask (FileSystem.exists? p)).run tx).1 = tx.moment.tree.exists? p :=
      TreeBacked.exists?_answer p tx.disk
    unfold missingDirs
    rw [StateT.run_bind]
    generalize (ask (FileSystem.exists? p)).run tx = out at hmoment hsteady hanswer ⊢
    obtain ⟨there, tx₁⟩ := out
    dsimp only at hmoment hsteady hanswer
    subst hanswer
    rw [List.takeWhile_cons]
    cases tx.moment.tree.exists? p with
    | true => exact ⟨rfl, hmoment, hsteady⟩
    | false =>
      obtain ⟨hlist, hmoment₁, hsteady₁⟩ := ih tx₁
      rw [hmoment] at hlist hmoment₁
      exact ⟨congrArg (p :: ·) hlist, hmoment₁, fun h => hsteady₁ (hsteady h)⟩

theorem takeWhile_free {t : Tree} (h : t.WellFormed) {d : Place} (hd : t.get? d ≠ none) : ∀ {rest : List String},
    (∀ s ∈ d ++ rest, IsName s) → (∀ q ∈ chain d rest, t.get? q = none) →
    ((d ++ rest).inits.reverse.map pathOf).takeWhile (fun p => !t.exists? p) = (chain d rest).reverse.map pathOf := by
  intro rest
  induction rest using List.reverseRecOn with
  | nil =>
    intro hnames _
    rw [List.append_nil] at hnames ⊢
    have hthere : t.exists? (pathOf d) = true := (Tree.exists?_names_iff h hnames).mpr hd
    have hlist : d.inits.reverse.map pathOf = pathOf d :: (d.inits.reverse.map pathOf).tail := by
      cases d using List.reverseRecOn with
      | nil => rfl
      | append_singleton d s => rw [Path.upwards_concat, List.tail_cons]
    rw [hlist, List.takeWhile_cons, hthere]
    rfl
  | append_singleton rest s ih =>
    intro hnames hfree
    rw [← List.append_assoc] at hnames
    rw [chain_concat] at hfree ⊢
    have hgone : t.exists? (pathOf (d ++ rest ++ [s])) = false := by
      rw [← Bool.not_eq_true, Tree.exists?_names_iff h hnames]
      exact not_not.mpr (hfree _ (by simp))
    rw [← List.append_assoc, Path.upwards_concat, List.takeWhile_cons, hgone, ih (fun n hn => hnames n (List.mem_append_left _ hn))
      fun q hq => hfree q (List.mem_append_left _ hq)]
    simp

/-- Making a place a directory, when those on the way down that are missing are noted. -/
theorem ensured_of_makeDirs {m : Moment} (h : m.tree.WellFormed) {place : Place} (hplace : ∀ s ∈ place, IsName s)
    {missing : List Path} (hmissing : missing = (pathOf place).ancestors.takeWhile fun p => !m.tree.exists? p) :
    (missing = [] → Ensured m place m) ∧ ∀ t, m.tree.makeDirs (pathOf place) = .ok t →
      Ensured m place { m with tree := t, createdDirs := m.createdDirs ++ missing.reverse } := by
  obtain ⟨d, rest, rfl, hd, hfree⟩ := exists_last_taken m.tree place
  rw [Path.ancestors_pathOf fun s hs => (hplace s hs).1, takeWhile_free h hd hplace hfree] at hmissing
  refine ⟨fun hnone => .there ?_, fun t ht => ?_⟩
  · cases rest with
    | nil => simpa using hd
    | cons s rest => simp [hnone, chain] at hmissing
  · have hgrown := Tree.makeDirs_ok h hplace ht
    rcases Tree.makeDirs_names h hplace with ⟨_, _, _, hclear⟩ | ⟨e, herror, _⟩
    · have hdir : m.tree.get? d = some .dir := by
        cases hget : m.tree.get? d with
        | none => exact absurd hget hd
        | some e =>
          rcases h.file_or_dir hget with rfl | ⟨b, rfl⟩
          · rfl
          · exact absurd hget (hclear d b (List.prefix_append _ _))
      rw [hmissing, ← List.map_reverse, List.reverse_reverse]
      exact .made d rest t rfl hdir hfree hgrown
    · rw [herror] at ht
      cases ht

/-- Those before the first ancestor that is there. -/
theorem missingDirs_runs (l : List Path) :
    Runs (At C P) (ExceptT.lift (missingDirs l) : Writing σ (List Path))
      (fun missing => At C fun m => P m ∧ missing = l.takeWhile fun p => !m.tree.exists? p)
      (fun tx => E tx.moment) := by
  rintro tx ⟨hm, hcalm⟩
  obtain ⟨hmissing, hmoment, hsteady⟩ := missingDirs_run tx l
  show At C (fun m => P m ∧ ((missingDirs l).run tx).1 = l.takeWhile fun p => !m.tree.exists? p)
    ((missingDirs l).run tx).2
  refine ⟨?_, fun h => hsteady (hcalm h)⟩
  rw [hmoment]
  exact ⟨hm, hmissing⟩

/-- A directory cannot be made when a file stands above it. -/
theorem ensureDir_runs (hP : ∀ m, P m → m.tree.WellFormed) {place : Place} (hplace : ∀ s ∈ place, IsName s)
    (hE : ∀ m, P m → m.tree.get? place = none → (C → ¬m.tree.Clear place) → E m) :
    Runs (At (σ := σ) C P) (ensureDir (pathOf place)) (fun _ => At C fun m' => ∃ m, P m ∧ Ensured m place m')
      (fun tx => E tx.moment) := by
  unfold ensureDir
  refine (missingDirs_runs _).bind fun missing => ?_
  by_cases hnone : missing = []
  · rw [hnone]
    rintro tx ⟨⟨hm, hmissing⟩, hcalm⟩
    exact ⟨⟨tx.moment, hm, (ensured_of_makeDirs (hP _ hm) hplace hmissing).1 rfl⟩, hcalm⟩
  · have hempty : missing.isEmpty = false := by simpa using hnone
    rw [hempty, if_neg (by simp)]
    refine (perform_runs (P := fun m => P m ∧ missing = (pathOf place).ancestors.takeWhile fun p => !m.tree.exists? p)
      _ (TreeBacked.makeDirs_acts _) fun m h hfault => hE m h.1 ?_ fun hs => ?_).bind fun _ => ?_
    · by_contra htaken
      obtain ⟨above, habove⟩ : ∃ above, (pathOf place).ancestors = pathOf place :: above := ⟨_, rfl⟩
      rw [habove, List.takeWhile_cons, (Tree.exists?_names_iff (hP m h.1) hplace).mpr htaken] at h
      exact hnone h.2
    · obtain ⟨fault, hfault⟩ := hfault hs
      rcases Tree.makeDirs_names (hP m h.1) hplace with ⟨t, hok, _⟩ | ⟨_, _, hclear⟩
      · rw [hok] at hfault
        cases hfault
      · exact hclear
    rintro tx ⟨⟨m, t, ⟨hm, hmissing⟩, hmake, htx⟩, hcalm⟩
    refine ⟨⟨m, hm, ?_⟩, hcalm⟩
    show Ensured m place { tx.moment with createdDirs := tx.moment.createdDirs ++ missing.reverse }
    rw [htx]
    exact (ensured_of_makeDirs (hP m hm) hplace hmissing).2 t hmake

/-- A path with a slash at its end is there as a directory, or nothing changes. -/
theorem ensureDir_slash_runs (hP : ∀ m, P m → m.tree.WellFormed) {place : Place} (hplace : ∀ s ∈ place, IsName s)
    (hne : place ≠ []) (hE : ∀ m, P m → m.tree.get? place ≠ some .dir → E m) :
    Runs (At (σ := σ) C P) (ensureDir (slashOf place))
      (fun _ => At C fun m => P m ∧ m.tree.get? place = some .dir) (fun tx => E tx.moment) := by
  unfold ensureDir
  refine (missingDirs_runs _).bind fun missing => ?_
  have hthere : ∀ m : Moment, P m → missing = (slashOf place).ancestors.takeWhile (fun p => !m.tree.exists? p) →
      (missing = [] ↔ m.tree.get? place = some .dir) := by
    intro m hm hmissing
    have hancestors : (slashOf place).ancestors = slashOf place :: (slashOf place).ancestors.tail := by
      unfold Path.ancestors
      rw [Path.ancestors.go]
      rfl
    rw [hmissing, hancestors, List.takeWhile_cons, ← Tree.exists?_slashOf_iff (hP m hm) hplace hne]
    cases m.tree.exists? (slashOf place) <;> simp
  by_cases hnone : missing = []
  · rw [hnone]
    rintro tx ⟨⟨hm, hmissing⟩, hcalm⟩
    exact ⟨⟨hm, (hthere _ hm (by rw [hnone, ← hmissing])).mp hnone⟩, hcalm⟩
  · have hempty : missing.isEmpty = false := by simpa using hnone
    rw [hempty, if_neg (by simp)]
    refine (perform_runs (P := fun m => P m ∧ missing = (slashOf place).ancestors.takeWhile fun p => !m.tree.exists? p)
      _ (TreeBacked.makeDirs_acts _) fun m h _ => hE m h.1 fun hdir => hnone ((hthere m h.1 h.2).mpr hdir)).bind
      fun _ => ?_
    rintro tx ⟨⟨m, t, ⟨hm, hmissing⟩, hmake, _⟩, _⟩
    have hdir : m.tree.get? place ≠ some .dir := fun hdir => hnone ((hthere m hm hmissing).mpr hdir)
    obtain ⟨e, herror⟩ := Tree.makeDirs_slashOf (hP m hm) hplace hne hdir
    rw [herror] at hmake
    cases hmake

end Transaction

end Refactor
