import Refactor.Proofs.Disk.Backed

/-!
# File systems that may fail at any call

A file system whose files stand in a tree, and whose every call may fail. A call that looks may refuse to answer, but it
says nothing that is wrong. A call that changes does to the tree what it is asked to, or it leaves all files as they
are; which directories it leaves when it fails is open.

* `Tree.content?` — the file that a path leads to
* `Tree.makeDirs_fileAt`, `Tree.removeDir_fileAt` — making and removing directories leaves all files alone
* `Fallible` — such a file system
* `instFallibleDisk` — a disk with a mishap is one
-/

namespace Refactor

namespace Tree

variable {t t' : Tree}

/-! ## Files -/

def content? (t : Tree) (p : Path) : Option ByteArray := (t.read p).toOption

theorem content?_names (h : t.WellFormed) {ss : Place} (hss : ∀ s ∈ ss, Path.IsName s) :
    t.content? (pathOf ss) = t.fileAt ss := by
  ext b
  rw [fileAt_eq_some_iff, ← finds_names_iff h hss, ← read_eq_ok_iff h]
  unfold content?
  cases t.read (pathOf ss) <;> simp [Except.toOption]

/-! ## Directories -/

theorem makeDir_fileAt (h : t.WellFormed) {p : Path} (hmake : t.makeDir p = .ok t') :
    t'.WellFormed ∧ t'.fileAt = t.fileAt := by
  unfold makeDir at hmake
  cases hlocate : t.locate false p with
  | error e => rw [hlocate] at hmake; cases hmake
  | ok place =>
    rw [hlocate] at hmake
    simp only [bind, Except.bind] at hmake
    obtain ⟨_, rfl, hroute⟩ := (locate_eq_ok_iff h false p place).mp hlocate
    split at hmake
    · cases hmake
    · rename_i hfree
      cases hmake
      obtain hdir | ⟨d, s, hplace, hs, hd, _⟩ := placeOf_cases h hroute
      · rw [hfree] at hdir
        cases hdir
      · rw [hplace] at hfree ⊢
        have hholds : t.Holds (d ++ [s]) (some .dir) (t.set (d ++ [s]) .dir) :=
          ⟨h.set hd hs (Or.inl rfl), get?_set (by simp) t _⟩
        exact ⟨hholds.wellFormed, hholds.fileAt_of_not_file (fun b => by rw [hfree]; simp) (by simp)⟩

theorem makeAll_fileAt (h : t.WellFormed) : ∀ {l : List Path} {t' : Tree}, t.makeAll l = .ok t' →
    t'.WellFormed ∧ t'.fileAt = t.fileAt
  | [], _, hmake => by
    cases hmake
    exact ⟨h, rfl⟩
  | p :: above, t', hmake => by
    unfold makeAll at hmake
    split at hmake
    · cases hmake
      exact ⟨h, rfl⟩
    -- the directory is made, or those above it first, or it is there
    split at hmake
    · rename_i hone
      cases hmake
      exact makeDir_fileAt h hone
    · cases habove : t.makeAll above with
      | error e => rw [habove] at hmake; cases hmake
      | ok t₁ =>
        obtain ⟨h₁, hsame⟩ := makeAll_fileAt h habove
        rw [habove] at hmake
        simp only [bind, Except.bind] at hmake
        split at hmake
        · rename_i hone
          cases hmake
          obtain ⟨h₂, hsame₂⟩ := makeDir_fileAt h₁ hone
          exact ⟨h₂, hsame₂.trans hsame⟩
        · split at hmake <;> cases hmake
          exact ⟨h₁, hsame⟩
    · split at hmake <;> cases hmake
      exact ⟨h, rfl⟩

/-- Making directories leaves all files alone, wherever the path leads. -/
theorem makeDirs_fileAt (h : t.WellFormed) {p : Path} (hmake : t.makeDirs p = .ok t') :
    t'.WellFormed ∧ t'.fileAt = t.fileAt := makeAll_fileAt h hmake

/-- Removing a directory leaves all files alone, wherever the path leads. -/
theorem removeDir_fileAt (h : t.WellFormed) {p : Path} (hremove : t.removeDir p = .ok t') :
    t'.WellFormed ∧ t'.fileAt = t.fileAt := by
  unfold removeDir at hremove
  cases hentry : t.entry false p with
  | error e => rw [hentry] at hremove; cases hremove
  | ok found =>
    obtain ⟨place, e⟩ := found
    rw [hentry] at hremove
    simp only [bind, Except.bind] at hremove
    obtain ⟨rfl, _, _, hget⟩ := (entry_eq_ok_iff_finds h false p place e).mp hentry
    split at hremove
    · split at hremove
      · rename_i hempty
        cases hremove
        by_cases hne : placeOf p = []
        · -- the top stays when it is removed
          have hsame : t.erase (placeOf p) = t := by
            rw [hne]
            unfold erase
            rw [List.filter_eq_self.mpr fun entry hentry => by simpa using (h.names _ entry.2 hentry).1]
          rw [hsame]
          exact ⟨h, rfl⟩
        · have hholds : t.Holds (placeOf p) none (t.erase (placeOf p)) :=
            ⟨h.erase hne ((children_isEmpty_iff t _).mp hempty), get?_erase hne t⟩
          exact ⟨hholds.wellFormed, hholds.fileAt_of_dir hget⟩
      · cases hremove
    · cases hremove

end Tree

/-! ## Calls that may fail -/

/-- A call that does `f` to the tree, or fails and leaves a tree with the same files. -/
inductive Tries {σ : Type} (tree : σ → Tree) (f : Tree → Except SystemFault Tree) (s : σ) :
    Except DiskError Unit × σ → Prop where
  | done (s' : σ) (tree_eq : f (tree s) = .ok (tree s')) : Tries tree f s (.ok (), s')
  | failed (e : DiskError) (s' : σ) (wellFormed : (tree s).WellFormed → (tree s').WellFormed)
    (files : (tree s').fileAt = (tree s).fileAt) : Tries tree f s (.error e, s')

/-- A file system over a tree that may fail at any call, when it looks and when it changes. What is read is what is there;
only what is not there is said not to be found. -/
class Fallible (σ : Type) extends FileSystem σ where
  tree : σ → Tree
  look : ∀ {s s' : σ}, FileSystem.Look s s' → tree s' = tree s
  exists?_sound : ∀ p s, ((FileSystem.exists? p).run s).1 = true → (tree s).exists? p = true
  read_sound : ∀ p s b, ((FileSystem.read p).run s).1 = .ok b → (tree s).read p = .ok b
  read_missing : ∀ p s e, ((FileSystem.read p).run s).1 = .error e → e.isNotFound = true →
    (tree s).read p = .error .notFound
  write_tries : ∀ p b s, Tries tree (·.write p b) s ((FileSystem.write p b).run s)
  rename_tries : ∀ p q s, Tries tree (·.rename p q) s ((FileSystem.rename p q).run s)
  removeFile_tries : ∀ p s, Tries tree (·.removeFile p) s ((FileSystem.removeFile p).run s)
  removeFile_missing : ∀ p s e, ((FileSystem.removeFile p).run s).1 = .error e → e.isNotFound = true →
    (tree s).removeFile p = .error .notFound
  makeDirs_tries : ∀ p s, Tries tree (·.makeDirs p) s ((FileSystem.makeDirs p).run s)
  removeDir_tries : ∀ p s, Tries tree (·.removeDir p) s ((FileSystem.removeDir p).run s)

namespace Fallible

theorem looks {σ : Type} [Fallible σ] {s s' : σ} (h : FileSystem.Looks s s') : tree s' = tree s := by
  induction h with
  | refl => rfl
  | tail _ hlook ih => exact (look hlook).trans ih

/-- Whether something is at a path is told as it is. -/
def Candid (σ : Type) [Fallible σ] (p : Path) : Prop :=
  ∀ s : σ, ((FileSystem.exists? p).run s).1 = (tree s).exists? p

end Fallible

/-! ## Disks -/

theorem Acts.tries {σ : Type} {tree : σ → Tree} {steady : σ → Prop} {f : Tree → Except SystemFault Tree} {s : σ}
    {out : Except DiskError Unit × σ} (h : Acts tree steady f s out) : Tries tree f s out := by
  cases h with
  | done s' htree _ => exact .done s' htree
  | failed e s' htree _ => exact .failed e s' (fun h => htree ▸ h) (by rw [htree])

namespace Disk

theorem isNotFound_system {fault : SystemFault} (h : (DiskError.system fault).isNotFound = true) :
    fault = .notFound := by
  unfold DiskError.isNotFound at h
  simpa using h

instance : Fallible Disk where
  tree := Disk.tree
  look h := by cases h <;> rfl
  exists?_sound _ _ h := h
  read_sound p d b h := by
    have hread := TreeBacked.read_answer p d
    rw [h] at hread
    cases hb : d.tree.read p with
    | ok c => rw [show (TreeBacked.tree d).read p = .ok c from hb] at hread; cases hread; rfl
    | error fault => rw [show (TreeBacked.tree d).read p = .error fault from hb] at hread; cases hread
  read_missing p d e h hmissing := by
    have hread := TreeBacked.read_answer p d
    rw [h] at hread
    cases hb : d.tree.read p with
    | ok c => rw [show (TreeBacked.tree d).read p = .ok c from hb] at hread; cases hread
    | error fault =>
      rw [show (TreeBacked.tree d).read p = .error fault from hb] at hread
      cases hread
      rw [isNotFound_system hmissing]
  write_tries p b d := (TreeBacked.write_acts p b d).tries
  rename_tries p q d := (TreeBacked.rename_acts p q d).tries
  removeFile_tries p d := (TreeBacked.removeFile_acts p d).tries
  removeFile_missing p d e h hmissing := by
    have hsettled : (d.settle (d.tree.removeFile p)).2 = .error e := h
    unfold settle at hsettled
    split at hsettled
    · cases hsettled
    · rename_i fault hfault
      cases hsettled
      rw [hfault, isNotFound_system hmissing]
  makeDirs_tries p d := (TreeBacked.makeDirs_acts p d).tries
  removeDir_tries p d := (TreeBacked.removeDir_acts p d).tries

theorem candid (p : Path) : Fallible.Candid Disk p := fun _ => rfl

end Disk

end Refactor
