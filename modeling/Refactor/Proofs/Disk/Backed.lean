import Refactor.Proofs.Apply.Looking
import Refactor.Proofs.Disk.Changes

/-!
# File systems over a tree

A file system whose files stand in a tree. A call that looks tells what the tree holds. A call that changes does to
the tree what it is asked to, or it fails and leaves the tree as it is; it may fail without a reason in the tree, as
long as the state is not steady.

* `TreeBacked` — such a file system
* `instTreeBackedDisk` — a disk with a mishap is one, and is steady when the mishap is over
-/

namespace Refactor

/-- A call that does `f` to the tree or fails without effect; from a steady state on, only `f` decides. -/
inductive Acts {σ : Type} (tree : σ → Tree) (steady : σ → Prop) (f : Tree → Except SystemFault Tree) (s : σ) :
    Except DiskError Unit × σ → Prop where
  | done (s' : σ) (tree_eq : f (tree s) = .ok (tree s')) (keeps : steady s → steady s') :
    Acts tree steady f s (.ok (), s')
  | failed (e : DiskError) (s' : σ) (tree_eq : tree s' = tree s)
    (keeps : steady s → steady s' ∧ ∃ fault, e = .system fault ∧ f (tree s) = .error fault) :
    Acts tree steady f s (.error e, s')

/-- A file system over a tree. -/
class TreeBacked (σ : Type) extends FileSystem σ where
  tree : σ → Tree
  /-- from here on no call fails without a reason in the tree -/
  steady : σ → Prop
  look : ∀ {s s' : σ}, FileSystem.Look s s' → tree s' = tree s ∧ (steady s → steady s')
  exists?_answer : ∀ p s, ((FileSystem.exists? p).run s).1 = (tree s).exists? p
  isDir_answer : ∀ p s, ((FileSystem.isDir p).run s).1 = (tree s).isDir p
  read_answer : ∀ p s, ((FileSystem.read p).run s).1 = ((tree s).read p).mapError .system
  dirsUnder_answer : ∀ p s, ((FileSystem.dirsUnder p).run s).1 = (tree s).dirsUnder p
  write_acts : ∀ p b s, Acts tree steady (·.write p b) s ((FileSystem.write p b).run s)
  rename_acts : ∀ p q s, Acts tree steady (·.rename p q) s ((FileSystem.rename p q).run s)
  removeFile_acts : ∀ p s, Acts tree steady (·.removeFile p) s ((FileSystem.removeFile p).run s)
  makeDirs_acts : ∀ p s, Acts tree steady (·.makeDirs p) s ((FileSystem.makeDirs p).run s)
  removeDir_acts : ∀ p s, Acts tree steady (·.removeDir p) s ((FileSystem.removeDir p).run s)

namespace TreeBacked

theorem looks {σ : Type} [TreeBacked σ] {s s' : σ} (h : FileSystem.Looks s s') :
    tree s' = tree s ∧ (steady s → steady s') := by
  induction h with
  | refl => exact ⟨rfl, id⟩
  | tail _ hlook ih =>
    obtain ⟨htree, hsteady⟩ := look hlook
    exact ⟨htree.trans ih.1, fun hs => hsteady (ih.2 hs)⟩

end TreeBacked

/-! ## Disks -/

namespace Disk

/-- The mishap of a disk is over. -/
def Steady (d : Disk) : Prop :=
  match d.mishap with
  | .none => True
  | .cancelAfter _ => True
  | .failOn count => count ≤ d.changes
  | .refuse _ => False

instance : DecidablePred Steady := fun
  | ⟨_, .none, _, _⟩ => isTrue trivial
  | ⟨_, .cancelAfter _, _, _⟩ => isTrue trivial
  | ⟨_, .failOn count, changes, _⟩ => inferInstanceAs (Decidable (count ≤ changes))
  | ⟨_, .refuse _, _, _⟩ => isFalse id

theorem settle_acts (d : Disk) (f : Tree → Except SystemFault Tree) :
    Acts Disk.tree Steady f d (d.settle (f d.tree)).swap := by
  cases hf : f d.tree with
  | ok t => exact .done _ hf id
  | error fault => exact .failed _ _ rfl fun hsteady => ⟨hsteady, fault, rfl, hf⟩

theorem count_spec (d : Disk) : d.count.tree = d.tree ∧ (d.Steady → d.count.Steady) := by
  unfold count Steady
  cases hmishap : d.mishap <;> simp [hmishap]

/-- Counting a change leaves the tree alone, and is no failure when the mishap is over. -/
theorem check_spec (d : Disk) (refusable named : Path) :
    (d.check refusable named).1.tree = d.tree ∧
      (d.Steady → (d.check refusable named).1.Steady ∧ (d.check refusable named).2 = .ok ()) := by
  unfold check Steady
  cases hmishap : d.mishap with
  | none => simp [hmishap]
  | cancelAfter k => simp [hmishap]
  | refuse p => simp
  | failOn k =>
    refine ⟨rfl, fun hk => ⟨?_, ?_⟩⟩
    · show k ≤ d.changes + 1
      omega
    · dsimp only
      rw [if_neg (by simp; omega)]

theorem change_acts (d : Disk) (refusable named : Path) (f : Tree → Except SystemFault Tree) :
    Acts Disk.tree Steady f d (d.change refusable named f).swap := by
  obtain ⟨htree, hsteady⟩ := check_spec d refusable named
  unfold change
  generalize d.check refusable named = checked at htree hsteady ⊢
  obtain ⟨d₁, e | _⟩ := checked
  · exact .failed _ _ htree fun hs => by cases (hsteady hs).2
  · dsimp only at htree hsteady ⊢
    have hacts := settle_acts d₁ f
    generalize d₁.settle (f d₁.tree) = settled at hacts ⊢
    obtain ⟨d₂, e | _⟩ := settled
    · cases hacts with
      | failed _ _ htree₂ hkeeps =>
        refine .failed _ _ (htree₂.trans htree) fun hs => ?_
        rw [← htree]
        exact hkeeps (hsteady hs).1
    · cases hacts with
      | done _ hok hkeeps =>
        refine .done _ ?_ fun hs => (count_spec d₂).2 (hkeeps (hsteady hs).1)
        rw [← htree, hok, (count_spec d₂).1]

instance : TreeBacked Disk where
  tree := Disk.tree
  steady := Steady
  look h := by cases h <;> exact ⟨rfl, id⟩
  exists?_answer _ _ := rfl
  isDir_answer _ _ := rfl
  read_answer p d := by
    show d.read p = _
    unfold Disk.read
    cases d.tree.read p <;> rfl
  dirsUnder_answer _ _ := rfl
  write_acts p b d := change_acts d p p _
  rename_acts p q d := change_acts d q p _
  removeFile_acts p d := settle_acts d _
  makeDirs_acts p d := settle_acts d _
  removeDir_acts p d := settle_acts d _

end Disk

end Refactor
