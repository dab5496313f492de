import Refactor.Proofs.Apply.Targets
import Refactor.Proofs.Planning.Records

/-!
# Stale plans

An apply looks at the checksum of every file of its plan before it writes. When one of the files is not as it was, the
apply ends there.

* `Plan.checkFresh_runs` — the check passes just when every checksum is that of the file as it is
* `Workspace.apply_stale` — a built plan is not applied when one of its files has changed
-/

set_option linter.unusedSectionVars false

namespace Refactor

variable {σ : Type} [TreeBacked σ] {t : Tree} {E : σ → Prop}

/-! ## Checksums -/

theorem read_runs (p : Path) : Runs (fun s : σ => TreeBacked.tree s = t) (Checking.ask (FileSystem.read p))
    (fun r s => TreeBacked.tree s = t ∧ r = (t.read p).mapError .system) E := by
  rintro s rfl
  show TreeBacked.tree ((FileSystem.read p).run s).2 = _ ∧ ((FileSystem.read p).run s).1 = _
  exact ⟨(TreeBacked.looks (FileSystem.read_looks p s)).1, TreeBacked.read_answer p s⟩

theorem checkChecksums_runs : ∀ l : List (Path × String), Runs (fun s : σ => TreeBacked.tree s = t) (checkChecksums l)
    (fun _ _ => t.HasChecksums l) (fun _ => ¬t.HasChecksums l)
  | [] => Runs.pure _ fun _ _ => by simp [Tree.HasChecksums]
  | (p, expected) :: rest => by
    unfold checkChecksums
    refine (read_runs p).bind fun r => ?_
    by_cases hr : r = (t.read p).mapError .system
    · subst hr
      have hfirst : t.HasChecksums ((p, expected) :: rest) ↔
          (∃ b, t.read p = .ok b ∧ Checksum.ofBytes b = expected) ∧ t.HasChecksums rest := List.forall_mem_cons
      rw [hfirst]
      cases hread : t.read p with
      | error fault =>
        refine Runs.throw _ ?_
        rintro _ _ ⟨⟨b, hb, _⟩, _⟩
        cases hb
      | ok b =>
        simp only [Except.mapError]
        split
        · rename_i hsame
          exact (checkChecksums_runs rest).conseq (fun _ h => h.1)
            (fun _ _ hrest => ⟨⟨b, rfl, beq_iff_eq.mp hsame⟩, hrest⟩) fun _ h hfresh => h hfresh.2
        · rename_i hdiffers
          refine Runs.throw _ ?_
          rintro _ _ ⟨⟨b', hb', hsame⟩, _⟩
          obtain rfl := Except.ok.inj hb'
          exact hdiffers (beq_iff_eq.mpr hsame)
    · exact fun _ h => absurd h.2 hr

/-- The check passes just when every checksum is that of the file as it is. -/
theorem Plan.checkFresh_runs (plan : Plan) : Runs (fun s : σ => TreeBacked.tree s = t) plan.checkFresh
    (fun _ _ => t.HasChecksums plan.checksums) (fun _ => ¬t.HasChecksums plan.checksums) :=
  checkChecksums_runs plan.checksums

namespace Workspace

variable {plan : Plan} {heeds : Bool} {w w₁ : Workspace σ}

/-- Whatever passes the first checks has fresh checksums. -/
theorem validate_fresh (h : (validate plan heeds).run.run w = (.ok (), w₁)) :
    (TreeBacked.tree w.disk).HasChecksums plan.checksums := by
  obtain ⟨_, w₂, hcancel, h⟩ := run_bind_ok h
  obtain ⟨_, w₃, hfresh, _⟩ := run_bind_ok h
  have hlooked := (heedCancel_looked heeds w).2
  rw [hcancel] at hlooked
  have hruns := plan.checkFresh_runs w₂.disk (TreeBacked.looks hlooked).1
  have hok : (plan.checkFresh.run w₂.disk).1 = .ok () := congrArg Prod.fst hfresh
  change After _ _ (plan.checkFresh.run w₂.disk) at hruns
  generalize plan.checkFresh.run w₂.disk = out at hok hruns
  obtain ⟨r, s⟩ := out
  dsimp only at hok
  subst hok
  exact hruns

/-- A plan one of whose checksums is not that of the file as it is ends an apply before it writes. -/
theorem apply_not_fresh (hstale : ∃ entry ∈ plan.checksums, ∀ b, (TreeBacked.tree w.disk).read entry.1 = .ok b →
      Checksum.ofBytes b ≠ entry.2) :
    ∃ e w', (apply plan heeds).run.run w = (.error e, w') ∧ TreeBacked.tree w'.disk = TreeBacked.tree w.disk := by
  have hlooked := validate_looked plan heeds w
  unfold apply begin
  rw [run_bindExcept, run_bindExcept]
  rcases hvalidate : (validate plan heeds).run.run w with ⟨e | _, w₁⟩
  · rw [hvalidate] at hlooked
    exact ⟨e, w₁, rfl, (TreeBacked.looks hlooked.2).1⟩
  · obtain ⟨entry, hentry, hdiffers⟩ := hstale
    obtain ⟨b, hread, hsame⟩ := validate_fresh hvalidate entry hentry
    exact absurd hsame (hdiffers b hread)

/-- A plan that was built for another tree is not applied, and nothing changes, when a file that it edits, moves or
deletes cannot be read as it could be there; the two contents, if there are two, must not have the same checksum. -/
theorem apply_stale {env : Planner} {root : Place} (henv : env.Sited root) {id : PlanId} {op : Operation}
    (hbuilds : Planning.Builds env id op plan) {p : Path} (hp : plan.edit.Affects p)
    (hchanged : (TreeBacked.tree w.disk).read p ≠ env.tree.read p)
    (hcollision : ∀ b b', env.tree.read p = .ok b → (TreeBacked.tree w.disk).read p = .ok b' →
      Checksum.ofBytes b' = Checksum.ofBytes b → b' = b) :
    ∃ e w', (apply plan heeds).run.run w = (.error e, w') ∧ TreeBacked.tree w'.disk = TreeBacked.tree w.disk := by
  obtain ⟨b, hread, hrecorded⟩ := (hbuilds.records henv).affected p hp
  refine apply_not_fresh ⟨_, hrecorded, fun b' hread' hsame => hchanged ?_⟩
  rw [hread', hread, hcollision b b' hread hread' hsame]

end Workspace

/-! ## A changed file -/

def Tree.holding (content : String) : Tree := ⟨[(["w"], .dir), (["w", "a"], .file (Bytes.ofText content))]⟩

theorem Tree.holding_wellFormed (content : String) : (Tree.holding content).WellFormed :=
  .ofEntries (by simp) (by simp [Tree.get?, Tree.isPlain]; decide)

namespace Workspace

/-- The deletion of a file, planned while it held something else. -/
theorem apply_stale_deletion : ∃ plan,
    Planning.Builds (.inDirectory (.holding "1")) ⟨1⟩ (.delete (.file ⟨"/w/a"⟩)) plan ∧
      ∃ e w', (apply plan false).run.run { root := ⟨"/w"⟩, disk := ({ tree := .holding "2" } : Disk) } = (.error e, w') ∧
        w'.disk.tree = .holding "2" := by
  obtain ⟨plan, hbuilds, hdeletes⟩ := Planning.exists_builds (.inDirectory (.holding "1")) ⟨1⟩
    (.delete (.file ⟨"/w/a"⟩)) (fun plan => plan.edit.operations.any fun op => op.source?.map (·.raw) == some "/w/a")
    (by decide +kernel)
  obtain ⟨op, hop, hsource⟩ := List.any_eq_true.mp hdeletes
  obtain ⟨a, ha, hraw⟩ := Option.map_eq_some_iff.mp (beq_iff_eq.mp hsource)
  obtain rfl : a = ⟨"/w/a"⟩ := congrArg Path.mk hraw
  have hread : (Tree.holding "1").read ⟨"/w/a"⟩ = .ok (Bytes.ofText "1") := by decide +kernel
  have hread' : (Tree.holding "2").read ⟨"/w/a"⟩ = .ok (Bytes.ofText "2") := by decide +kernel
  refine ⟨plan, hbuilds, apply_stale (Planner.inDirectory_rooted (Tree.holding_wellFormed "1")).sited hbuilds (Or.inr ⟨op, hop, ha⟩) ?_
    fun b b' hb hb' hsame => ?_⟩
  · exact fun h => absurd (hread'.symm.trans (h.trans hread)) (by decide +kernel)
  · rw [show b = Bytes.ofText "1" from (Except.ok.inj (hread.symm.trans hb)).symm,
      show b' = Bytes.ofText "2" from (Except.ok.inj (hread'.symm.trans hb')).symm] at hsame
    exact absurd hsame (by decide +kernel)

end Workspace

end Refactor
