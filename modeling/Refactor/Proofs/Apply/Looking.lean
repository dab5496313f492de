import Refactor.Apply.Transaction
import Refactor.Proofs.Steps

/-!
# Looking without changing

Everything an apply does before its writing only looks at the file system.

* `FileSystem.Looks` — a state that calls which only look lead to
* `Workspace.Looked` — a workspace of which only the file system was looked at
* `Workspace.validate_looked`, `Workspace.prepare_looked` — the checks of an apply
-/

namespace Refactor

namespace FileSystem

variable {σ : Type} [FileSystem σ]

/-- One call that only looks. -/
inductive Look : σ → σ → Prop where
  | exists? (p : Path) (s : σ) : Look s ((FileSystem.exists? p).run s).2
  | isDir (p : Path) (s : σ) : Look s ((FileSystem.isDir p).run s).2
  | read (p : Path) (s : σ) : Look s ((FileSystem.read p).run s).2
  | dirsUnder (p : Path) (s : σ) : Look s ((FileSystem.dirsUnder p).run s).2
  | cancelled (s : σ) : Look s (FileSystem.cancelled.run s).2

/-- Calls that only look lead from one state to the other. -/
def Looks : σ → σ → Prop := Relation.ReflTransGen Look

instance : Std.Refl (Looks (σ := σ)) := ⟨fun _ => Relation.ReflTransGen.refl⟩

instance : IsTrans σ Looks := ⟨fun _ _ _ => Relation.ReflTransGen.trans⟩

theorem exists?_looks (p : Path) : Relates (Looks (σ := σ)) (FileSystem.exists? p) :=
  fun s => .single (.exists? p s)

theorem isDir_looks (p : Path) : Relates (Looks (σ := σ)) (FileSystem.isDir p) := fun s => .single (.isDir p s)

theorem read_looks (p : Path) : Relates (Looks (σ := σ)) (FileSystem.read p) := fun s => .single (.read p s)

theorem dirsUnder_looks (p : Path) : Relates (Looks (σ := σ)) (FileSystem.dirsUnder p) :=
  fun s => .single (.dirsUnder p s)

theorem cancelled_looks : Relates (Looks (σ := σ)) FileSystem.cancelled := fun s => .single (.cancelled s)

end FileSystem

open FileSystem

variable {σ : Type} [FileSystem σ]

/-! ## Checks -/

theorem checkChecksums_looks : ∀ l : List (Path × String), Relates (Looks (σ := σ)) (checkChecksums l).run
  | [] => Relates.pureExcept _
  | (p, _) :: rest => by
    unfold checkChecksums
    refine (read_looks p).lift.bindExcept fun r => ?_
    cases r with
    | error e => exact Relates.throwExcept _
    | ok b =>
      dsimp only
      split
      · exact checkChecksums_looks rest
      · exact Relates.throwExcept _

namespace Plan

theorem checkPresent_looks (p : Path) : Relates (Looks (σ := σ)) (checkPresent p).run := by
  refine (exists?_looks p).lift.bindExcept fun b => ?_
  cases b
  · exact Relates.throwExcept _
  · exact Relates.pureExcept _

theorem checkFree_looks (p : Path) (overwrite : Bool) : Relates (Looks (σ := σ)) (checkFree p overwrite).run := by
  cases overwrite
  · refine (exists?_looks p).lift.bindExcept fun b => ?_
    cases b
    · exact Relates.pureExcept _
    · exact Relates.throwExcept _
  · exact Relates.pureExcept _

theorem checkOperation_looks (op : FileOperation) : Relates (Looks (σ := σ)) (checkOperation op).run := by
  cases op with
  | move a b o => exact (checkPresent_looks a).bindExcept fun _ => checkFree_looks b o
  | create p c o => exact checkFree_looks p o
  | delete p => exact checkPresent_looks p

theorem checkTargets_looks (p : Plan) : Relates (Looks (σ := σ)) p.checkTargets.run := by
  refine (Relates.forMExcept _ fun f _ => checkPresent_looks f).bindExcept fun _ => ?_
  exact Relates.forMExcept _ fun op _ => checkOperation_looks op

end Plan

namespace Snapshots

theorem stateOf_looks (p : Path) : Relates (Looks (σ := σ)) (stateOf p) := by
  refine (read_looks p).bind fun r => ?_
  cases r <;> exact Relates.pure _

theorem captureAll_looks : ∀ (ps : List Path) (s : Snapshots), Relates (Looks (σ := σ)) (s.captureAll ps)
  | [], s => Relates.pure _
  | p :: ps, s => by
    unfold captureAll
    split
    · exact captureAll_looks ps s
    · refine (stateOf_looks p).bind fun r => ?_
      cases r with
      | ok state => exact captureAll_looks ps _
      | error e => exact Relates.pure _

end Snapshots

/-! ## Workspaces -/

namespace Workspace

/-- Only the file system of a workspace was touched, and it was only looked at. -/
def Looked (w w' : Workspace σ) : Prop := w' = { w with disk := w'.disk } ∧ Looks w.disk w'.disk

instance : Std.Refl (Looked (σ := σ)) := ⟨fun _ => ⟨rfl, .refl⟩⟩

instance : IsTrans (Workspace σ) Looked :=
  ⟨fun _ _ _ h h' => ⟨by rw [h'.1, h.1], h.2.trans h'.2⟩⟩

theorem ask_looked {α : Type} {f : StateM σ α} (h : Relates Looks f) : Relates Looked (Workspace.ask f) :=
  fun w => ⟨rfl, h w.disk⟩

theorem require_looked {c : Checking σ Unit} (h : Relates Looks c.run) : Relates Looked (require c).run :=
  ask_looked h

theorem heedCancel_looked (heeds : Bool) : Relates (Looked (σ := σ)) (heedCancel heeds).run := by
  refine require_looked ?_
  cases heeds
  · exact Relates.pureExcept _
  · refine cancelled_looks.lift.bindExcept fun b => ?_
    cases b
    · exact Relates.pureExcept _
    · exact Relates.throwExcept _

theorem validate_looked (plan : Plan) (heeds : Bool) : Relates (Looked (σ := σ)) (validate plan heeds).run := by
  refine (heedCancel_looked heeds).bindExcept fun _ => ?_
  refine (require_looked (checkChecksums_looks _)).bindExcept fun _ => ?_
  refine (require_looked (Relates.pure _)).bindExcept fun _ => ?_
  exact require_looked plan.checkTargets_looks

theorem prepare_looked (plan : Plan) (heeds : Bool) (result : ApplyResult) :
    Relates (Looked (σ := σ)) (prepare plan heeds result).run := by
  refine (heedCancel_looked heeds).bindExcept fun _ => ?_
  refine (require_looked (checkChecksums_looks _)).bindExcept fun _ => ?_
  refine (require_looked plan.checkTargets_looks).bindExcept fun _ => ?_
  refine (ask_looked (Snapshots.captureAll_looks _ _)).lift.bindExcept fun r => ?_
  obtain ⟨snapshots, _ | _⟩ := r
  · exact Relates.throwExcept _
  · exact (heedCancel_looked heeds).bindExcept fun _ => Relates.pureExcept _

end Workspace

end Refactor
