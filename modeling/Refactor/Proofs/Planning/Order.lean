import Mathlib.Data.List.Perm.Basic
import Refactor.Proofs.Edit.Validate
import Refactor.Proofs.Planning.Records
import Refactor.Proofs.Reference.SameMoves

/-!
# The order of the moves of a batch

The checks of a batch make its moves so different that nothing of what is planned depends on their order: the files
that different moves take along are different, so they go into the map of moves in any order, at most one moved
directory holds a path, and the merger looks at the file operations in pairs.

* `MoveSpec.Apart` — two moves of a batch that passes the checks
* `Planning.planBatch_eq` — a batch that passes the checks goes on to its moves one by one
* `Planning.planChecked_perm`, `Planning.planBatch_perm` — drafts of moves in another order
* `Planning.build_batch_perm` — plans of a batch in another order
-/

namespace Refactor

/-- Two moves that get on with each other: they have different destinations, neither goes to or into what the other
one moves, and neither moves what is inside of what the other one moves. -/
structure MoveSpec.Apart (a b : MoveSpec) : Prop where
  destinations : (a.destination == b.destination) = false
  before : a.destination.startsWith b.source = false
  after : b.destination.startsWith a.source = false
  inside : a.source.startsWith b.source = false
  around : b.source.startsWith a.source = false

theorem MoveSpec.Apart.symm {a b : MoveSpec} (h : a.Apart b) : b.Apart a where
  destinations := by rw [Path.beq_comm]; exact h.destinations
  before := h.after
  after := h.before
  inside := h.around
  around := h.inside

/-- Two drafts with the same text edits, warnings and dependents, and with the same operations in some order. -/
structure Draft.Agrees (d d' : Draft) : Prop where
  changes : d.edit.changes = d'.edit.changes
  operations : d.edit.operations.Perm d'.edit.operations
  warnings : d.warnings = d'.warnings
  dependents : d.dependents = d'.dependents

/-- Two plans with the same text edits of each file, checksums, warnings and dependents, and with the same operations in
some order. -/
structure Plan.Agrees (p p' : Plan) : Prop where
  changes : p.edit.changes = p'.edit.changes
  operations : p.edit.operations.Perm p'.edit.operations
  checksums : p.checksums = p'.checksums
  warnings : p.warnings = p'.warnings
  impact : p.impact = p'.impact

/-! ## Paths inside of others -/

theorem Path.startsWith_of_beq {p q : Path} (h : (p == q) = true) : p.startsWith q = true := by
  rw [startsWith_iff, (beq_iff p q).mp h]

theorem Path.startsWith_total {p q q' : Path} (h : p.startsWith q = true) (h' : p.startsWith q' = true) :
    q.startsWith q' = true ∨ q'.startsWith q = true := by
  rw [startsWith_iff] at h h' ⊢
  rw [startsWith_iff]
  exact (List.prefix_or_prefix_of_prefix h h').symm

/-- Paths inside of two paths neither of which holds the other are different. -/
theorem Path.not_beq_of_apart {p p' q q' : Path} (h : p.startsWith q = true) (h' : p'.startsWith q' = true)
    (hinside : q.startsWith q' = false) (haround : q'.startsWith q = false) : (p == p') = false := by
  rw [← Bool.not_eq_true]
  intro heq
  have hsame : p.startsWith q' = true := by
    rw [startsWith_iff, (beq_iff p p').mp heq, ← startsWith_iff]
    exact h'
  rcases startsWith_total h hsame with hin | hin
  · rw [hinside] at hin
    cases hin
  · rw [haround] at hin
    cases hin

theorem Path.startsWith_of_rebase? {p old new place : Path} (h : p.rebase? old new = some place) :
    p.startsWith old = true := by
  by_contra hout
  simp [rebase?, stripLead?, hout] at h

namespace Planning

variable {env : Planner}

/-! ## Conflicts -/

theorem of_mem_pairs {α : Type} {xs : List α} {a b : α} (h : (a, b) ∈ pairs xs) :
    ∃ i j : Nat, i ≠ j ∧ xs[i]? = some a ∧ xs[j]? = some b := by
  have hnumbered : ∀ {k : Nat} {c : α}, (k, c) ∈ (List.range xs.length).zip xs → xs[k]? = some c := by
    intro k c hc
    obtain ⟨n, hn, heq⟩ := List.mem_iff_getElem.mp hc
    rw [List.getElem_zip, List.getElem_range, Prod.mk.injEq] at heq
    obtain ⟨rfl, rfl⟩ := heq
    exact List.getElem?_eq_getElem _
  obtain ⟨⟨i, a'⟩, hi, hinner⟩ := List.mem_flatMap.mp h
  obtain ⟨⟨j, b'⟩, hj, heq⟩ := List.mem_map.mp hinner
  cases heq
  obtain ⟨hmem, hne⟩ := List.mem_filter.mp hj
  exact ⟨i, j, by simpa using Ne.symm (by simpa using hne), hnumbered hi, hnumbered hmem⟩

theorem checks_yield (ms : List MoveSpec) : Yields env (do
    checkDestinations ms []
    (pairs ms).forM fun ab => checkPair ab.1 ab.2) fun _ => ms.Pairwise MoveSpec.Apart := by
  refine checkDestinations_yields.bind fun _ ⟨_, hdestinations⟩ => ?_
  refine (Yields.forM fun ab _ => checkPair_yields ab.1 ab.2).mono fun _ hpairs => ?_
  rw [List.pairwise_iff_getElem] at hdestinations ⊢
  intro i j hi hj hij
  obtain ⟨hbefore, hinside⟩ := hpairs (ms[i], ms[j])
    (mem_pairs hij.ne (List.getElem?_eq_getElem hi) (List.getElem?_eq_getElem hj))
  obtain ⟨hafter, haround⟩ := hpairs (ms[j], ms[i])
    (mem_pairs hij.ne' (List.getElem?_eq_getElem hj) (List.getElem?_eq_getElem hi))
  exact ⟨hdestinations i j hi hj hij, hbefore, hafter, hinside, haround⟩

theorem checkDestinations_of : ∀ {ms before : List MoveSpec},
    (∀ m ∈ ms, ∀ b ∈ before, (b.destination == m.destination) = false) → ms.Pairwise MoveSpec.Apart →
    checkDestinations ms before = pure ()
  | [], _, _, _ => rfl
  | m :: ms, before, hbefore, hapart => by
    obtain ⟨hfirst, hrest⟩ := List.pairwise_cons.mp hapart
    have hnone : before.find? (fun b => b.destination == m.destination) = none :=
      List.find?_eq_none.mpr fun b hb => by simp [hbefore m (by simp) b hb]
    unfold checkDestinations
    rw [hnone]
    refine checkDestinations_of (fun m' hm' b hb => ?_) hrest
    rcases List.mem_cons.mp hb with rfl | hb
    · exact (hfirst m' hm').destinations
    · exact hbefore m' (List.mem_cons_of_mem _ hm') b hb

theorem checkPair_of {a b : MoveSpec} (h : a.Apart b) : checkPair a b = pure () := by
  have hne : (a.destination == b.source) = false := by
    rw [← Bool.not_eq_true]
    intro heq
    have hin := Path.startsWith_of_beq heq
    rw [h.before] at hin
    cases hin
  simp [checkPair, hne, h.before, h.inside]

theorem forM_pure {α : Type} {f : α → Planning Unit} : ∀ {l : List α}, (∀ a ∈ l, f a = pure ()) → l.forM f = pure ()
  | [], _ => rfl
  | a :: l, h => by
    have ih := forM_pure fun b hb => h b (List.mem_cons_of_mem a hb)
    show (f a >>= fun _ => l.forM f) = _
    rw [h a (by simp), pure_bind, ih]

/-- A batch of moves that get on with each other goes on to its moves one by one. -/
theorem planBatch_eq {ms : List MoveSpec} (hne : ms ≠ []) (hapart : ms.Pairwise MoveSpec.Apart) (overwrite : Bool) :
    planBatch ms overwrite = (do
      let checked ← ms.mapM fun m => checkMove m.source m.destination overwrite none
      planChecked checked overwrite) := by
  have hpairs : (pairs ms).forM (fun ab => checkPair ab.1 ab.2) = pure () := by
    refine forM_pure fun ab hab => checkPair_of ?_
    obtain ⟨i, j, hij, ha, hb⟩ := of_mem_pairs hab
    obtain ⟨hi, hai⟩ := List.getElem?_eq_some_iff.mp ha
    obtain ⟨hj, hbj⟩ := List.getElem?_eq_some_iff.mp hb
    rw [← hai, ← hbj]
    rcases Nat.lt_or_gt_of_ne hij with hlt | hlt
    · exact List.pairwise_iff_getElem.mp hapart i j hi hj hlt
    · exact (List.pairwise_iff_getElem.mp hapart j i hj hi hlt).symm
  unfold planBatch
  rw [if_neg (by simpa using hne), checkDestinations_of (by simp) hapart, pure_bind]
  show (pairs ms).forM (fun ab => checkPair ab.1 ab.2) >>= _ = _
  rw [hpairs, pure_bind]

theorem planBatch_apart (ms : List MoveSpec) (overwrite : Bool) :
    Yields env (planBatch ms overwrite) fun _ => ms ≠ [] ∧ ms.Pairwise MoveSpec.Apart := by
  unfold planBatch
  refine Yields.unlessThrow fun hne => ?_
  have hchecks : Yields env _ _ := checks_yield ms
  rw [← bind_assoc]
  refine hchecks.bind fun _ hapart => Yields.andThen fun _ => ?_
  exact (Yields.any _).mono fun _ _ => ⟨by simpa using hne, hapart⟩

/-! ## Files -/

theorem expandFiles_still (overwrite : Bool) (source destination : Path) : ∀ files : List Path,
    Still env (expandFiles overwrite source destination files)
  | [] => Still.pure _
  | file :: rest => by
    have ih := expandFiles_still overwrite source destination rest
    unfold expandFiles
    split
    · exact ih
    · rename_i place _
      have hgo : Still env (do return (file, place) :: (← expandFiles overwrite source destination rest)) :=
        ih.bind fun _ => Still.pure _
      cases overwrite with
      | true => exact hgo
      | false => exact (Still.exists? place).bind fun _ => Still.unlessThrow hgo

theorem expandMove_still (overwrite : Bool) (m : CheckedMove) : Still env (expandMove overwrite m) := by
  unfold expandMove
  split
  · exact Still.pure _
  · refine Still.readBind <| (Still.ofExcept _).bind fun files => ?_
    exact Still.unlessThrowOf (Still.shown m.source) (expandFiles_still _ _ _ _)

theorem expandFiles_inside (overwrite : Bool) (source destination : Path) : ∀ files : List Path,
    Yields env (expandFiles overwrite source destination files) fun moved => ∀ ab ∈ moved, ab.1.startsWith source = true
  | [] => Yields.pure (by simp)
  | file :: rest => by
    have ih := expandFiles_inside overwrite source destination rest
    unfold expandFiles
    split
    · exact ih
    · rename_i place hrebase
      have hgo : Yields env (do return (file, place) :: (← expandFiles overwrite source destination rest))
          fun moved => ∀ ab ∈ moved, ab.1.startsWith source = true :=
        ih.bind fun moved hmoved =>
          Yields.pure (List.forall_mem_cons.mpr ⟨Path.startsWith_of_rebase? hrebase, hmoved⟩)
      cases overwrite with
      | true => exact hgo
      | false => exact Yields.andThen fun _ => Yields.unlessThrow fun _ => hgo

theorem expandMove_inside (overwrite : Bool) (m : CheckedMove) :
    Yields env (expandMove overwrite m) fun moved => ∀ ab ∈ moved, ab.1.startsWith m.source = true := by
  unfold expandMove
  split
  · refine Yields.pure ?_
    have hself : m.source.startsWith m.source = true := Path.startsWith_of_beq BEq.rfl
    simpa using hself
  · exact Yields.readBind <| Yields.andThen fun _ => Yields.unlessThrowOf fun _ => expandFiles_inside _ _ _ _

/-! ## Drafts -/

/-- What holds of every two members of a list holds of their counterparts. -/
theorem pairwise_of_forall₂ {α β : Type} {r : α → β → Prop} {R : α → α → Prop} {R' : β → β → Prop} {l : List α}
    {l' : List β} (h : List.Forall₂ r l l') (hl : l.Pairwise R)
    (hr : ∀ a b a' b', r a a' → r b b' → R a b → R' a' b') : l'.Pairwise R' := by
  rw [List.pairwise_iff_getElem] at hl ⊢
  intro i j hi hj hij
  have hlength := h.length_eq
  have hi' : i < l.length := by omega
  have hj' : j < l.length := by omega
  exact hr _ _ _ _ (h.get hi' hi) (h.get hj' hj) (hl i j hi' hj' hij)

/-- Two checked moves neither of which moves what is inside of what the other one moves. -/
def CheckedMove.Apart (a b : CheckedMove) : Prop :=
  a.source.startsWith b.source = false ∧ b.source.startsWith a.source = false

/-- What moves where when checked moves take these files along. -/
def contextOf (checked : List CheckedMove) (moved : List (List (Path × Path))) : Moves where
  files := PathMap.ofList moved.flatten
  dirs := (checked.filter (·.kind == .directory)).map fun m => (m.source, m.destination)

/-- What moves say does not depend on their order when they move different things. -/
theorem context_same {checked checked' : List CheckedMove} (h : checked.Perm checked')
    (hapart : checked.Pairwise CheckedMove.Apart) {moved moved' : List (List (Path × Path))} (hperm : moved.Perm moved')
    (hmoved : List.Forall₂ (fun m files => ∀ ab ∈ files, ab.1.startsWith m.source = true) checked moved) :
    (contextOf checked moved).Same (contextOf checked' moved') := by
  have hfiles : PathMap.ofList moved.flatten = PathMap.ofList moved'.flatten := by
    refine PathMap.ofList_flatten_perm hperm (pairwise_of_forall₂ hmoved hapart ?_)
    intro a b files files' hfiles hfiles' hab entry hentry entry' hentry'
    exact Path.not_beq_of_apart (hfiles entry hentry) (hfiles' entry' hentry') hab.1 hab.2
  refine ⟨hfiles, fun p => ?_⟩
  unfold Moves.newLocation? contextOf
  dsimp only
  rw [hfiles]
  congr 1
  refine findSome?_perm ((h.filter _).map _) (List.pairwise_map.mpr ((hapart.filter _).imp fun {a b} hab => ?_))
  cases ha : p.rebase? a.source a.destination with
  | none => exact Or.inl rfl
  | some place =>
    refine Or.inr ?_
    cases hb : p.rebase? b.source b.destination with
    | none => rfl
    | some place' =>
      have hdiffers := Path.not_beq_of_apart (Path.startsWith_of_rebase? ha) (Path.startsWith_of_rebase? hb) hab.1 hab.2
      rw [BEq.rfl] at hdiffers
      cases hdiffers

/-- The draft of files that move, with the edits that keep references valid. -/
def draftWith (found : ReferenceEdits) (overwrite : Bool) (moved : List (Path × Path)) : Draft where
  edit := moved.foldl (fun e ab => e.addOperation (.move ab.1 ab.2 overwrite)) found.edit
  warnings := found.warnings
  dependents := found.dependents

theorem draftWith_agrees (found : ReferenceEdits) (overwrite : Bool) {moved moved' : List (Path × Path)}
    (h : moved.Perm moved') : (draftWith found overwrite moved).Agrees (draftWith found overwrite moved') := by
  have hedit : ∀ moved, (draftWith found overwrite moved).edit =
      { found.edit with
        operations := found.edit.operations ++ moved.map fun ab => .move ab.1 ab.2 overwrite } := fun moved =>
    WorkspaceEdit.addOperations_eq (fun ab : Path × Path => .move ab.1 ab.2 overwrite) moved found.edit
  constructor
  · rw [hedit, hedit]
  · rw [hedit, hedit]
    exact (h.map _).append_left _
  · rfl
  · rfl

/-- Checked moves list their files, have the edits of references planned, and are drafted with both. -/
theorem planChecked_eq (checked : List CheckedMove) (overwrite : Bool) : planChecked checked overwrite = (do
    let moved ← checked.mapM (expandMove overwrite)
    let found ← search fun r t => r.planMoves t (contextOf checked moved)
    return draftWith found overwrite moved.flatten) := rfl

/-- Checked moves of different things get the same draft in every order. -/
theorem planChecked_perm {checked checked' : List CheckedMove} (h : checked.Perm checked')
    (hapart : checked.Pairwise CheckedMove.Apart) {overwrite : Bool} {s s₁ : PlanningState} {d : Draft}
    (hrun : ((planChecked checked overwrite).run env).run.run s = (.ok d, s₁)) :
    ∃ d', ((planChecked checked' overwrite).run env).run.run s = (.ok d', s₁) ∧ d.Agrees d' := by
  rw [planChecked_eq] at hrun
  obtain ⟨moved, s₂, hmoved, hrest⟩ := run_bind_inv hrun
  obtain ⟨hanswers, rfl⟩ := Still.mapM_ok (expandMove_still overwrite) hmoved
  obtain ⟨moved', hanswers', hperm⟩ := List.perm_comp_forall₂ h.symm hanswers
  have hinside : List.Forall₂ (fun m files => ∀ ab ∈ files, ab.1.startsWith m.source = true) checked moved :=
    hanswers.imp fun m _ hm => hm.of_yields (expandMove_inside overwrite m)
  have hsame := context_same h hapart hperm.symm hinside
  obtain ⟨found, s₃, hfound, hend⟩ := run_bind_inv hrest
  cases hend
  simp only [References.planMoves_congr hsame] at hfound
  refine ⟨draftWith found overwrite moved'.flatten, ?_, draftWith_agrees found overwrite hperm.symm.flatten⟩
  rw [planChecked_eq, run_bind_of_ok (Answers.mapM hanswers' s₂), run_bind_of_ok hfound]
  rfl

/-- Moves of a batch get the same draft in every order. -/
theorem planBatch_perm {ms ms' : List MoveSpec} (h : ms.Perm ms') {overwrite : Bool} {s s₁ : PlanningState} {d : Draft}
    (hrun : ((planBatch ms overwrite).run env).run.run s = (.ok d, s₁)) :
    ∃ d', ((planBatch ms' overwrite).run env).run.run s = (.ok d', s₁) ∧ d.Agrees d' := by
  obtain ⟨hne, hapart⟩ := planBatch_apart ms overwrite s d s₁ hrun
  have hne' : ms' ≠ [] := fun hnil => hne (by rw [hnil] at h; exact h.eq_nil)
  have hapart' : ms'.Pairwise MoveSpec.Apart := h.pairwise hapart MoveSpec.Apart.symm
  rw [planBatch_eq hne hapart] at hrun
  obtain ⟨checked, s₂, hchecked, hrest⟩ := run_bind_inv hrun
  have hstill : ∀ m : MoveSpec, Still env (checkMove m.source m.destination overwrite none) := fun m =>
    checkMove_still m.source m.destination overwrite none
  obtain ⟨hanswers, rfl⟩ := Still.mapM_ok hstill hchecked
  obtain ⟨checked', hanswers', hperm⟩ := List.perm_comp_forall₂ h.symm hanswers
  have hsources : checked.Pairwise CheckedMove.Apart := by
    refine pairwise_of_forall₂ hanswers hapart fun a b a' b' ha hb hab => ?_
    have hsource : a'.source = a.source := (ha.of_yields (checkMove_yields _ _ _ _)).source_eq
    have hsource' : b'.source = b.source := (hb.of_yields (checkMove_yields _ _ _ _)).source_eq
    rw [CheckedMove.Apart, hsource, hsource']
    exact ⟨hab.inside, hab.around⟩
  obtain ⟨d', hrun', hagrees⟩ := planChecked_perm hperm.symm hsources hrest
  have hchecked' : ((ms'.mapM fun m => checkMove m.source m.destination overwrite none).run env).run.run s₂ =
      (.ok checked', s₂) := Answers.mapM hanswers' s₂
  refine ⟨d', ?_, hagrees⟩
  rw [planBatch_eq hne' hapart', run_bind_of_ok hchecked']
  exact hrun'

end Planning

/-! ## Plans -/

namespace WorkspaceEdit

/-- One edit as merging leaves it: each distinct text edit of a file once, sorted. -/
def united (w : WorkspaceEdit) : WorkspaceEdit :=
  let all := union {} w
  { all with changes := (all.changes.map fun file => (file.1, TextEdit.sorted file.2)).filter (!·.2.isEmpty) }

theorem merge_eq_ok_iff (w e : WorkspaceEdit) : merge [w] = .ok e ↔ w.united = e ∧ e.validate = .ok () :=
  merge_eq_ok_iff_combined

/-- Merging does not look at the order of the operations. -/
theorem merge_perm {w w' e : WorkspaceEdit} (h : merge [w] = .ok e) (hchanges : w.changes = w'.changes)
    (hoperations : w.operations.Perm w'.operations) :
    ∃ e', merge [w'] = .ok e' ∧ e'.changes = e.changes ∧ e.operations.Perm e'.operations := by
  obtain ⟨rfl, hvalid⟩ := (merge_eq_ok_iff w e).mp h
  have hunited : w'.united.changes = w.united.changes := by simp only [united, union, hchanges]
  have hperm : w.united.operations.Perm w'.united.operations := hoperations.append_left _
  exact ⟨w'.united, (merge_eq_ok_iff w' _).mpr ⟨rfl, validate_perm hvalid hunited hperm⟩, hunited, hperm⟩

end WorkspaceEdit

namespace Planning

variable {env : Planner}

/-- The files whose checksums are recorded do not depend on the order of the operations. -/
theorem checksummed_perm {e e' : WorkspaceEdit} (hchecked : e.Checked) (hchanges : e'.changes = e.changes)
    (hoperations : e.operations.Perm e'.operations) : checksummed e = checksummed e' := by
  have hdiffer : (e.operations.filterMap FileOperation.source?).Pairwise fun p q => (p == q) = false := by
    refine List.pairwise_filterMap.mpr (hchecked.apart.imp fun {a b} hab s hs s' hs' => ?_)
    exact hab.sources s hs s' hs'
  unfold checksummed WorkspaceEdit.editedFiles
  rw [hchanges]
  exact PathSet.union_perm (hoperations.filterMap _) hdiffer _

theorem ofExcept_inv {α : Type} {x : Except Error α} {s s' : PlanningState} {a : α}
    (h : ((ofExcept x).run env).run.run s = (.ok a, s')) : x = .ok a ∧ s' = s := by
  cases x with
  | ok b =>
    cases h
    exact ⟨rfl, rfl⟩
  | error e => cases h

/-- Drafts that agree get plans that agree. -/
theorem finalize_agrees {d d' : Draft} (h : d.Agrees d') {id : PlanId} {op op' : Operation}
    (hop : op.isSymbolRename = op'.isSymbolRename) {s s₁ : PlanningState} {plan : Plan}
    (hrun : ((finalize id op d).run env).run.run s = (.ok plan, s₁)) :
    ∃ plan', ((finalize id op' d').run env).run.run s = (.ok plan', s₁) ∧ plan.Agrees plan' := by
  obtain ⟨edit, s₂, hedit, hrest⟩ := run_bind_inv hrun
  obtain ⟨hmerge, rfl⟩ := ofExcept_inv hedit
  obtain ⟨edit', hmerge', hchanges, hoperations⟩ := WorkspaceEdit.merge_perm hmerge h.changes h.operations
  have hchecked := WorkspaceEdit.validate_checked ((WorkspaceEdit.merge_eq_ok_iff d.edit edit).mp hmerge).2
  have hfiles := checksummed_perm hchecked hchanges hoperations
  obtain ⟨_, s₃, hread, hlinks⟩ := run_bind_inv hrest
  cases hread
  obtain ⟨_, s₄, hforM, hsums⟩ := run_bind_inv hlinks
  obtain ⟨checksums, s₅, hchecksums, hend⟩ := run_bind_inv hsums
  cases hend
  have hcount : edit'.editCount = edit.editCount := by rw [WorkspaceEdit.editCount, hchanges, WorkspaceEdit.editCount]
  have hestimated : (Plan.ofEdit id op' edit').estimatedChanges = (Plan.ofEdit id op edit).estimatedChanges := by
    simp only [Plan.ofEdit, hcount, hoperations.length_eq]
  refine ⟨{ Plan.ofEdit id op' edit' with
    impact := .analyze d'.dependents (Plan.ofEdit id op' edit').estimatedChanges op'.isSymbolRename
    warnings := d'.warnings, checksums }, ?_, ?_⟩
  · have hedit' : ((ofExcept (WorkspaceEdit.merge [d'.edit])).run env).run.run s₂ = (.ok edit', s₂) := by
      rw [hmerge']
      rfl
    have hread' : ((read : Planning Planner).run env).run.run s₂ = (.ok env, s₂) := rfl
    unfold finalize
    rw [run_bind_of_ok hedit']
    dsimp only
    rw [← hfiles, run_bind_of_ok hread', run_bind_of_ok hforM, run_bind_of_ok hchecksums]
    rfl
  · exact ⟨hchanges.symm, hoperations, rfl, h.warnings, by rw [hestimated, h.dependents, hop]⟩

/-- The moves of a batch with every path resolved in a root. -/
def anchoredMoves (root : Path) (ms : List MoveSpec) : List MoveSpec :=
  ms.map fun m => ⟨m.source.resolveIn root, m.destination.resolveIn root⟩

theorem build_batch_eq (id : PlanId) (ms : List MoveSpec) (overwrite : Bool) :
    (build id (.batchMove ms overwrite)).run env = (do
      let draft ← planBatch (anchoredMoves env.root ms) overwrite
      return .ready (← finalize id (.batchMove (anchoredMoves env.root ms) overwrite) draft) : Planning PlanOutcome).run
        env := by
  have hread : ∀ f : Planner → Planning PlanOutcome, (read >>= f).run env = (f env).run env := fun _ => rfl
  have hanchored : (Operation.batchMove ms overwrite).anchored env.root = .batchMove (anchoredMoves env.root ms) overwrite :=
    rfl
  have hdraft : ∀ ms, draftOf (.batchMove ms overwrite) = Sum.inl <$> planBatch ms overwrite := fun _ => rfl
  unfold build
  rw [hread, hanchored]
  dsimp only
  rw [hdraft, bind_map_left]

/-- A batch whose plan is built gets a plan that agrees in every other order of its moves. -/
theorem build_batch_agrees {ms ms' : List MoveSpec} (h : ms.Perm ms') {id : PlanId} {overwrite : Bool}
    {s s₁ : PlanningState} {o : PlanOutcome} (hrun : ((build id (.batchMove ms overwrite)).run env).run.run s = (.ok o, s₁)) :
    ∃ plan plan', o = .ready plan ∧
      ((build id (.batchMove ms' overwrite)).run env).run.run s = (.ok (.ready plan'), s₁) ∧ plan.Agrees plan' := by
  have hanchored : (anchoredMoves env.root ms).Perm (anchoredMoves env.root ms') := h.map _
  rw [build_batch_eq] at hrun ⊢
  obtain ⟨d, s₂, hbatch, hfinal⟩ := run_bind_inv hrun
  obtain ⟨plan, s₃, hplan, hready⟩ := run_bind_inv hfinal
  cases hready
  obtain ⟨d', hbatch', hdrafts⟩ := planBatch_perm hanchored hbatch
  have hsymbol : (Operation.batchMove (anchoredMoves env.root ms) overwrite).isSymbolRename =
      (Operation.batchMove (anchoredMoves env.root ms') overwrite).isSymbolRename := rfl
  obtain ⟨plan', hplan', hplans⟩ := finalize_agrees hdrafts hsymbol hplan
  refine ⟨plan, plan', rfl, ?_, hplans⟩
  rw [run_bind_of_ok hbatch', run_bind_of_ok hplan']
  rfl

/-- Building the plan of a batch fails in every order of its moves, or in none, and then the plans have the same text
edits, the same operations in some order, and the same checksums, warnings and dependents. -/
theorem build_batch_perm (env : Planner) (id : PlanId) (overwrite : Bool) (s : PlanningState) {ms ms' : List MoveSpec}
    (h : ms.Perm ms') :
    (∃ e s₁ e' s₁', ((build id (.batchMove ms overwrite)).run env).run.run s = (.error e, s₁) ∧
      ((build id (.batchMove ms' overwrite)).run env).run.run s = (.error e', s₁')) ∨
    ∃ plan plan' s₁, ((build id (.batchMove ms overwrite)).run env).run.run s = (.ok (.ready plan), s₁) ∧
      ((build id (.batchMove ms' overwrite)).run env).run.run s = (.ok (.ready plan'), s₁) ∧ plan.Agrees plan' := by
  cases hrun : ((build id (.batchMove ms overwrite)).run env).run.run s with
  | mk answer s₁ =>
    cases answer with
    | ok o =>
      obtain ⟨plan, plan', rfl, hrun', hagrees⟩ := build_batch_agrees h hrun
      exact Or.inr ⟨plan, plan', s₁, rfl, hrun', hagrees⟩
    | error e =>
      cases hrun' : ((build id (.batchMove ms' overwrite)).run env).run.run s with
      | mk answer' s₁' =>
        cases answer' with
        | ok o' =>
          obtain ⟨_, _, _, hother, _⟩ := build_batch_agrees h.symm hrun'
          rw [hrun] at hother
          cases hother
        | error e' => exact Or.inl ⟨e, s₁, e', s₁', rfl, rfl⟩

end Planning

/-! ## Two files that refer to each other -/

/-- A planner for a directory with a file and a directory whose file refers to it and is referred to. -/
def Planner.linked : Planner :=
  { Planner.inDirectory ⟨[(["w"], .dir), (["w", "a.md"], .file (Bytes.ofText "[](d/b.md)")), (["w", "d"], .dir),
      (["w", "d", "b.md"], .file (Bytes.ofText "[](../a.md)"))]⟩ with
    registry := [.markdown]
    references := ⟨⟨"/w"⟩, [.markdown], [], [], 100⟩ }

namespace Planning

theorem build_batch_perm_linked :
    [MoveSpec.mk ⟨"a.md"⟩ ⟨"c.md"⟩, ⟨⟨"d"⟩, ⟨"e"⟩⟩].Perm [⟨⟨"d"⟩, ⟨"e"⟩⟩, ⟨⟨"a.md"⟩, ⟨"c.md"⟩⟩] ∧
    ∃ plan plan', Builds .linked ⟨1⟩ (.batchMove [⟨⟨"a.md"⟩, ⟨"c.md"⟩⟩, ⟨⟨"d"⟩, ⟨"e"⟩⟩] false) plan ∧
      Builds .linked ⟨1⟩ (.batchMove [⟨⟨"d"⟩, ⟨"e"⟩⟩, ⟨⟨"a.md"⟩, ⟨"c.md"⟩⟩] false) plan' ∧
      plan.edit.editCount = 2 ∧ plan.Agrees plan' := by
  have hperm := List.Perm.swap (MoveSpec.mk ⟨"d"⟩ ⟨"e"⟩) ⟨⟨"a.md"⟩, ⟨"c.md"⟩⟩ []
  have hplanned : (plan? .linked ⟨1⟩ (.batchMove [⟨⟨"a.md"⟩, ⟨"c.md"⟩⟩, ⟨⟨"d"⟩, ⟨"e"⟩⟩] false)).map (·.edit.editCount) =
      some 2 := by decide +kernel
  refine ⟨hperm, ?_⟩
  rcases build_batch_perm .linked ⟨1⟩ false {} hperm with ⟨e, s₁, _, _, hrun, _⟩ | ⟨plan, plan', s₁, hrun, hrun', hagrees⟩
  · rw [plan?, hrun] at hplanned
    cases hplanned
  · rw [plan?, hrun] at hplanned
    exact ⟨plan, plan', ⟨{}, s₁, hrun⟩, ⟨{}, s₁, hrun'⟩, Option.some.inj hplanned, hagrees⟩

end Planning

end Refactor
