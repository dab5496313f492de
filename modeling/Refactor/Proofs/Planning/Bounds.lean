import Refactor.Proofs.Apply.Targets
import Refactor.Proofs.Planning.Records

/-!
# What a plan touches

Plans stay inside the root. A path of a request is resolved and checked against the root; what a walk finds below it
stays there, and so does what goes to the same place below a destination. Only the locations of a symbol come
unresolved from elsewhere, and are checked as they are written.

* `Path.Within` — a path lies under a root once its dots are resolved
* `Planning.Kept` — resolved paths in the root
* `Planning.Drafted` — the file operations that a draft can have
* `Planning.Builds.touched_within` — what a plan touches lies in the root, but for locations that go up
* `Planning.finalize_unlinked` — no file that a finished plan changes or takes away is a link
* `Planning.Builds.touched_links` — a link that a plan touches is the destination of a move, and leads nowhere unless it
  may be overwritten
-/

namespace Refactor

open Tree (pathOf under)
open Path (IsName IsSegment)

namespace Path

/-- The path lies under the root once its dots are resolved. -/
def Within (p root : Path) : Prop := p.normalize.startsWith root = true

instance (p root : Path) : Decidable (p.Within root) := inferInstanceAs (Decidable (_ = true))

theorem startsWith_trans {p q r : Path} (h : p.startsWith q = true) (h' : q.startsWith r = true) :
    p.startsWith r = true := by
  rw [startsWith_iff] at h h' ⊢
  exact h'.trans h

theorem within_of_straight {p root : Path} (habsolute : p.isAbsolute = true) (hparent : .parent ∉ p.components)
    (h : p.startsWith root = true) : p.Within root := by
  rw [startsWith_iff] at h
  rw [Within, startsWith_iff, components_normalize habsolute hparent]
  exact h

end Path

namespace Planning

variable {env : Planner} {root : Place}

/-! ## Paths in the root -/

structure Kept (env : Planner) (p : Path) : Prop where
  resolved : Resolved p
  inside : p.startsWith env.root = true

namespace Kept

variable {p q : Path} {names : List String}

theorem within (h : Kept env p) : p.Within env.root := by
  obtain ⟨⟨ss, hss, rfl⟩, hin⟩ := h
  rw [Path.Within, Path.normalize_pathOf hss]
  exact hin

theorem of_place (h : env.Sited root) {place : Place} (hplace : ∀ s ∈ place, IsName s) (hin : root <+: place) :
    Kept env (pathOf place) := by
  refine ⟨⟨place, ⟨fun s hs => (hplace s hs).1, fun s hs => (hplace s (List.mem_of_mem_tail hs)).2⟩, rfl⟩, ?_⟩
  rw [h.root_eq]
  exact (startsWith_pathOf_iff hplace h.names).mpr hin

theorem under (h : Kept env p) (hnames : ∀ s ∈ names, IsName s) : Kept env (under p names) := by
  obtain ⟨⟨ss, hss, rfl⟩, hin⟩ := h
  have happend : Path.Resolved (ss ++ names) := by
    induction names using List.reverseRecOn with
    | nil => simpa using hss
    | append_singleton names s ih =>
      rw [← List.append_assoc]
      exact (ih fun t ht => hnames t (List.mem_append_left _ ht)).append_name (hnames s (by simp))
  have hunder := Path.under_pathOf hss.1 fun s hs => (hnames s hs).1
  refine ⟨⟨ss ++ names, happend, hunder⟩, Path.startsWith_trans ?_ hin⟩
  rw [hunder, Path.startsWith_iff, Path.components_segments hss.1, Path.components_segments happend.1, List.map_append]
  exact (List.prefix_cons_inj _).mpr (List.prefix_append _ _)

theorem rebase?_under (h : Kept env p) (h' : Kept env q) (hnames : ∀ s ∈ names, IsName s) :
    (Tree.under p names).rebase? p q = some (Tree.under q names) := by
  obtain ⟨⟨ss, hss, rfl⟩, _⟩ := h
  obtain ⟨⟨ds, hds, rfl⟩, _⟩ := h'
  have hsegments : ∀ s ∈ names, IsSegment s := fun s hs => (hnames s hs).1
  rw [Path.under_pathOf hss.1 hsegments, Path.under_pathOf hds.1 hsegments, Path.rebase?_pathOf hss.1 hds.1 hsegments]

end Kept

/-! ## Operations of drafts -/

/-- The file operations that a draft can have: all paths lie in the root, and the destination of a move is free, as far
as anything is there, or may be overwritten. -/
inductive Drafted (env : Planner) : FileOperation → Prop
  | move {a b : Path} {overwrite : Bool} (source : Kept env a) (destination : Kept env b)
    (free : env.tree.exists? b = true → overwrite = true) : Drafted env (.move a b overwrite)
  | delete {a : Path} (source : Kept env a) : Drafted env (.delete a)

/-- A draft that stays in the root, but for locations of a symbol that it renames. -/
structure Bounded (env : Planner) (op : Operation) (d : Draft) : Prop where
  operations : ∀ o ∈ d.edit.operations, Drafted env o
  edited : d.edit.Only fun p => Kept env p ∨ op.isSymbolRename = true ∧ Located env p

/-- A checked move of a path in the root to another one. -/
structure Movable (env : Planner) (overwrite : Bool) (m : CheckedMove) : Prop where
  source : Kept env m.source
  destination : Kept env m.destination
  free : env.tree.exists? m.destination = true → overwrite = true

theorem MoveChecked.movable {source destination : Path} (hsource : Resolved source) (hdestination : Resolved destination)
    {overwrite : Bool} {expected : Option PathKind} {m : CheckedMove}
    (h : MoveChecked env source destination overwrite expected m) : Movable env overwrite m := by
  obtain ⟨_, _, _⟩ := m
  obtain ⟨rfl, rfl, _, _, hsourcein, hdestinationin, _, _, _, _, hfree⟩ := h
  exact ⟨⟨hsource, hsourcein⟩, ⟨hdestination, hdestinationin⟩, fun hthere => (hfree hthere).1⟩

theorem expandFiles_drafted (overwrite : Bool) {source destination : Path} (hsource : Kept env source)
    (hdestination : Kept env destination) : ∀ {files : List Path},
    (∀ p ∈ files, ∃ names, (∀ s ∈ names, IsName s) ∧ p = under source names) →
    Yields env (expandFiles overwrite source destination files) fun moved =>
      ∀ ab ∈ moved, Drafted env (.move ab.1 ab.2 overwrite)
  | [], _ => Yields.pure (by simp)
  | file :: rest, hfiles => by
    have ih := expandFiles_drafted overwrite hsource hdestination fun p hp => hfiles p (List.mem_cons_of_mem _ hp)
    obtain ⟨names, hnames, rfl⟩ := hfiles file (by simp)
    rw [expandFiles, hsource.rebase?_under hdestination hnames]
    dsimp only
    refine (Yields.exists? _).bind fun there hthere => Yields.unlessThrow fun hfree => ?_
    subst hthere
    refine ih.bind fun moved hmoved => Yields.pure (List.forall_mem_cons.mpr ⟨?_, hmoved⟩)
    refine .move (hsource.under hnames) (hdestination.under hnames) fun hthere => ?_
    cases overwrite with
    | true => rfl
    | false => simp [hthere] at hfree

theorem expandMove_drafted (h : env.Sited root) {overwrite : Bool} {m : CheckedMove} (hm : Movable env overwrite m) :
    Yields env (expandMove overwrite m) fun moved => ∀ ab ∈ moved, Drafted env (.move ab.1 ab.2 overwrite) := by
  unfold expandMove
  split
  · exact Yields.pure (by simpa using Drafted.move hm.source hm.destination hm.free)
  · refine Yields.readBind <| (Yields.ofExcept fun files hfiles =>
      Tree.filesUnder_below h.named hfiles).bind fun files hfiles => ?_
    exact Yields.unlessThrowOf fun _ => expandFiles_drafted _ hm.source hm.destination hfiles

theorem planChecked_bounded (h : env.Sited root) {op : Operation} {overwrite : Bool} {moves : List CheckedMove}
    (hmoves : ∀ m ∈ moves, Movable env overwrite m) : Yields env (planChecked moves overwrite) (Bounded env op) := by
  unfold planChecked
  refine (Yields.mapM_all fun m hm => expandMove_drafted h (hmoves m hm)).bind fun moved hmoved => ?_
  have hall : ∀ ab ∈ moved.flatten, Drafted env (.move ab.1 ab.2 overwrite) := by
    intro ab hab
    obtain ⟨files, hfiles, hmem⟩ := List.mem_flatten.mp hab
    exact hmoved files hfiles ab hmem
  dsimp only
  refine (planMoves_inside h _).bind fun found ⟨hoperations, honly⟩ => Yields.pure ?_
  have hedited : found.edit.Only fun p => Kept env p ∨ op.isSymbolRename = true ∧ Located env p := by
    refine honly.mono fun p hp => ?_
    obtain ⟨place, hplace, hin, rfl⟩ := hp
    exact Or.inl (.of_place h hplace hin)
  rw [WorkspaceEdit.addOperations_eq fun ab : Path × Path => .move ab.1 ab.2 overwrite, hoperations, List.nil_append]
  refine ⟨fun o ho => ?_, hedited⟩
  obtain ⟨ab, hab, rfl⟩ := List.mem_map.mp ho
  exact hall ab hab

theorem planMove_bounded (h : env.Sited root) {op : Operation} {source destination : Path} (hsource : Resolved source)
    (hdestination : Resolved destination) (overwrite : Bool) (expected : Option PathKind) :
    Yields env (planMove source destination overwrite expected) (Bounded env op) := by
  unfold planMove
  refine (checkMove_yields source destination overwrite expected).bind fun m hm => planChecked_bounded h ?_
  simpa using hm.movable hsource hdestination

theorem planBatch_bounded (h : env.Sited root) {op : Operation} {specs : List MoveSpec}
    (hspecs : ∀ m ∈ specs, Resolved m.source ∧ Resolved m.destination) (overwrite : Bool) :
    Yields env (planBatch specs overwrite) (Bounded env op) := by
  unfold planBatch
  refine Yields.unlessThrow fun _ => Yields.andThen fun _ => Yields.andThen fun _ => ?_
  refine (Yields.mapM_all fun m hm => (checkMove_yields m.source m.destination overwrite none).mono fun _ hchecked =>
    hchecked.movable (hspecs m hm).1 (hspecs m hm).2).bind fun checked hchecked => ?_
  exact planChecked_bounded h hchecked

theorem planDeletePath_bounded (h : env.Sited root) {op : Operation} {path : Path} (hpath : Resolved path)
    (directory : Bool) : Yields env (planDeletePath path directory) (Bounded env op) := by
  have hdraft : ∀ {files : List Path}, (∀ p ∈ files, Kept env p) → ∀ {warnings : List PlanWarning} {dependents : List Path},
      Bounded env op { edit := files.foldl (fun e f => e.addOperation (.delete f)) {}, warnings, dependents } := by
    intro files hfiles warnings dependents
    rw [WorkspaceEdit.addOperations_eq fun f : Path => .delete f]
    refine ⟨fun o ho => ?_, by simp [WorkspaceEdit.Only]⟩
    obtain ⟨p, hp, rfl⟩ := List.mem_map.mp ho
    exact .delete (hfiles p hp)
  unfold planDeletePath
  refine (Yields.ensureInRoot path).bind fun _ hin => Yields.readBind <| Yields.unlessThrow fun _ => ?_
  have hkept : Kept env path := ⟨hpath, hin⟩
  refine Yields.andThen fun _ => Yields.whenThrow fun _ => Yields.andThen fun _ => Yields.unlessThrowOf fun _ => ?_
  dsimp only
  cases directory with
  | true =>
    refine Yields.readBind <| (Yields.ofExcept (Q := fun files => ∀ p ∈ files, Kept env p) fun files hfiles p hp => ?_).bind
      fun files hfiles => Yields.andThen fun _ => Yields.andThen fun _ => Yields.pure (hdraft hfiles)
    obtain ⟨names, hnames, rfl⟩ := Tree.filesUnder_below h.named hfiles p hp
    exact hkept.under hnames
  | false =>
    refine (Yields.pure (Q := fun files => ∀ p ∈ files, Kept env p) (by simpa using hkept)).bind fun files hfiles => ?_
    exact Yields.andThen fun _ => Yields.andThen fun _ => Yields.pure (hdraft hfiles)

/-- Edits of one file in the root. -/
theorem bounded_of_edits {op : Operation} {file : Path} (hfile : Resolved file) {m : Planning Draft}
    (hin : Yields env m fun _ => file.startsWith env.root = true) (hm : Yields env m (Draft.Edits file)) :
    Yields env m (Bounded env op) := by
  refine (hin.and hm).mono fun d ⟨hstarts, hd⟩ => ⟨by simp [hd.operations], hd.edited.mono fun p hp => ?_⟩
  rw [hp]
  exact Or.inl ⟨hfile, hstarts⟩

theorem draftOf_bounded (h : env.Sited root) (op : Operation) :
    Yields env (draftOf (op.anchored env.root)) fun o => ∀ d, o = .inl d → Bounded env op d := by
  have hres : ∀ p : Path, Resolved (p.resolveIn env.root) := resolveIn_resolved h
  have hensured : ∀ {file : Path} {f : Unit → Planning Draft},
      Yields env (ensureInRoot file >>= f) fun _ => file.startsWith env.root = true := fun {file f} =>
    (Yields.ensureInRoot file).bind fun _ hin => (Yields.any _).mono fun _ _ => hin
  cases op with
  | renameFile a b overwrite => exact (planMove_bounded h (hres a) (hres b) _ _).inl
  | renameDirectory a b overwrite => exact (planMove_bounded h (hres a) (hres b) _ _).inl
  | move a b overwrite => exact (planMove_bounded h (hres a) (hres b) _ _).inl
  | batchMove specs overwrite =>
    refine (planBatch_bounded h (fun m hm => ?_) _).inl
    obtain ⟨spec, _, rfl⟩ := List.mem_map.mp hm
    exact ⟨hres _, hres _⟩
  | renameSymbol target name =>
    cases target <;> exact (planRename_yields _ name).mono fun o ho d hd =>
      ⟨by simp [(ho d hd).operations], (ho d hd).edited.mono fun p hp => Or.inr ⟨rfl, hp⟩⟩
  | extract kind file range name => exact (bounded_of_edits (hres file) hensured (planExtract_yields _ kind range name)).inl
  | inline kind file position => exact (bounded_of_edits (hres file) hensured (planInline_yields _ kind position)).inl
  | delete target =>
    cases target with
    | symbol file position => exact (bounded_of_edits (hres file) hensured (planDeleteSymbol_yields _ position)).inl
    | file path => exact (planDeletePath_bounded h (hres path) false).inl
    | directory path => exact (planDeletePath_bounded h (hres path) true).inl

/-! ## Plans -/

/-- A merged edit keeps the operations of its draft and edits no other path. -/
theorem finalize_bounded {id : PlanId} {op op' : Operation} {draft : Draft} (h : Bounded env op draft) :
    Yields env (finalize id op' draft) fun plan => (∀ o ∈ plan.edit.operations, Drafted env o) ∧
      plan.edit.Only fun p => Kept env p ∨ op.isSymbolRename = true ∧ Located env p := by
  refine finalize_merge.mono fun plan hmerge => ?_
  obtain ⟨hoperations, honly⟩ := WorkspaceEdit.merge_keeps hmerge
  rw [hoperations]
  exact ⟨h.operations, honly h.edited⟩

theorem Drafted.kept {o : FileOperation} (h : Drafted env o) {p : Path} (hp : p ∈ o.paths) : Kept env p := by
  cases h with
  | move source destination _ =>
    simp only [FileOperation.paths, List.mem_cons, List.not_mem_nil, or_false] at hp
    rcases hp with rfl | rfl
    · exact source
    · exact destination
  | delete source =>
    simp only [FileOperation.paths, List.mem_cons, List.not_mem_nil, or_false] at hp
    rw [hp]
    exact source

/-- **Plans stay inside the root.** Every path that a plan touches lies under the root once its dots are resolved. The
exception are locations of a renamed symbol that start with the root and then go up: they are checked as written. -/
theorem Builds.touched_within (h : env.Sited root) {id : PlanId} {op : Operation} {plan : Plan}
    (hbuilds : Builds env id op plan) {p : Path} (hp : p ∈ plan.edit.touchedPaths) :
    p.Within env.root ∨ op.isSymbolRename = true ∧ Component.parent ∈ p.components ∧ Located env p := by
  obtain ⟨hoperations, honly⟩ := hbuilds.of_yields (build_of_draft (draftOf_bounded h op) fun _ hd => finalize_bounded hd)
  rcases WorkspaceEdit.mem_touchedPaths hp with hp | ⟨o, ho, hp⟩
  · rcases honly.editedFiles p hp with hkept | ⟨hop, hlocated⟩
    · exact Or.inl hkept.within
    · by_cases hparent : Component.parent ∈ p.components
      · exact Or.inr ⟨hop, hparent, hlocated⟩
      · exact Or.inl (Path.within_of_straight (hlocated.isAbsolute h) hparent hlocated.1)
  · exact Or.inl ((hoperations o ho).kept hp).within

end Planning

/-! ## A location that goes up -/

theorem Tree.Named.of_entries {t : Tree} (h : ∀ entry ∈ t.entries, ∀ s ∈ entry.1, IsName s) : t.Named :=
  fun p e hp => h (p, e) hp

/-- A planner for a directory with a file, where a symbol of it is said to be used in a file beside the directory. -/
def Planner.answeringAbove : Planner :=
  { Planner.inDirectory ⟨[(["out.ts"], .file (Bytes.ofText "foo")), (["w"], .dir),
      (["w", "b.ts"], .file (Bytes.ofText "foo"))]⟩ with
    intelligence := ⟨fun _ _ => .ok [⟨⟨"/w/../out.ts"⟩, ⟨0, 0, 0, 3⟩⟩], fun _ => .ok [], fun _ _ _ => .ok {}⟩ }

theorem Planner.answeringAbove_sited : Planner.answeringAbove.Sited ["w"] :=
  ⟨rfl, rfl, by decide, Tree.Named.of_entries (by decide)⟩

theorem Planning.Builds.touched_within_above : ∃ plan p,
    Builds .answeringAbove ⟨1⟩ (.renameSymbol (.position ⟨"b.ts"⟩ ⟨0, 1⟩) "bar") plan ∧ p ∈ plan.edit.touchedPaths ∧
      ¬p.Within ⟨"/w"⟩ ∧ Component.parent ∈ p.components ∧ Located .answeringAbove p := by
  obtain ⟨plan, hbuilds, hany⟩ := exists_builds .answeringAbove ⟨1⟩ (.renameSymbol (.position ⟨"b.ts"⟩ ⟨0, 1⟩) "bar")
    (fun plan => plan.edit.touchedPaths.any fun p => !decide (p.Within ⟨"/w"⟩)) (by decide +kernel)
  obtain ⟨p, hp, houtside⟩ := List.any_eq_true.mp hany
  have hout : ¬p.Within ⟨"/w"⟩ := by simpa using houtside
  obtain ⟨_, hparent, hlocated⟩ := (hbuilds.touched_within Planner.answeringAbove_sited hp).resolve_left hout
  exact ⟨plan, p, hbuilds, hp, hout, hparent, hlocated⟩

/-! ## Links that a plan touches

Before a plan is finished, every file that it changes or takes away is seen to be no symbolic link, for a link could
only be put back as a copy of what it leads to. Destinations of moves are not looked at in this way: they are asked
whether they are there, and that question follows links. -/

namespace Planning

variable {env : Planner} {root : Place}

theorem finalize_unlinked {id : PlanId} {op : Operation} {draft : Draft} (h : draft.Plain) :
    Yields env (finalize id op draft) fun plan => ∀ p, plan.edit.Affects p → env.tree.isLink p = false := by
  unfold finalize
  refine (Yields.ofExcept fun edit hedit => hedit).bind fun edit hedit => Yields.readBind ?_
  have hlinks : Yields env ((checksummed edit).forM fun p =>
      if env.tree.isLink p then throw (.invalidRequest (p.raw ++ " is a symbolic link; refactor its target instead"))
      else pure ()) fun _ => ∀ p ∈ checksummed edit, env.tree.isLink p = false := by
    refine Yields.forM fun p _ => ?_
    split
    next => exact Yields.throw _
    next hlink => exact Yields.pure (Bool.eq_false_iff.mpr hlink)
  refine hlinks.bind fun _ hnone => Yields.andThen fun checksums => Yields.pure fun p hp => ?_
  exact hnone p (checksummed_of_plain h hedit hp)

/-- Whatever a drafted operation takes a path for, it takes it away or moves something there. -/
theorem Drafted.source_or_destination {o : FileOperation} (h : Drafted env o) {p : Path} (hp : p ∈ o.paths) :
    p ∈ o.source? ∨ ∃ a overwrite, o = .move a p overwrite ∧ (env.tree.exists? p = true → overwrite = true) := by
  cases h with
  | @move a b overwrite _ _ hfree =>
    simp only [FileOperation.paths, List.mem_cons, List.not_mem_nil, or_false] at hp
    rcases hp with rfl | rfl
    · exact Or.inl rfl
    · exact Or.inr ⟨a, overwrite, rfl, hfree⟩
  | delete =>
    simp only [FileOperation.paths, List.mem_cons, List.not_mem_nil, or_false] at hp
    exact Or.inl (hp ▸ rfl)

/-- **Links that a plan touches.** No file that a plan edits, moves or deletes is a symbolic link. A link among the other
paths that it touches is the destination of a move, where nothing is there behind the link or the move may overwrite. -/
theorem Builds.touched_links (h : env.Sited root) {id : PlanId} {op : Operation} {plan : Plan}
    (hbuilds : Builds env id op plan) :
    (∀ p, plan.edit.Affects p → env.tree.isLink p = false) ∧
      ∀ p ∈ plan.edit.touchedPaths, env.tree.isLink p = true → ∃ a overwrite,
        .move a p overwrite ∈ plan.edit.operations ∧ (env.tree.exists? p = true → overwrite = true) := by
  have hunlinked := hbuilds.of_yields (build_of_draft (draftOf_plain h op) fun _ hd => finalize_unlinked hd.plain)
  obtain ⟨hoperations, _⟩ := hbuilds.of_yields (build_of_draft (draftOf_bounded h op) fun _ hd => finalize_bounded hd)
  refine ⟨hunlinked, fun p hp hlink => ?_⟩
  have hnot : ¬plan.edit.Affects p := fun haffects => by
    rw [hunlinked p haffects] at hlink
    cases hlink
  rcases WorkspaceEdit.mem_touchedPaths hp with hp | ⟨o, ho, hp⟩
  · exact absurd (Or.inl hp) hnot
  · rcases (hoperations o ho).source_or_destination hp with hsource | ⟨a, overwrite, rfl, hfree⟩
    · exact absurd (Or.inr ⟨o, ho, hsource⟩) hnot
    · exact ⟨a, overwrite, ho, hfree⟩

end Planning

/-! ## A link in the way -/

/-- A directory with a file and a link that leads nowhere. -/
def Tree.withLink : Tree := ⟨[(["w"], .dir), (["w", "a"], .file (Bytes.ofText "1")), (["w", "l"], .link "nowhere")]⟩

theorem Planner.withLink_sited : (Planner.inDirectory .withLink).Sited ["w"] :=
  ⟨rfl, rfl, by decide, Tree.Named.of_entries (by decide)⟩

/-- A move to where a link leads nowhere is planned, and touches the link. -/
theorem Planning.Builds.touched_links_dangling : ∃ plan,
    Builds (.inDirectory .withLink) ⟨1⟩ (.move ⟨"a"⟩ ⟨"l"⟩ false) plan ∧
      (∀ p, plan.edit.Affects p → Tree.withLink.isLink p = false) ∧
      ∃ p ∈ plan.edit.touchedPaths, Tree.withLink.isLink p = true ∧ ∃ a overwrite,
        .move a p overwrite ∈ plan.edit.operations ∧ (Tree.withLink.exists? p = true → overwrite = true) := by
  obtain ⟨plan, hbuilds, hany⟩ := exists_builds (.inDirectory .withLink) ⟨1⟩ (.move ⟨"a"⟩ ⟨"l"⟩ false)
    (fun plan => plan.edit.touchedPaths.any Tree.withLink.isLink) (by decide +kernel)
  obtain ⟨p, hp, hlink⟩ := List.any_eq_true.mp hany
  obtain ⟨hunlinked, hdestinations⟩ := hbuilds.touched_links Planner.withLink_sited
  exact ⟨plan, hbuilds, hunlinked, p, hp, hlink, hdestinations p hp hlink⟩

end Refactor
