import Refactor.Engine
import Refactor.Proofs.Edit.Substitution
import Refactor.Proofs.Path.Sorted
import Refactor.Proofs.Planning.Drafts

/-!
# What plans record

A built plan records the checksum of every file that it edits, moves or deletes, under the very path that names the file
in the plan: paths of operations are written in one way only, and edits of symbols, whose paths come from elsewhere, go
with no operation.

* `Path.Plain` — paths that are written in one way
* `Draft.Plain`, `Draft.Singular` — drafts whose paths are plain where one could meet another, or lead to different places
* `checksumsOf_records` — a checksum for each of a set of files
* `Planning.build_records` — a built plan has the checksums of all its files
* `Planning.build_distinct` — but for renames of symbols, the edited files of a built plan are different places
* `Planning.Builds` — a planner builds a plan
* `Engine.create_sited` — planners of a service work in a directory of its tree
-/

namespace Refactor

open Tree (pathOf placeOf)
open Path (IsName IsSegment)

/-! ## Plain paths -/

/-- An absolute path without blank segments, the only writing of what it names. -/
def Path.Plain (p : Path) : Prop := ∃ ss, (∀ s ∈ ss, IsSegment s) ∧ p = pathOf ss

namespace Path

theorem componentOf_injective : Function.Injective componentOf := by
  intro a b h
  unfold componentOf at h
  split at h <;> split at h <;> simp_all

theorem Plain.eq_of_beq {p q : Path} (hp : p.Plain) (hq : q.Plain) (h : (p == q) = true) : p = q := by
  obtain ⟨ss, hss, rfl⟩ := hp
  obtain ⟨ts, hts, rfl⟩ := hq
  rw [beq_iff, components_pathOf fun s hs => (hss s hs).2.2, components_pathOf fun s hs => (hts s hs).2.2,
    filterMap_innerComponent? hss, filterMap_innerComponent? hts, List.cons.injEq] at h
  rw [List.map_injective_iff.mpr componentOf_injective h.2]

theorem plain_names {place : Place} (h : ∀ s ∈ place, IsName s) : (pathOf place).Plain :=
  ⟨place, fun s hs => (h s hs).1, rfl⟩

theorem Plain.under {p : Path} (h : p.Plain) {names : List String} (hnames : ∀ s ∈ names, IsName s) :
    (Tree.under p names).Plain := by
  obtain ⟨ss, hss, rfl⟩ := h
  refine ⟨ss ++ names, fun s hs => ?_, under_pathOf hss fun s hs => (hnames s hs).1⟩
  rcases List.mem_append.mp hs with hs | hs
  · exact hss s hs
  · exact (hnames s hs).1

end Path

theorem Planning.Resolved.plain {p : Path} (h : Planning.Resolved p) : p.Plain := by
  obtain ⟨ss, hss, rfl⟩ := h
  exact ⟨ss, hss.1, rfl⟩

theorem Tree.Named.below {t : Tree} (h : t.Named) {dir names : Place} {e : Entry} (hmem : (names, e) ∈ t.below dir) :
    ∀ s ∈ names, IsName s := by
  obtain ⟨⟨q, f⟩, hq, hdrop⟩ := List.mem_filterMap.mp hmem
  dsimp only at hdrop
  split_ifs at hdrop
  cases hdrop
  exact fun s hs => h q e hq s (List.mem_of_mem_drop hs)

/-- A walk lists the path itself and paths of names below it, links among them. -/
theorem Tree.filesUnder_below {t : Tree} (ht : t.Named) {dir : Path} {files : List Path}
    (h : t.filesUnder dir = .ok files) : ∀ p ∈ files, ∃ names, (∀ s ∈ names, IsName s) ∧ p = under dir names := by
  have hself : ∃ names, (∀ s ∈ names, IsName s) ∧ dir = under dir names := ⟨[], by simp, rfl⟩
  have hleaves : ∀ place, ∀ p ∈ filesUnder.leaves t dir place, ∃ names, (∀ s ∈ names, IsName s) ∧ p = under dir names := by
    intro place p hp
    obtain ⟨⟨names, e⟩, hbelow, hsome⟩ := List.mem_filterMap.mp hp
    cases e with
    | dir => cases hsome
    | file b => exact ⟨names, ht.below hbelow, (Option.some.inj hsome).symm⟩
    | link target => exact ⟨names, ht.below hbelow, (Option.some.inj hsome).symm⟩
  unfold filesUnder at h
  dsimp only at h
  split at h
  · cases h
  · cases h
    simpa using hself
  · cases h
    exact hleaves _
  · split at h
    · cases h
    · cases h
      exact List.forall_mem_cons.mpr ⟨hself, hleaves _⟩
    · cases h
      simpa using hself

theorem Tree.filesUnder_plain {t : Tree} (ht : t.Named) {dir : Path} (hdir : dir.Plain) {files : List Path}
    (h : t.filesUnder dir = .ok files) : ∀ p ∈ files, p.Plain := by
  intro p hp
  obtain ⟨names, hnames, rfl⟩ := filesUnder_below ht h p hp
  exact hdir.under hnames

/-! ## Plain drafts -/

def Path.OfPlace (p : Path) : Prop := ∃ place, (∀ s ∈ place, IsName s) ∧ p = pathOf place

theorem Path.OfPlace.plain {p : Path} (h : p.OfPlace) : p.Plain := by
  obtain ⟨place, hplace, rfl⟩ := h
  exact Path.plain_names hplace

namespace Draft

/-- Drafts whose operations take plain paths, with text edits of places when there are operations. -/
structure Plain (d : Draft) : Prop where
  sources : ∀ op ∈ d.edit.operations, ∀ a ∈ op.source?, a.Plain
  edited : d.edit.operations = [] ∨ d.edit.Only Path.OfPlace

/-- Drafts in which no two edited paths lead to one place. -/
def Singular (d : Draft) : Prop :=
  ∃ P : Path → Prop, d.edit.Only P ∧ ∀ p q, P p → P q → placeOf p = placeOf q → p = q

/-- Drafts whose operations take plain paths and whose text edits are of places. -/
structure Placed (d : Draft) : Prop where
  sources : ∀ op ∈ d.edit.operations, ∀ a ∈ op.source?, a.Plain
  edited : d.edit.Only Path.OfPlace

variable {d : Draft}

theorem Does.plain (h : d.Does []) : d.Plain := ⟨by simp [h.operations], Or.inl h.operations⟩

theorem Edits.plain {file : Path} (h : d.Edits file) : d.Plain := ⟨by simp [h.operations], Or.inl h.operations⟩

theorem Edits.singular {file : Path} (h : d.Edits file) : d.Singular :=
  ⟨_, h.edited, fun _ _ hp hq _ => hp.trans hq.symm⟩

theorem Placed.plain (h : d.Placed) : d.Plain := ⟨h.sources, Or.inr h.edited⟩

theorem Placed.singular (h : d.Placed) : d.Singular := by
  refine ⟨_, h.edited, ?_⟩
  rintro _ _ ⟨place, hplace, rfl⟩ ⟨place', hplace', rfl⟩ heq
  rw [Tree.placeOf_names hplace, Tree.placeOf_names hplace'] at heq
  rw [heq]

end Draft

namespace Planning

variable {env : Planner} {root : Place}

theorem expandFiles_plain (overwrite : Bool) (source destination : Path) : ∀ {files : List Path},
    (∀ p ∈ files, p.Plain) →
    Yields env (expandFiles overwrite source destination files) fun pairs => ∀ ab ∈ pairs, ab.1.Plain
  | [], _ => Yields.pure (by simp)
  | file :: rest, hfiles => by
    have ih := expandFiles_plain overwrite source destination fun p hp => hfiles p (List.mem_cons_of_mem _ hp)
    unfold expandFiles
    split
    · exact ih
    · have hcons : ∀ target : Path, Yields env (do return (file, target) :: (← expandFiles overwrite source destination rest))
          fun pairs => ∀ ab ∈ pairs, ab.1.Plain := fun target =>
        ih.bind fun pairs hpairs => Yields.pure (List.forall_mem_cons.mpr ⟨hfiles file (by simp), hpairs⟩)
      cases overwrite with
      | true => exact hcons _
      | false => exact Yields.andThen fun _ => Yields.unlessThrow fun _ => hcons _

theorem expandMove_plain (h : env.Sited root) (overwrite : Bool) {m : CheckedMove} (hm : m.source.Plain) :
    Yields env (expandMove overwrite m) fun pairs => ∀ ab ∈ pairs, ab.1.Plain := by
  unfold expandMove
  split
  · exact Yields.pure (by simpa using hm)
  · refine Yields.readBind ?_
    refine (Yields.ofExcept (Q := fun files => ∀ p ∈ files, p.Plain) fun files hfiles =>
      Tree.filesUnder_plain h.named hm hfiles).bind fun files hfiles => ?_
    exact Yields.unlessThrowOf fun _ => expandFiles_plain overwrite _ _ hfiles

/-- The edits of moves are of places in the root. -/
theorem planMoves_inside (h : env.Sited root) (moves : Moves) : Yields env (search fun r t => r.planMoves t moves)
    fun found => found.edit.operations = [] ∧
      found.edit.Only fun p => ∃ place, (∀ s ∈ place, IsName s) ∧ root <+: place ∧ p = pathOf place := by
  refine Yields.search fun s => ?_
  have hedits : Ends (fun _ => True) (env.references.planMoves env.tree moves) _ := References.planMoves_edits
  obtain ⟨hoperations, honly⟩ := hedits s trivial
  refine ⟨hoperations, fun entry hentry => ?_⟩
  have hmem := honly entry hentry
  unfold References.projectFiles at hmem
  rw [h.searched, h.root_eq] at hmem
  exact Tree.projectFiles_places h.named _ h.names hmem

theorem planMoves_placed (h : env.Sited root) (moves : Moves) : Yields env (search fun r t => r.planMoves t moves)
    fun found => found.edit.operations = [] ∧ found.edit.Only Path.OfPlace :=
  (planMoves_inside h moves).mono fun _ hfound =>
    ⟨hfound.1, hfound.2.mono fun _ ⟨place, hplace, _, heq⟩ => ⟨place, hplace, heq⟩⟩

theorem planChecked_placed (h : env.Sited root) {moves : List CheckedMove} (hmoves : ∀ m ∈ moves, m.source.Plain)
    (overwrite : Bool) : Yields env (planChecked moves overwrite) Draft.Placed := by
  unfold planChecked
  refine (Yields.mapM_all fun m hm => expandMove_plain h overwrite (hmoves m hm)).bind fun pairs hpairs => ?_
  have hall : ∀ ab ∈ pairs.flatten, ab.1.Plain := by
    intro ab hab
    obtain ⟨l, hl, habl⟩ := List.mem_flatten.mp hab
    exact hpairs l hl ab habl
  dsimp only
  refine (planMoves_placed h _).bind fun found ⟨hoperations, honly⟩ => Yields.pure ⟨?_, ?_⟩
  · dsimp only
    rw [WorkspaceEdit.addOperations_eq fun m : Path × Path => .move m.1 m.2 overwrite, hoperations, List.nil_append]
    intro op hop a ha
    obtain ⟨ab, hab, rfl⟩ := List.mem_map.mp hop
    obtain rfl := Option.some.inj ha
    exact hall ab hab
  · dsimp only
    rw [WorkspaceEdit.addOperations_eq fun m : Path × Path => .move m.1 m.2 overwrite]
    exact honly

theorem planMove_placed (h : env.Sited root) {source : Path} (hsource : Resolved source) (destination : Path)
    (overwrite : Bool) (expected : Option PathKind) :
    Yields env (planMove source destination overwrite expected) Draft.Placed := by
  unfold planMove
  refine (checkMove_yields source destination overwrite expected).bind fun m hm => ?_
  refine planChecked_placed h (fun m' hm' => ?_) overwrite
  rw [List.mem_singleton.mp hm', hm.source_eq]
  exact hsource.plain

theorem planBatch_placed (h : env.Sited root) {specs : List MoveSpec} (hspecs : ∀ m ∈ specs, Resolved m.source)
    (overwrite : Bool) : Yields env (planBatch specs overwrite) Draft.Placed := by
  unfold planBatch
  refine Yields.unlessThrow fun _ => Yields.andThen fun _ => Yields.andThen fun _ => ?_
  have hplain : ∀ spec ∈ specs, Yields env (checkMove spec.source spec.destination overwrite none) (·.source.Plain) :=
    fun spec hspec => (checkMove_yields _ _ _ _).mono fun m hm => by
      rw [hm.source_eq]
      exact (hspecs spec hspec).plain
  exact (Yields.mapM_all hplain).bind fun checked hchecked => planChecked_placed h hchecked overwrite

theorem planDeletePath_placed (h : env.Sited root) {path : Path} (hpath : Resolved path) (directory : Bool) :
    Yields env (planDeletePath path directory) Draft.Placed := by
  have hdraft : ∀ {files : List Path}, (∀ p ∈ files, p.Plain) → ∀ {warnings : List PlanWarning} {dependents : List Path},
      Draft.Placed { edit := files.foldl (fun e f => e.addOperation (.delete f)) {}, warnings, dependents } := by
    intro files hfiles warnings dependents
    rw [WorkspaceEdit.addOperations_eq fun f : Path => .delete f]
    refine ⟨fun op hop a ha => ?_, by simp [WorkspaceEdit.Only]⟩
    obtain ⟨p, hp, rfl⟩ := List.mem_map.mp hop
    obtain rfl := Option.some.inj ha
    exact hfiles p hp
  unfold planDeletePath
  refine Yields.andThen fun _ => Yields.readBind <| Yields.unlessThrow fun _ => Yields.andThen fun _ => ?_
  refine Yields.whenThrow fun _ => Yields.andThen fun _ => Yields.unlessThrowOf fun _ => ?_
  dsimp only
  cases directory with
  | true =>
    refine Yields.readBind <| (Yields.ofExcept (Q := fun files => ∀ p ∈ files, p.Plain) fun files hfiles =>
      Tree.filesUnder_plain h.named hpath.plain hfiles).bind fun files hfiles => ?_
    exact Yields.andThen fun _ => Yields.andThen fun _ => Yields.pure (hdraft hfiles)
  | false =>
    refine (Yields.pure (Q := fun files => ∀ p ∈ files, p.Plain) (by simpa using hpath.plain)).bind fun files hfiles => ?_
    exact Yields.andThen fun _ => Yields.andThen fun _ => Yields.pure (hdraft hfiles)

/-- A draft whose paths are plain where one could meet another; but for renames of symbols, whose locations come from
elsewhere, no two edited paths lead to one place. -/
structure DraftPlain (op : Operation) (d : Draft) : Prop where
  plain : d.Plain
  singular : op.isSymbolRename = false → d.Singular

theorem draftOf_plain (h : env.Sited root) (op : Operation) :
    Yields env (draftOf (op.anchored env.root)) fun o => ∀ d, o = .inl d → DraftPlain op d := by
  have hplaced : ∀ {m : Planning Draft}, Yields env m Draft.Placed → Yields env m (DraftPlain op) := fun hm =>
    hm.mono fun d hd => ⟨hd.plain, fun _ => hd.singular⟩
  have hedits : ∀ {file : Path} {m : Planning Draft}, Yields env m (Draft.Edits file) → Yields env m (DraftPlain op) :=
    fun hm => hm.mono fun d hd => ⟨hd.plain, fun _ => hd.singular⟩
  have hres : ∀ p : Path, Resolved (p.resolveIn env.root) := resolveIn_resolved h
  cases op with
  | renameFile a b overwrite => exact (hplaced (planMove_placed h (hres a) _ _ _)).inl
  | renameDirectory a b overwrite => exact (hplaced (planMove_placed h (hres a) _ _ _)).inl
  | move a b overwrite => exact (hplaced (planMove_placed h (hres a) _ _ _)).inl
  | batchMove specs overwrite =>
    refine (hplaced (planBatch_placed h (fun m hm => ?_) _)).inl
    obtain ⟨spec, _, rfl⟩ := List.mem_map.mp hm
    exact hres _
  | renameSymbol target name =>
    cases target <;> exact (planRename_yields _ name).mono fun o ho d hd =>
      ⟨((ho d hd).does h).plain, fun hop => by cases hop⟩
  | extract kind file range name => exact (hedits (planExtract_yields _ kind range name)).inl
  | inline kind file position => exact (hedits (planInline_yields _ kind position)).inl
  | delete target =>
    cases target with
    | symbol file position => exact (hedits (planDeleteSymbol_yields _ position)).inl
    | file path => exact (hplaced (planDeletePath_placed h (hres path) false)).inl
    | directory path => exact (hplaced (planDeletePath_placed h (hres path) true)).inl

end Planning

/-! ## Checksums -/

/-- Every checksum is that of the file as it is. -/
def Tree.HasChecksums (t : Tree) (l : List (Path × String)) : Prop :=
  ∀ entry ∈ l, ∃ b, t.read entry.1 = .ok b ∧ Checksum.ofBytes b = entry.2

theorem Disk.read_eq_ok_iff {d : Disk} {p : Path} {b : ByteArray} : d.read p = .ok b ↔ d.tree.read p = .ok b := by
  unfold Disk.read
  cases d.tree.read p <;> simp

/-- The files of a set are there, and the checksum of each is recorded, and nothing else. -/
theorem checksumsOf_records {d : Disk} : ∀ {files : PathSet} {m : PathMap String}, files.Sorted →
    checksumsOf d files = .ok m →
    (∀ entry ∈ m, entry.1 ∈ files) ∧ d.tree.HasChecksums m ∧
      ∀ p ∈ files, ∃ b, d.tree.read p = .ok b ∧ (p, Checksum.ofBytes b) ∈ m
  | [], m, _, h => by
    cases h
    simp [Tree.HasChecksums]
  | p :: rest, m, hsorted, h => by
    obtain ⟨hfirst, hrest⟩ := List.pairwise_cons.mp hsorted
    unfold checksumsOf at h
    cases hread : d.read p with
    | error e =>
      rw [hread] at h
      cases h
    | ok b =>
      rw [hread] at h
      dsimp only at h
      cases hmore : checksumsOf d rest with
      | error e =>
        rw [hmore] at h
        cases h
      | ok m' =>
        rw [hmore] at h
        obtain rfl : m'.insert p (Checksum.ofBytes b) = m := Except.ok.inj h
        obtain ⟨hkeys, hvalues, hrecords⟩ := checksumsOf_records hrest hmore
        have hthere := Disk.read_eq_ok_iff.mp hread
        have hfresh : ∀ old ∈ m', (p == old.1) = false := fun old hold =>
          Path.not_beq_of_cmp_lt (hfirst old.1 (hkeys old hold))
        refine ⟨fun entry hentry => ?_, fun entry hentry => ?_, fun q hq => ?_⟩
        · rcases (PathMap.mem_insert_of_fresh hfresh).mp hentry with rfl | hold
          · simp
          · exact List.mem_cons_of_mem _ (hkeys entry hold)
        · rcases (PathMap.mem_insert_of_fresh hfresh).mp hentry with rfl | hold
          · exact ⟨b, hthere, rfl⟩
          · exact hvalues entry hold
        · rcases List.mem_cons.mp hq with rfl | hq
          · exact ⟨b, hthere, (PathMap.mem_insert_of_fresh hfresh).mpr (Or.inl rfl)⟩
          · obtain ⟨b', hb', hmem⟩ := hrecords q hq
            exact ⟨b', hb', (PathMap.mem_insert_of_fresh hfresh).mpr (Or.inr hmem)⟩

namespace WorkspaceEdit

/-- When no two edited paths lead to one place, the edited files are different places. -/
theorem distinct_of_sorted {w : WorkspaceEdit} (hsorted : w.changes.Sorted) {P : Path → Prop} (honly : w.Only P)
    (hP : ∀ p q, P p → P q → placeOf p = placeOf q → p = q) : w.Distinct := by
  unfold Distinct editedFiles
  rw [List.map_map]
  refine List.pairwise_map.mpr ((hsorted.filter _).imp_of_mem fun {a b} ha hb hlt heq => ?_)
  have hab := hP _ _ (honly a (List.mem_of_mem_filter ha)) (honly b (List.mem_of_mem_filter hb)) heq
  have hne := Path.not_beq_of_cmp_lt hlt
  rw [hab] at hne
  simp at hne

def Affects (w : WorkspaceEdit) (p : Path) : Prop := p ∈ w.editedFiles ∨ ∃ op ∈ w.operations, p ∈ op.source?

/-- Every file that an edit changes or takes away has its checksum taken under its own path, when paths that could meet
are plain. -/
theorem mem_checksummed {w : WorkspaceEdit} (hsorted : w.changes.Sorted)
    (hsources : ∀ op ∈ w.operations, ∀ a ∈ op.source?, a.Plain) (hedited : w.operations = [] ∨ w.Only Path.Plain)
    {p : Path} (hp : w.Affects p) : p ∈ Planning.checksummed w := by
  have hunique : ∀ q ∈ w.editedFiles, ∀ q' ∈ w.editedFiles, (q == q') = true → q' = q := by
    intro q hq q' hq' hbeq
    obtain ⟨entry, hentry, rfl⟩ := List.mem_map.mp hq
    obtain ⟨entry', hentry', rfl⟩ := List.mem_map.mp hq'
    rw [hsorted.eq_of_beq (List.mem_of_mem_filter hentry) (List.mem_of_mem_filter hentry') hbeq]
  have htaken : ∀ {q : Path}, q ∈ w.operations.filterMap FileOperation.source? →
      q.Plain ∧ ∀ q' ∈ w.editedFiles, q'.Plain := by
    intro q hq
    obtain ⟨op, hop, hsource⟩ := List.mem_filterMap.mp hq
    refine ⟨hsources op hop q hsource, ?_⟩
    rcases hedited with hnone | honly
    · rw [hnone] at hop
      cases hop
    · exact honly.editedFiles
  have hofList : ∀ {q : Path}, q ∈ w.editedFiles → q ∈ PathSet.ofList w.editedFiles := fun {q} hq =>
    PathSet.mem_union_of_unique (s := []) (Or.inr hq) fun q' hq' hbeq =>
      hunique q hq q' (hq'.resolve_left (by simp)) hbeq
  refine PathSet.mem_union_of_unique ?_ fun q hq hbeq => ?_
  · rcases hp with hp | ⟨op, hop, hsource⟩
    · exact Or.inl (hofList hp)
    · exact Or.inr (List.mem_filterMap.mpr ⟨op, hop, hsource⟩)
  · have hp' : p ∈ w.editedFiles ∨ p ∈ w.operations.filterMap FileOperation.source? :=
      hp.imp id fun ⟨op, hop, hsource⟩ => List.mem_filterMap.mpr ⟨op, hop, hsource⟩
    rcases hp' with hp | hp <;> rcases hq with hq | hq
    · exact hunique p hp q (PathSet.mem_ofList hq) hbeq
    · exact ((htaken hq).2 p hp).eq_of_beq (htaken hq).1 hbeq |>.symm
    · exact ((htaken hp).1.eq_of_beq ((htaken hp).2 q (PathSet.mem_ofList hq)) hbeq).symm
    · exact ((htaken hp).1.eq_of_beq (htaken hq).1 hbeq).symm

end WorkspaceEdit

namespace Planning

variable {env : Planner} {root : Place}

/-- A plan that has the checksum of every file that it changes or takes away, as the files are. -/
structure Records (t : Tree) (plan : Plan) : Prop where
  affected : ∀ p, plan.edit.Affects p → ∃ b, t.read p = .ok b ∧ (p, Checksum.ofBytes b) ∈ plan.checksums
  fresh : t.HasChecksums plan.checksums

/-- The checksums that are taken are of every file that a merged draft changes or takes away. -/
theorem checksummed_of_plain {draft : Draft} (h : draft.Plain) {edit : WorkspaceEdit}
    (hmerge : WorkspaceEdit.merge [draft.edit] = .ok edit) {p : Path} (hp : edit.Affects p) : p ∈ checksummed edit := by
  obtain ⟨hoperations, honly⟩ := WorkspaceEdit.merge_keeps hmerge (P := Path.Plain)
  refine WorkspaceEdit.mem_checksummed (WorkspaceEdit.merge_isUnion hmerge).files ?_ ?_ hp
  · rw [hoperations]
    exact h.sources
  · rw [hoperations]
    exact h.edited.imp_right fun hplaces => honly (hplaces.mono fun _ hp => hp.plain)

theorem finalize_records {id : PlanId} {op : Operation} {draft : Draft} (h : draft.Plain) :
    Yields env (finalize id op draft) (Records env.tree) := by
  unfold finalize
  refine (Yields.ofExcept fun edit hedit => hedit).bind fun edit hedit => ?_
  refine Yields.readBind <| Yields.andThen fun _ => ?_
  refine (Yields.ofExcept fun checksums hchecksums => hchecksums).bind fun checksums hchecksums => Yields.pure ?_
  have hsorted : PathSet.Sorted (checksummed edit) := PathSet.union_sorted (PathSet.ofList_sorted _)
  obtain ⟨_, hfresh, hrecords⟩ := checksumsOf_records hsorted hchecksums
  exact ⟨fun p hp => hrecords p (checksummed_of_plain h hedit hp), hfresh⟩

theorem finalize_merge {id : PlanId} {op : Operation} {draft : Draft} :
    Yields env (finalize id op draft) fun plan => WorkspaceEdit.merge [draft.edit] = .ok plan.edit := by
  unfold finalize
  refine (Yields.ofExcept fun edit hedit => hedit).bind fun edit hedit => ?_
  exact Yields.readBind <| Yields.andThen fun _ => Yields.andThen fun _ => Yields.pure hedit

/-- The edit of a built plan comes from a draft by merging. -/
theorem build_merge (h : env.Sited root) (id : PlanId) (op : Operation) :
    Yields env (build id op) fun o => ∀ plan, o = .ready plan →
      ∃ draft, DraftPlain op draft ∧ WorkspaceEdit.merge [draft.edit] = .ok plan.edit :=
  build_of_draft (draftOf_plain h op) fun draft hdraft => finalize_merge.mono fun _ hmerge => ⟨draft, hdraft, hmerge⟩

/-- The edited files of a plan are different places, unless the plan renames a symbol. -/
theorem build_distinct (h : env.Sited root) (id : PlanId) (op : Operation) :
    Yields env (build id op) fun o => ∀ plan, o = .ready plan → op.isSymbolRename = false → plan.edit.Distinct := by
  refine (build_merge h id op).mono fun o ho plan hplan hop => ?_
  obtain ⟨draft, hdraft, hmerge⟩ := ho plan hplan
  obtain ⟨P, honly, hP⟩ := hdraft.singular hop
  exact WorkspaceEdit.distinct_of_sorted (WorkspaceEdit.merge_isUnion hmerge).files ((WorkspaceEdit.merge_keeps hmerge).2 honly)
    hP

/-- A plan with operations edits files at places. -/
theorem build_placed (h : env.Sited root) (id : PlanId) (op : Operation) :
    Yields env (build id op) fun o => ∀ plan, o = .ready plan →
      plan.edit.operations = [] ∨ plan.edit.Only Path.OfPlace := by
  refine (build_merge h id op).mono fun o ho plan hplan => ?_
  obtain ⟨draft, hdraft, hmerge⟩ := ho plan hplan
  obtain ⟨hoperations, honly⟩ := WorkspaceEdit.merge_keeps hmerge (P := Path.OfPlace)
  rw [hoperations]
  exact hdraft.plain.edited.imp_right honly

/-- A built plan has the checksum of every file that it changes or takes away, as the file is. -/
theorem build_records (h : env.Sited root) (id : PlanId) (op : Operation) :
    Yields env (build id op) fun o => ∀ plan, o = .ready plan → Records env.tree plan :=
  build_of_draft (draftOf_plain h op) fun _ hdraft => finalize_records hdraft.plain

end Planning

/-! ## Built plans -/

namespace Planning

/-- A planner builds a plan for an operation, whatever was cached and asked before. -/
def Builds (env : Planner) (id : PlanId) (op : Operation) (plan : Plan) : Prop :=
  ∃ s s', ((build id op).run env).run.run s = (.ok (.ready plan), s')

/-- The plan of an operation, when nothing was cached or asked before. -/
def plan? (env : Planner) (id : PlanId) (op : Operation) : Option Plan :=
  match ((build id op).run env).run.run {} with
  | (.ok (.ready plan), _) => some plan
  | _ => none

/-- The plan of an operation can be looked at by running the planner. -/
theorem plan?_eq_some_iff {env : Planner} {id : PlanId} {op : Operation} {plan : Plan} :
    plan? env id op = some plan ↔ ∃ s, ((build id op).run env).run.run {} = (.ok (.ready plan), s) := by
  unfold plan?
  split
  · rename_i built s hrun
    refine ⟨fun h => ⟨s, Option.some.inj h ▸ hrun⟩, fun ⟨_, h⟩ => ?_⟩
    cases hrun.symm.trans h
    rfl
  · rename_i hother
    exact ⟨nofun, fun ⟨s, h⟩ => (hother plan s h).elim⟩

theorem exists_builds (env : Planner) (id : PlanId) (op : Operation) (P : Plan → Bool)
    (h : (plan? env id op).any P = true) : ∃ plan, Builds env id op plan ∧ P plan = true := by
  obtain ⟨plan, hplan, hP⟩ := (Option.any_eq_true ..).mp h
  obtain ⟨s, hrun⟩ := plan?_eq_some_iff.mp hplan
  exact ⟨plan, ⟨{}, s, hrun⟩, hP⟩

/-- What is known of every plan that is built. -/
theorem Builds.of_yields {env : Planner} {id : PlanId} {op : Operation} {plan : Plan} (hbuilds : Builds env id op plan)
    {P : Plan → Prop} (h : Yields env (build id op) fun o => ∀ plan, o = .ready plan → P plan) : P plan := by
  obtain ⟨s, s', hrun⟩ := hbuilds
  exact h s _ s' hrun plan rfl

theorem Builds.valid {env : Planner} {root : Place} (h : env.Sited root) {id : PlanId} {op : Operation} {plan : Plan}
    (hbuilds : Builds env id op plan) : plan.edit.validate = .ok () := by
  obtain ⟨_, _, hmerge⟩ := hbuilds.of_yields (build_merge h id op)
  exact (WorkspaceEdit.merge_eq_ok_iff_combined.mp hmerge).2

theorem Builds.planned {env : Planner} {root : Place} (h : env.Rooted root) {id : PlanId} {op : Operation} {plan : Plan}
    (hbuilds : Builds env id op plan) : Planned env root plan :=
  hbuilds.of_yields (build_yields h id op)

/-- The edited files of a built plan are different places, if need be because those of a rename of a symbol are. -/
theorem Builds.distinct {env : Planner} {root : Place} (h : env.Sited root) {id : PlanId} {op : Operation} {plan : Plan}
    (hbuilds : Builds env id op plan) (hsymbol : op.isSymbolRename = true → plan.edit.Distinct) : plan.edit.Distinct := by
  by_cases hop : op.isSymbolRename = false
  · exact hbuilds.of_yields (build_distinct h id op) hop
  · exact hsymbol (by simpa using hop)

theorem Builds.placed {env : Planner} {root : Place} (h : env.Sited root) {id : PlanId} {op : Operation} {plan : Plan}
    (hbuilds : Builds env id op plan) : plan.edit.operations = [] ∨ plan.edit.Only Path.OfPlace :=
  hbuilds.of_yields (build_placed h id op)

theorem Builds.records {env : Planner} {root : Place} (h : env.Sited root) {id : PlanId} {op : Operation} {plan : Plan}
    (hbuilds : Builds env id op plan) : Records env.tree plan :=
  hbuilds.of_yields (build_records h id op)

end Planning

/-- A planner in a directory, without languages. -/
def Planner.inDirectory (t : Tree) : Planner where
  root := ⟨"/w"⟩
  tree := t
  registry := {}
  references := ⟨⟨"/w"⟩, {}, [], [], 0⟩
  intelligence := .unavailable

theorem Planner.inDirectory_rooted {t : Tree} (h : t.WellFormed) : (Planner.inDirectory t).Rooted ["w"] :=
  ⟨rfl, rfl, by decide, by decide, h⟩

/-! ## Services -/

theorem Tree.canonical?_names {t : Tree} (ht : t.Named) {p q : Path} (h : t.canonical? p = .ok q) :
    ∃ place, (∀ s ∈ place, IsName s) ∧ q = pathOf place := by
  unfold canonical? at h
  cases hentry : t.entry true p with
  | error fault =>
    rw [hentry] at h
    cases h
  | ok found =>
    obtain ⟨place, e⟩ := found
    rw [hentry] at h
    obtain ⟨_, hget⟩ := (entry_eq_ok_iff true p place e).mp hentry
    exact ⟨place, ht.of_get? (by rw [hget]; simp), (Except.ok.inj h).symm⟩

/-- What a created service plans with works in a directory of its tree. -/
theorem Engine.create_sited {config : Config} {root : Path} {registry : Registry} {intelligence : Intelligence}
    {disk : Disk} {firstId : PlanId} {e : Engine} (hnamed : disk.tree.Named)
    (h : Engine.create config root registry intelligence disk firstId = .ok e) :
    ∃ place, Planner.Sited { root := e.workspace.root, tree := e.workspace.disk.tree, registry := e.registry
                             intelligence := e.intelligence
                             references := .ofConfig e.workspace.root e.registry e.config.refactor } place := by
  unfold create at h
  split at h
  · cases h
  · rename_i canonical hcanonical
    obtain ⟨place, hnames, hplace⟩ := Tree.canonical?_names hnamed hcanonical
    cases h
    exact ⟨place, hplace, rfl, hnames, hnamed⟩

end Refactor
