import Refactor.Proofs.Disk.Outline
import Refactor.Proofs.Planning.Bounds
import Refactor.Proofs.Text.Words

/-!
# Planned renames

Whoever answers about symbols may answer with any locations. A rename looks at the text of each one in the root, edits those
that hold the old name as a whole word and warns of the others. As different spans of one word stand beside each other, the
edits of a rename never get into each other's way, and a location that is answered twice is edited once.

* `Planner.Reads`, `Planner.HoldsWord` — files and locations as planning looks at them
* `Planning.Renamed`, `Planning.planRename_renamed` — the draft of a rename
* `Planning.Renamed.mergeable` — its edits get on with each other
* `Planning.build_rename_fails` — planning a rename meets no conflict
* `Plan.RenamesWords`, `Planning.build_rename_yields` — the plan of a rename
-/

namespace Refactor

open Tree (pathOf)

/-! ## Words at locations -/

namespace Planner

variable {env : Planner} {root : Place} {p q : Path} {content content' old : String} {l : Location}

def Reads (env : Planner) (p : Path) (content : String) : Prop := ({ tree := env.tree } : Disk).readText p = .ok content

theorem reads_iff : env.Reads p content ↔ ∃ b, env.tree.read p = .ok b ∧ Bytes.text? b = some content := by
  have hread : ∀ b, ({ tree := env.tree } : Disk).read p = .ok b ↔ env.tree.read p = .ok b := fun b =>
    Disk.read_eq_ok_iff
  unfold Reads Disk.readText
  cases hfound : ({ tree := env.tree } : Disk).read p with
  | error e =>
    refine iff_of_false (by simp [bind, Except.bind]) ?_
    rintro ⟨b, hb, _⟩
    rw [← hread, hfound] at hb
    cases hb
  | ok b =>
    have hb := (hread b).mp hfound
    rw [hb]
    dsimp only [bind, Except.bind]
    cases htext : Bytes.text? b with
    | none => simp [htext]
    | some s => simp [htext]

/-- However the path of a file is written, the same text is read. -/
theorem Reads.agree (habsolute : p.isAbsolute = true) (hpq : (p == q) = true) (hp : env.Reads p content)
    (hq : env.Reads q content') : content = content' := by
  obtain ⟨b, hb, htext⟩ := reads_iff.mp hp
  obtain ⟨b', hb', htext'⟩ := reads_iff.mp hq
  obtain rfl := Tree.read_agree habsolute ((Path.beq_iff p q).mp hpq) hb hb'
  exact Option.some.inj (htext.symm.trans htext')

/-- A location holds a name as a whole word. -/
def HoldsWord (env : Planner) (name : String) (l : Location) : Prop :=
  ∃ content, env.Reads l.path content ∧ WholeWord content.toList l.range name.toList

theorem holdsWord_iff (h : env.Reads l.path content) :
    env.HoldsWord old l ↔ WholeWord content.toList l.range old.toList := by
  constructor
  · rintro ⟨content', hreads, hword⟩
    obtain rfl := Except.ok.inj (Eq.trans (Eq.symm h) hreads)
    exact hword
  · exact fun hword => ⟨content, h, hword⟩

instance (env : Planner) (name : String) : DecidablePred (env.HoldsWord name) := fun l =>
  match h : ({ tree := env.tree } : Disk).readText l.path with
  | .ok content => decidable_of_iff (WholeWord content.toList l.range name.toList) (holdsWord_iff h).symm
  | .error _ => isFalse fun ⟨_, hreads, _⟩ => by
    rw [Reads, h] at hreads
    cases hreads

/-- A location to rename: in the root, as its path is written, with the old name as a whole word. -/
def Renames (env : Planner) (old : String) (l : Location) : Prop :=
  l.path.startsWith env.root = true ∧ env.HoldsWord old l

/-- A location to warn of: in the root without the old name as a whole word. -/
def Skips (env : Planner) (old : String) (l : Location) : Bool := l.path.startsWith env.root && !decide (env.HoldsWord old l)

/-- The warning about a location that does not hold the old name. -/
def skipped (env : Planner) (old : String) (l : Location) : PlanWarning :=
  .skippedReference ("Skipped reference at " ++ l.path.displayIn env.root ++ ":" ++ Planning.counted l.range.startLine ++
    ":" ++ Planning.counted l.range.startColumn ++ ": text is not the identifier '" ++ old ++ "'")

/-- Two locations to rename with the same path are one span, or their spans stand beside each other. -/
theorem Renames.eq_or_beside {l' : Location} (hsited : env.Sited root) (hname : isIdentifier old = true)
    (h : env.Renames old l) (h' : env.Renames old l') (hpath : (l.path == l'.path) = true) :
    l.range = l'.range ∨ l.range.overlaps l'.range = false := by
  obtain ⟨hin, content, hreads, hword⟩ := h
  obtain ⟨_, content', hreads', hword'⟩ := h'
  obtain rfl := hreads.agree (Planning.isAbsolute_of_inside hsited hin) hpath hreads'
  obtain ⟨hne, hchars⟩ := isIdentifier_spec hname
  exact hword.eq_or_beside hword' hne hchars

end Planner

/-- The edit that renames a word. -/
def TextEdit.renaming (old new : String) (range : Span) : TextEdit :=
  ((TextEdit.replacing range old new).withType .rename).describedAs ("Rename '" ++ old ++ "' to '" ++ new ++ "'")

namespace Planning

variable {env : Planner} {root : Place} {old new : String}

/-! ## One reference -/

/-- The draft of a rename when some locations are done. -/
structure Renamed (env : Planner) (old new : String) (done : List Location) (d : Draft) : Prop where
  operations : d.edit.operations = []
  sorted : d.edit.changes.Sorted
  edits : ∀ p e, e ∈ d.edit.editsOf p ↔
    ∃ l ∈ done, env.Renames old l ∧ (p == l.path) = true ∧ e = .renaming old new l.range
  warnings : d.warnings = (done.filter (env.Skips old)).map (env.skipped old)

/-- Texts that are those of the files, as far as these lie in the root and can be read. -/
def Known (env : Planner) (contents : PathMap String) : Prop :=
  ∀ p content, contents.find? p = some content → p.startsWith env.root = true → ∀ content', env.Reads p content' →
    content' = content

theorem Known.insert (hsited : env.Sited root) {contents : PathMap String} (h : Known env contents) {q : Path}
    {content : String} (hreads : env.Reads q content) : Known env (contents.insert q content) := by
  intro p found hfound hin content' hreads'
  rw [PathMap.find?_insert] at hfound
  split at hfound
  · rename_i hpq
    obtain rfl := Option.some.inj hfound
    exact hreads'.agree (isAbsolute_of_inside hsited hin) hpq hreads
  · exact h p found hfound hin content' hreads'

namespace Renamed

variable {done : List Location} {d : Draft} {l : Location}

theorem nil : Renamed env old new [] { edit := {} } where
  operations := rfl
  sorted := PathMap.Sorted.empty
  edits p e := by simp [WorkspaceEdit.editsOf, PathMap.find?]
  warnings := rfl

/-- One more location, with its edit or its warning. -/
theorem concat {d' : Draft} (h : Renamed env old new done d) (hoperations : d'.edit.operations = [])
    (hsorted : d'.edit.changes.Sorted)
    (hedits : ∀ p e, e ∈ d'.edit.editsOf p ↔
      e ∈ d.edit.editsOf p ∨ env.Renames old l ∧ (p == l.path) = true ∧ e = .renaming old new l.range)
    (hwarnings : d'.warnings = d.warnings ++ if env.Skips old l then [env.skipped old l] else []) :
    Renamed env old new (done ++ [l]) d' where
  operations := hoperations
  sorted := hsorted
  edits p e := by
    rw [hedits, h.edits]
    simp only [List.mem_append, List.mem_singleton, or_and_right, exists_or, exists_eq_left]
  warnings := by
    rw [hwarnings, h.warnings, List.filter_append, List.filter_singleton, List.map_append]
    cases env.Skips old l <;> rfl

theorem outside (h : Renamed env old new done d) (hout : ¬l.path.startsWith env.root = true) :
    Renamed env old new (done ++ [l]) d := by
  have hskips : env.Skips old l = false := by simp [Planner.Skips, hout]
  refine h.concat h.operations h.sorted (fun p e => (or_iff_left fun hl => hout hl.1.1).symm) ?_
  simp [hskips]

/-- A location that holds the old name gets an edit. -/
theorem edited (h : Renamed env old new done d) (hl : env.Renames old l) (dependents : List Path) :
    Renamed env old new (done ++ [l])
      { d with edit := d.edit.addEdits l.path [.renaming old new l.range], dependents := dependents } := by
  have hskips : env.Skips old l = false := by simp [Planner.Skips, hl.2]
  have hsorted : (d.edit.changes.alter l.path [] (· ++ [.renaming old new l.range])).Sorted :=
    PathMap.alter_sorted _ _ _ h.sorted
  refine h.concat h.operations hsorted (fun p e => ?_) (by simp [hskips])
  dsimp only
  rw [WorkspaceEdit.editsOf_addEdits]
  by_cases hp : (p == l.path) = true <;> simp [hp, hl]

/-- A location in the root that does not hold the old name gets a warning. -/
theorem warned (h : Renamed env old new done d) (hin : l.path.startsWith env.root = true)
    (hword : ¬env.HoldsWord old l) :
    Renamed env old new (done ++ [l]) { d with warnings := d.warnings ++ [env.skipped old l] } := by
  have hskips : env.Skips old l = true := by simp [Planner.Skips, hin, hword]
  refine h.concat h.operations h.sorted (fun p e => (or_iff_left fun hl => hword hl.1.2).symm) ?_
  simp [hskips]

end Renamed

/-- What a rename does at a location whose text it has. -/
def renameIn (old new : String) (d : Draft) (l : Location) (content : String) (contents : PathMap String) :
    Planning RenameDraft :=
  if isWholeToken content.toList l.range old then
    pure { contents, draft := { d with edit := d.edit.addEdits l.path [.renaming old new l.range]
                                       dependents := d.dependents ++ [l.path] } }
  else do
    let place ← shown l.path
    pure { contents, draft := { d with warnings := d.warnings ++ [.skippedReference ("Skipped reference at " ++ place ++
      ":" ++ counted l.range.startLine ++ ":" ++ counted l.range.startColumn ++ ": text is not the identifier '" ++ old ++
      "'")] } }

theorem renameIn_renamed {done : List Location} {d : Draft} {l : Location} {content : String}
    {contents : PathMap String} (h : Renamed env old new done d) (hin : l.path.startsWith env.root = true)
    (hreads : env.Reads l.path content) (hknown : Known env contents) :
    Yields env (renameIn old new d l content contents) fun acc =>
      Renamed env old new (done ++ [l]) acc.draft ∧ Known env acc.contents := by
  unfold renameIn
  split
  · rename_i hword
    rw [isWholeToken_iff, ← Planner.holdsWord_iff hreads] at hword
    exact Yields.pure ⟨h.edited ⟨hin, hword⟩ _, hknown⟩
  · rename_i hword
    rw [isWholeToken_iff, ← Planner.holdsWord_iff hreads] at hword
    intro s acc s' hrun
    cases hrun
    exact ⟨h.warned hin hword, hknown⟩

theorem readText_yields (p : Path) : Yields env (readText p) (env.Reads p) := by
  unfold readText
  refine Yields.readBind ?_
  cases hread : ({ tree := env.tree } : Disk).readText p with
  | ok content => exact Yields.pure hread
  | error e => exact Yields.throw _

theorem renameAt_renamed (hsited : env.Sited root) {done : List Location} {acc : RenameDraft} {l : Location}
    (hread : l.path.startsWith env.root = true → ∃ content, env.Reads l.path content)
    (h : Renamed env old new done acc.draft) (hknown : Known env acc.contents) :
    Yields env (renameAt old new acc l) fun acc' =>
      Renamed env old new (done ++ [l]) acc'.draft ∧ Known env acc'.contents := by
  unfold renameAt
  refine Yields.readBind ?_
  dsimp only
  split
  · rename_i hin
    split
    · rename_i content hfound
      obtain ⟨content', hreads⟩ := hread hin
      obtain rfl := hknown l.path content hfound hin content' hreads
      exact renameIn_renamed h hin hreads hknown
    · refine (readText_yields l.path).bind fun content hreads => ?_
      exact renameIn_renamed h hin hreads (hknown.insert hsited hreads)
  · rename_i hout
    exact Yields.pure ⟨h.outside hout, hknown⟩

/-! ## All references -/

theorem resolveSymbol_position (file : Path) (position : Position) :
    Yields env (resolveSymbol (.position file position)) (· = .at_ file position) := by
  unfold resolveSymbol
  refine Yields.andThen fun _ => Yields.andThen fun there => ?_
  split
  · exact Yields.pure rfl
  · exact Yields.throwBind _

theorem oldName_position {source : String} {file : Path} {position : Position}
    (hold : identifierAt? source.toList position = some old) :
    Yields env (oldName (.position file position) source file position) (· = old) := by
  unfold oldName
  rw [hold]
  exact Yields.pure rfl

section

variable {file : Path} {position : Position} {source : String} {locations : List Location}
  (hsited : env.Sited root) (hsource : env.Reads file source)
  (hold : identifierAt? source.toList position = some old)
  (hlocations : env.intelligence.references file position = .ok locations)
  (hread : ∀ l ∈ locations, l.path.startsWith env.root = true → ∃ content, env.Reads l.path content)

include hsited hsource hold hlocations hread

/-- The draft of a rename edits the locations that hold the old name and warns of the others. -/
theorem planRename_renamed (newName : String) : Yields env (planRename (.position file position) newName) fun o =>
    ∃ d, o = .inl d ∧ Renamed env old newName locations d := by
  unfold planRename
  refine Yields.whenThrow fun _ => (resolveSymbol_position file position).bind fun resolved hresolved => ?_
  subst hresolved
  dsimp only
  refine (readText_yields file).bind fun source' hsource' => ?_
  obtain rfl : source = source' := Except.ok.inj (hsource.symm.trans hsource')
  refine (oldName_position hold).bind fun name hname => ?_
  subst hname
  refine Yields.unlessThrow fun _ => (Yields.findReferences file position).bind fun found hfound => ?_
  obtain rfl : locations = found := Except.ok.inj (hlocations.symm.trans hfound)
  refine Yields.unlessThrow fun _ => ?_
  have hempty : Known env [] := fun _ _ hnone => by cases hnone
  have hstart : Renamed env name newName [] { edit := {} } ∧ Known env (PathMap.insert file source []) :=
    ⟨Renamed.nil, hempty.insert hsited hsource⟩
  have hall : Yields env (locations.foldlM (renameAt name newName) ⟨PathMap.insert file source [], { edit := {} }⟩)
      fun acc => Renamed env name newName ([] ++ locations) acc.draft ∧ Known env acc.contents :=
    Yields.foldlM_done (I := fun done (acc : RenameDraft) => Renamed env name newName done acc.draft ∧ Known env acc.contents)
      (fun _ _ l hl hacc => renameAt_renamed hsited (hread l hl) hacc.1 hacc.2) hstart
  exact hall.bind fun acc hacc => Yields.unlessThrow fun _ => Yields.pure ⟨acc.draft, rfl, hacc.1⟩

end

/-- Edits of a rename get on with each other. -/
theorem Renamed.mergeable (hsited : env.Sited root) (hname : isIdentifier old = true) {locations : List Location}
    {d : Draft} (h : Renamed env old new locations d) : WorkspaceEdit.Mergeable [d.edit] := by
  have hnone : [d.edit].flatMap (·.operations) = [] := by simp [h.operations]
  refine ⟨fun p e e' he he' hne => ?_, hnone ▸ List.Pairwise.nil, fun p hp => ?_⟩
  · rw [WorkspaceEdit.brings_singleton_iff h.sorted, h.edits] at he he'
    obtain ⟨l, _, hl, hpl, rfl⟩ := he
    obtain ⟨l', _, hl', hpl', rfl⟩ := he'
    have hpath : (l.path == l'.path) = true := by
      rw [Path.beq_iff] at hpl hpl' ⊢
      exact hpl.symm.trans hpl'
    rcases hl.eq_or_beside hsited hname hl' hpath with hsame | hbeside
    · exact absurd (congrArg (TextEdit.renaming old new) hsame) hne
    · exact hbeside
  · rw [hnone] at hp
    cases hp

end Planning

theorem DiskError.at_kind (e : DiskError) (p : Path) : (e.at_ p).kind ≠ .conflict := by
  simp [at_, Error.ioAt, Error.kind]

/-! ## The plan -/

/-- A plan that renames words at locations: each different location in the root that holds the old name as a whole word has
one edit, and every other location in the root has a warning. -/
structure Plan.RenamesWords (plan : Plan) (env : Planner) (old new : String) (locations : List Location) : Prop where
  operations : plan.edit.operations = []
  files : plan.edit.changes.Sorted
  complete : ∀ l ∈ locations, env.Renames old l → ∃ file ∈ plan.edit.changes, (file.1 == l.path) = true
  edits : ∀ file ∈ plan.edit.changes, ∀ e, e ∈ file.2 ↔
    ∃ l ∈ locations, env.Renames old l ∧ (file.1 == l.path) = true ∧ e = .renaming old new l.range
  once : ∀ file ∈ plan.edit.changes, file.2.Nodup
  nonempty : ∀ file ∈ plan.edit.changes, file.2 ≠ []
  beside : ∀ file ∈ plan.edit.changes, file.2.Pairwise TextEdit.Beside
  warnings : plan.warnings = (locations.filter (env.Skips old)).map (env.skipped old)

namespace Planning

variable {env : Planner} {root : Place} {old new : String}

theorem finalize_drafted {id : PlanId} {op : Operation} {d : Draft} :
    Yields env (finalize id op d) fun plan => plan.warnings = d.warnings ∧ plan.operation = op := by
  unfold finalize
  refine Yields.andThen fun edit => Yields.readBind <| Yields.andThen fun _ => Yields.andThen fun checksums => ?_
  exact Yields.pure ⟨rfl, rfl⟩

theorem Renamed.renamesWords {locations : List Location} {d : Draft} (h : Renamed env old new locations d) {plan : Plan}
    (hmerge : WorkspaceEdit.merge [d.edit] = .ok plan.edit) (hwarnings : plan.warnings = d.warnings) :
    plan.RenamesWords env old new locations := by
  have hunion := WorkspaceEdit.merge_isUnion hmerge
  have hvalid := (WorkspaceEdit.merge_eq_ok_iff_combined.mp hmerge).2
  have hbrings : ∀ p e, WorkspaceEdit.Brings [d.edit] p e ↔
      ∃ l ∈ locations, env.Renames old l ∧ (p == l.path) = true ∧ e = .renaming old new l.range := fun p e => by
    rw [WorkspaceEdit.brings_singleton_iff h.sorted, h.edits]
  refine ⟨?_, hunion.files, fun l hl hrenames => ?_, fun file hfile e => ?_, hunion.once, hunion.nonempty, ?_, ?_⟩
  · rw [hunion.operations]
    simp [h.operations]
  · exact hunion.complete l.path _ ((hbrings _ _).mpr ⟨l, hl, hrenames, BEq.rfl, rfl⟩)
  · rw [hunion.edits file hfile, hbrings]
  · exact (WorkspaceEdit.forM_checkOverlaps_eq_ok_iff _).mp ((WorkspaceEdit.validate_eq_ok_iff _).mp hvalid).1
  · rw [hwarnings, h.warnings]

/-! ## Failures -/

theorem readText_fails (p : Path) : Fails env (readText p) (·.kind ≠ .conflict) := by
  unfold readText
  refine Fails.readBind ?_
  split
  · exact Fails.pure _
  · rename_i e _
    refine Fails.throw ?_
    unfold DiskError.orMissing
    split
    · simp [Error.fileNotFound, Error.kind]
    · exact e.at_kind p

theorem checksumsOf_fails {d : Disk} : ∀ {ps : List Path} {e : Error}, checksumsOf d ps = .error e → e.kind ≠ .conflict
  | [], e, h => by cases h
  | p :: ps, e, h => by
    unfold checksumsOf at h
    split at h
    · rename_i fault _
      obtain rfl := Except.error.inj h
      exact fault.at_kind p
    · cases hrest : checksumsOf d ps with
      | error e' =>
        rw [hrest] at h
        obtain rfl : e' = e := Except.error.inj h
        exact checksumsOf_fails hrest
      | ok m =>
        rw [hrest] at h
        cases h

theorem renameAt_fails (acc : RenameDraft) (l : Location) : Fails env (renameAt old new acc l) (·.kind ≠ .conflict) := by
  have hin : ∀ content contents, Fails env (renameIn old new acc.draft l content contents) (·.kind ≠ .conflict) := by
    intro content contents
    unfold renameIn
    split
    · exact Fails.pure _
    · intro s e s' hrun
      cases hrun
  unfold renameAt
  refine Fails.readBind ?_
  dsimp only
  split
  · split
    · exact hin _ _
    · exact (readText_fails l.path).bind (Yields.any _) fun content _ => hin _ _
  · exact Fails.pure _

theorem resolveSymbol_fails (file : Path) (position : Position) :
    Fails env (resolveSymbol (.position file position)) (·.kind ≠ .conflict) := by
  have hroot : Fails env (ensureInRoot file) (·.kind ≠ .conflict) := by
    refine Fails.readBind ?_
    dsimp only
    split
    · exact Fails.pure _
    · exact Fails.throw (by simp [Error.kind])
  have hthere : Fails env (exists? file) (·.kind ≠ .conflict) := fun s e s' hrun => by cases hrun
  unfold resolveSymbol
  refine hroot.bind (Yields.any _) fun _ _ => hthere.bind (Yields.any _) fun there _ => ?_
  split
  · exact Fails.pure _
  · exact Fails.throwBind (by simp [Error.fileNotFound, Error.kind])

theorem finalize_fails {id : PlanId} {op : Operation} {d : Draft} (h : WorkspaceEdit.Mergeable [d.edit]) :
    Fails env (finalize id op d) (·.kind ≠ .conflict) := by
  obtain ⟨edit, hmerge⟩ := (WorkspaceEdit.exists_merge_iff _).mpr h
  have hmerged : Fails env (ofExcept (WorkspaceEdit.merge [d.edit])) (·.kind ≠ .conflict) := by
    rw [hmerge]
    exact Fails.pure _
  unfold finalize
  refine hmerged.bind (Yields.any _) fun edit _ => Fails.readBind ?_
  refine (Fails.forM fun p _ => ?_).bind (Yields.any _) fun _ _ => ?_
  · split
    · exact Fails.throw (by simp [Error.kind])
    · exact Fails.pure _
  · refine (Fails.ofExcept fun e he => checksumsOf_fails he).bind (Yields.any _) fun checksums _ => ?_
    exact Fails.pure _

/-- Once the references are there, a rename fails for other reasons than a conflict. -/
theorem planRename_fails {file : Path} {position : Position} {locations : List Location}
    (hlocations : env.intelligence.references file position = .ok locations) (newName : String) :
    Fails env (planRename (.position file position) newName) (·.kind ≠ .conflict) := by
  have hname : ∀ s, Fails env (oldName (.position file position) s file position) (·.kind ≠ .conflict) := by
    intro s
    unfold oldName
    dsimp only
    split
    · exact Fails.pure _
    · exact Fails.throw (by simp [Error.kind])
  have hfound : Fails env (findReferences file position) (·.kind ≠ .conflict) := by
    have hnoted : ∀ f, Fails env (modify f) (·.kind ≠ .conflict) := fun f s e s' hrun => by cases hrun
    unfold findReferences
    refine (hnoted _).bind (Yields.any _) fun _ _ => Fails.readBind <| Fails.ofExcept fun e he => ?_
    rw [hlocations] at he
    cases he
  unfold planRename
  split
  · refine (resolveSymbol_fails file position).bind (resolveSymbol_position file position) fun resolved hresolved => ?_
    subst hresolved
    dsimp only
    refine (readText_fails file).bind (Yields.any _) fun source' _ => (hname source').bind (Yields.any _) fun name _ => ?_
    split
    · exact Fails.throwBind (by simp [Error.kind])
    refine hfound.bind (Yields.any _) fun found _ => ?_
    split
    · exact Fails.throwBind (by simp [Error.kind])
    refine (Fails.foldlM fun acc l _ => renameAt_fails acc l).bind (Yields.any _) fun acc _ => ?_
    split
    · exact Fails.throwBind (by simp [Error.kind])
    · exact Fails.pure _
  · exact Fails.throwBind (by simp [Error.kind])

/-! ## Renames at a position -/

section

variable {file : Path} {position : Position} {source : String} {locations : List Location}
  (hsited : env.Sited root) (hsource : env.Reads (file.resolveIn env.root) source)
  (hold : identifierAt? source.toList position = some old)
  (hlocations : env.intelligence.references (file.resolveIn env.root) position = .ok locations)
  (hread : ∀ l ∈ locations, l.path.startsWith env.root = true → ∃ content, env.Reads l.path content)

include hsited hsource hold hlocations hread

/-- Planning a rename meets no conflict, whatever the locations are. -/
theorem build_rename_fails (id : PlanId) (newName : String) :
    Fails env (build id (.renameSymbol (.position file position) newName)) (·.kind ≠ .conflict) := by
  have hname := identifierAt?_spec hold
  unfold build
  refine Fails.readBind <| (planRename_fails hlocations newName).bind
    (planRename_renamed hsited hsource hold hlocations hread newName) ?_
  rintro _ ⟨d, rfl, hd⟩
  exact (finalize_fails (hd.mergeable hsited hname)).bind (Yields.any _) fun _ _ => Fails.pure _

theorem build_rename_yields (id : PlanId) (newName : String) :
    Yields env (build id (.renameSymbol (.position file position) newName)) fun o => ∃ plan, o = .ready plan ∧
      plan.RenamesWords env old newName locations := by
  unfold build
  refine Yields.readBind <| (planRename_renamed hsited hsource hold hlocations hread newName).bind ?_
  rintro _ ⟨d, rfl, hd⟩
  refine (finalize_merge.and finalize_drafted).bind ?_
  rintro plan ⟨hmerge, hwarnings, _⟩
  exact Yields.pure ⟨plan, rfl, hd.renamesWords hmerge hwarnings⟩

end

end Planning

end Refactor
