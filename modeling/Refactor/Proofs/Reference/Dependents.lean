import Refactor.Proofs.Planning.Edits
import Refactor.Proofs.Reference.Alike

/-!
# Who refers to what moves

The edits of moves and the dependents of paths come from two searches, which read every file in the same way. A file that
stays where it is gets an edit only where it refers to a path that moves; so when all that moves lies at or below some
paths, the file is found among the dependents of these paths too.

* `Language.Locates` — languages that tell where every reference is
* `References.planFile_edits` — a file that stays and gets an edit refers to a path that moves
* `References.mem_dependents` — a file outside of the targets that refers to one depends on them
* `Moves.Takes` — the files at or below some paths move, and nothing else
* `References.planMoves_covered` — the dependents of moves are among the dependents of what moves
* `References.planMoves_planned` — the edits of moves are those that are planned for each file
-/

namespace Refactor

/-! ## Languages that locate their references -/

/-- A language that tells where every reference of a text is. -/
def Language.Locates (l : Language) : Prop :=
  ∃ f, l.references? = some f ∧ ∀ content, ∀ ref ∈ f content, ref.location.isSome = true

theorem LocatedRef.located_of_mem {content : List Char} {refs : List LocatedRef} :
    ∀ ref ∈ refs.map (LocatedRef.toRef content), ref.location.isSome = true := by
  simp [toRef]

theorem Language.typescript_locates : Language.typescript.Locates :=
  ⟨_, rfl, fun _ => LocatedRef.located_of_mem⟩

theorem Language.markdown_locates : Language.markdown.Locates :=
  ⟨_, rfl, fun _ => LocatedRef.located_of_mem⟩

/-- The files at or below some paths move, and nothing else has a new place. -/
structure Moves.Takes (m : Moves) (targets files : List Path) : Prop where
  moved : ∀ p ∈ files, References.isTarget targets p = true → m.isMoved p = true
  only : ∀ p, (m.newLocation? p).isSome = true → References.isTarget targets p = true

namespace References

variable {r : References} {t : Tree} {known : KnownFiles} {moves : Moves}

/-! ## Reading -/

theorem refsOf_isSome {language : Option Language} (h : ∀ l ∈ language, l.Locates) (extension content : String) :
    (refsOf language extension content).isSome = true := by
  cases language with
  | none => rfl
  | some l =>
    obtain ⟨f, hf, hlocated⟩ := h l rfl
    have hnone : ((f content.toList).filter ImportRef.isPath).any (·.location.isNone) = false := by
      rw [List.any_eq_false]
      intro ref href
      simp [Option.isSome_iff_ne_none.mp (hlocated _ ref (List.mem_of_mem_filter href))]
    unfold refsOf locatedRefs?
    dsimp only
    rw [hf, Option.bind_some, hnone]
    rfl

/-- A file of a language that locates its references is read with them. -/
theorem scan_refs {file : Path} (h : ∀ l ∈ r.registry.find? file, l.Locates) :
    Ends (fun _ => True) (r.scan t known file) fun scanned _ => ∀ s ∈ scanned, ∃ refs generic, s = .refs refs generic := by
  have hnone : Ends (fun _ : ImportCache => True) (Pure.pure none) fun (scanned : Option Scanned) _ =>
      ∀ s ∈ scanned, ∃ refs generic, s = .refs refs generic := Ends.pure none fun _ _ => by simp
  have hreads : (r.registry.find? file).any (·.references?.isNone) = false := by
    rw [Option.any_eq_false]
    intro l hl
    obtain ⟨f, hf, _⟩ := h l hl
    simp [hf]
  have hrefs : ∀ extension fingerprint content, Ends (fun _ => True)
      (r.cachedRefs known file (r.registry.find? file) extension fingerprint content) fun refs _ => refs.isSome = true := by
    intro extension fingerprint content c _
    obtain ⟨refs, hrefs⟩ := Option.isSome_iff_exists.mp (refsOf_isSome h extension content)
    rw [cachedRefs_run, hrefs]
    rcases c.get file fingerprint with ⟨_ | _, _⟩ <;> rfl
  unfold scan
  split
  · exact hnone
  dsimp only
  split
  · exact hnone
  split
  · exact hnone
  split
  · exact hnone
  split
  · exact hnone
  rw [hreads, if_neg (by simp)]
  refine (hrefs _ _ _).bind fun refs => ?_
  cases refs with
  | none => exact fun _ h => by cases h
  | some refs => exact Ends.pure _ fun _ _ s hs => ⟨refs, _, (Option.some.inj hs).symm⟩

/-! ## Edits of a file that stays -/

/-- A reference of a file that stays is rewritten when the path that it names moves. -/
theorem updateSpecifier_changed {file : Path} {specifier written : String}
    (h : r.updateSpecifier known moves file file specifier = .changed written) : ∃ target base extension,
      known.resolve r.root file specifier = .resolved target base extension ∧ (moves.newLocation? target).isSome = true := by
  unfold updateSpecifier at h
  split at h
  · cases h
  · cases h
  · rename_i target base extension hresolve
    refine ⟨target, base, extension, hresolve, ?_⟩
    cases hnew : moves.newLocation? target with
    | some place => rfl
    | none => simp [hnew] at h

theorem planRef_edits {new : Path} {generic : Bool} {o : FileOutcome} {ref : ImportRef} {location : Span}
    (h : (r.planRef known moves new generic o ref location).edits ≠ o.edits) :
    ∃ written, r.updateSpecifier known moves o.path new ref.specifier = .changed written := by
  unfold planRef at h
  dsimp only at h
  split at h
  · exact absurd rfl h
  · exact ⟨_, ‹_›⟩
  · split at h <;> exact absurd rfl h
  · split at h <;> exact absurd rfl h

theorem planRefs_edits {new : Path} {generic : Bool} {refs : List ImportRef} {seen : List Span} {o : FileOutcome}
    (h : (r.planRefs known moves new generic refs seen o).edits ≠ o.edits) :
    ∃ ref ∈ refs, ∃ written, r.updateSpecifier known moves o.path new ref.specifier = .changed written := by
  induction refs generalizing seen o with
  | nil => exact absurd rfl h
  | cons ref rest ih =>
    have hlater : ∀ {seen : List Span}, (r.planRefs known moves new generic rest seen o).edits ≠ o.edits →
        ∃ ref' ∈ ref :: rest, ∃ written, r.updateSpecifier known moves o.path new ref'.specifier = .changed written :=
      fun hrest => by
        obtain ⟨ref', href', hchanged⟩ := ih hrest
        exact ⟨ref', List.mem_cons_of_mem ref href', hchanged⟩
    rw [planRefs] at h
    split at h
    · exact hlater h
    · rename_i location _
      split at h
      · exact hlater h
      · by_cases hfirst : (r.planRef known moves new generic o ref location).edits = o.edits
        · rw [← hfirst] at h
          obtain ⟨ref', href', hchanged⟩ := ih h
          rw [planRef_path] at hchanged
          exact ⟨ref', List.mem_cons_of_mem ref href', hchanged⟩
        · exact ⟨ref, by simp, planRef_edits hfirst⟩

theorem mem_targetsOf {file : Path} {refs : List ImportRef} {ref : ImportRef} (href : ref ∈ refs) {target : Path}
    {base : SpecifierBase} {extension : Option String}
    (h : known.resolve r.root file ref.specifier = .resolved target base extension) :
    target ∈ r.targetsOf known file refs :=
  List.mem_filterMap.mpr ⟨ref, href, by rw [h]⟩

/-- A file that stays and gets an edit refers to a path that moves. -/
theorem planFile_edits {file : Path} (hlanguage : ∀ l ∈ r.registry.find? file, l.Locates)
    (hstays : moves.newLocation? file = none) {c : ImportCache} {o : FileOutcome}
    (h : ((r.planFile t known moves file).run c).1 = some o) (hedits : o.edits ≠ []) : ∃ refs generic,
      ((r.scan t known file).run c).1 = some (.refs refs generic) ∧
        ∃ target ∈ r.targetsOf known file refs, (moves.newLocation? target).isSome = true := by
  have hscan : ∀ s ∈ ((r.scan t known file).run c).1, ∃ refs generic, s = .refs refs generic :=
    scan_refs hlanguage c trivial
  unfold planFile at h
  rw [StateT.run_bind] at h
  rcases hscanned : (r.scan t known file).run c with ⟨_ | scanned, c'⟩ <;> rw [hscanned] at h hscan
  · cases h
  · obtain ⟨refs, generic, rfl⟩ := hscan scanned rfl
    refine ⟨refs, generic, rfl, ?_⟩
    change (if _ then none else some (r.planRefs known moves ((moves.newLocation? file).getD file) generic refs []
      { path := file })) = some o at h
    obtain rfl := Option.some.inj (Option.ite_none_left_eq_some.mp h).2
    rw [hstays] at hedits
    obtain ⟨ref, href, written, hchanged⟩ := planRefs_edits hedits
    obtain ⟨target, base, extension, hresolve, hmoves⟩ := updateSpecifier_changed hchanged
    exact ⟨target, mem_targetsOf href hresolve, hmoves⟩

/-! ## Dependents -/

theorem mem_foldl_collect {p : Path} : ∀ {l : List FileOutcome} {acc : ReferenceEdits},
    p ∈ (l.foldl (collect moves) acc).dependents → p ∈ acc.dependents ∨
      ∃ o ∈ l, o.path = p ∧ o.edits ≠ [] ∧ moves.isMoved p = false
  | [], _, h => Or.inl h
  | o :: l, acc, h => by
    rcases mem_foldl_collect (l := l) h with h | ⟨o', ho', hp⟩
    · unfold collect at h
      dsimp only at h
      split_ifs at h with hcond
      · exact Or.inl h
      · rcases List.mem_append.mp h with h | h
        · exact Or.inl h
        · obtain rfl := List.mem_singleton.mp h
          simp only [Bool.or_eq_true, List.isEmpty_iff, not_or, Bool.not_eq_true] at hcond
          exact Or.inr ⟨o, by simp, rfl, hcond.1, hcond.2⟩
    · exact Or.inr ⟨o', List.mem_cons_of_mem o ho', hp⟩

variable {P : ImportCache → Prop} {c : ImportCache}

abbrev knownFiles (r : References) (t : Tree) : KnownFiles := .ofFiles r.root (r.projectFiles t)

/-- A plan of moves collects what it plans for each file. -/
theorem planMoves_answer (h : ∀ known, ∀ file ∈ r.projectFiles t, Blind P (r.scan t known file)) (hc : P c) :
    ((r.planMoves t moves).run c).1 = ((r.projectFiles t).filterMap fun file =>
      ((r.planFile t (r.knownFiles t) moves file).run c).1).foldl (collect moves) {} := by
  have hanswers := Blind.mapM_answers (f := r.planFile t (r.knownFiles t) moves) (l := r.projectFiles t)
    (fun file hfile => planFile_blind (h _ file hfile) moves) hc
  change ((((r.projectFiles t).mapM (r.planFile t (r.knownFiles t) moves)).run c).1.filterMap id).foldl
    (collect moves) {} = _
  rw [hanswers, List.filterMap_map]
  rfl

/-- A dependent of moves is a file of the project that does not move and gets an edit. -/
theorem of_mem_planMoves (h : ∀ known, ∀ file ∈ r.projectFiles t, Blind P (r.scan t known file)) (hc : P c) {p : Path}
    (hp : p ∈ ((r.planMoves t moves).run c).1.dependents) : p ∈ r.projectFiles t ∧ moves.isMoved p = false ∧
      ∃ o, ((r.planFile t (r.knownFiles t) moves p).run c).1 = some o ∧ o.edits ≠ [] := by
  rw [planMoves_answer h hc] at hp
  obtain ⟨o, ho, hpath, hedits, hmoved⟩ := (mem_foldl_collect hp).resolve_left (by simp)
  obtain ⟨file, hfile, hanswer⟩ := List.mem_filterMap.mp ho
  obtain rfl : o.path = file := planFile_path file c trivial o hanswer
  obtain rfl := hpath
  exact ⟨hfile, hmoved, o, hanswer, hedits⟩

/-- What the search for dependents makes of one file. -/
def hitsIn (r : References) (t : Tree) (known : KnownFiles) (targets : List Path) (file : Path) :
    Searching (Option (Path × PathSet)) := do
  match ← r.scan t known file with
  | none => return none
  | some scanned =>
    let hits := r.hitsOf known file targets scanned
    return if hits.isEmpty then none else some (file, hits)

variable {targets : List Path}

theorem hitsIn_path (file : Path) :
    Ends (fun _ => True) (r.hitsIn t known targets file) fun found _ => ∀ hits ∈ found, hits.1 = file := by
  unfold hitsIn
  refine Ends.bind (Q := fun _ _ => True) (fun _ _ => trivial) fun scanned => ?_
  cases scanned with
  | none => exact Ends.pure _ fun _ _ => by simp
  | some scanned =>
    refine Ends.pure _ fun _ _ hits hhits => ?_
    obtain ⟨_, heq⟩ := Option.ite_none_left_eq_some.mp hhits
    rw [← Option.some.inj heq]

/-- A file that refers to a target has a hit. -/
theorem hitsIn_refs {file : Path} {refs : List ImportRef} {generic : Bool}
    (hscan : ((r.scan t known file).run c).1 = some (.refs refs generic)) {target : Path}
    (htarget : target ∈ r.targetsOf known file refs) (hin : isTarget targets target = true) :
    ∃ hits, ((r.hitsIn t known targets file).run c).1 = some (file, hits) := by
  have hcontains : (r.hitsOf known file targets (.refs refs generic)).contains target = true := by
    rw [hitsOf, PathSet.contains_ofList, List.contains_iff_exists_mem_beq]
    exact ⟨target, List.mem_filter.mpr ⟨htarget, hin⟩, by simp⟩
  have hnonempty : (r.hitsOf known file targets (.refs refs generic)).isEmpty = false := by
    rw [List.isEmpty_eq_false_iff]
    intro hnil
    rw [hnil] at hcontains
    cases hcontains
  unfold hitsIn
  rw [StateT.run_bind]
  rcases hrun : (r.scan t known file).run c with ⟨scanned, c'⟩
  rw [hrun] at hscan
  obtain rfl : scanned = some (.refs refs generic) := hscan
  refine ⟨r.hitsOf known file targets (.refs refs generic), ?_⟩
  change (if _ then none else some (file, r.hitsOf known file targets (.refs refs generic))) = _
  rw [hnonempty, if_neg (by simp)]

/-- The search for dependents takes the files that are no targets one after the other. -/
theorem dependents_answer (h : ∀ known, ∀ file ∈ r.projectFiles t, Blind P (r.scan t known file)) (hc : P c) :
    ((r.dependents t targets).run c).1 = (((r.projectFiles t).filter fun f => !isTarget targets f).map fun file =>
      ((r.hitsIn t (r.knownFiles t) targets file).run c).1).filterMap id := by
  have hblind : ∀ file ∈ (r.projectFiles t).filter fun f => !isTarget targets f,
      Blind P (r.hitsIn t (r.knownFiles t) targets file) := fun file hfile =>
    (h _ file (List.mem_of_mem_filter hfile)).bind fun scanned => by
      cases scanned with
      | none => exact Blind.pure _
      | some scanned => exact Blind.pure _
  rw [← Blind.mapM_answers hblind hc]
  rfl

/-- A file outside of the targets that refers to one depends on them. -/
theorem mem_dependents (h : ∀ known, ∀ file ∈ r.projectFiles t, Blind P (r.scan t known file)) (hc : P c)
    {file : Path} (hfile : file ∈ r.projectFiles t) (hout : isTarget targets file = false) {refs : List ImportRef}
    {generic : Bool} (hscan : ((r.scan t (r.knownFiles t) file).run c).1 = some (.refs refs generic)) {target : Path}
    (htarget : target ∈ r.targetsOf (r.knownFiles t) file refs) (hin : isTarget targets target = true) :
    file ∈ ((r.dependents t targets).run c).1.map (·.1) := by
  obtain ⟨hits, hhits⟩ := hitsIn_refs hscan htarget hin
  rw [dependents_answer h hc]
  refine List.mem_map.mpr ⟨(file, hits), List.mem_filterMap.mpr ⟨some (file, hits), ?_, rfl⟩, rfl⟩
  exact List.mem_map.mpr ⟨file, List.mem_filter.mpr ⟨hfile, by simp [hout]⟩, hhits⟩

/-- Dependents are files of the project. -/
theorem dependents_files (targets : List Path)
    (h : ∀ known, ∀ file ∈ r.projectFiles t, Blind P (r.scan t known file)) (hc : P c) :
    ∀ p ∈ ((r.dependents t targets).run c).1.map (·.1), p ∈ r.projectFiles t := by
  intro p hp
  rw [dependents_answer h hc] at hp
  obtain ⟨hits, hmem, rfl⟩ := List.mem_map.mp hp
  obtain ⟨_, hanswers, rfl⟩ := List.mem_filterMap.mp hmem
  obtain ⟨file, hfile, hanswer⟩ := List.mem_map.mp hanswers
  rw [hitsIn_path file c trivial hits hanswer]
  exact List.mem_of_mem_filter hfile

/-- The dependents of moves are among the dependents of what moves, through caches that are alike. -/
theorem planMoves_covered (h : r.Unambiguous t)
    (hlanguages : ∀ file ∈ r.projectFiles t, ∀ l ∈ r.registry.find? file, l.Locates)
    (hmoves : moves.Takes targets (r.projectFiles t)) {c c' : ImportCache} (hcaches : r.Alike t c c') {p : Path}
    (hp : p ∈ ((r.planMoves t moves).run c).1.dependents) : p ∈ ((r.dependents t targets).run c').1.map (·.1) := by
  have hblind : ∀ known, ∀ file ∈ r.projectFiles t, Blind (r.Alike t c) (r.scan t known file) := fun known file hfile =>
    scan_alike h c known hfile
  obtain ⟨hfile, hstays, o, ho, hedits⟩ := of_mem_planMoves hblind (Alike.refl r t c) hp
  have hout : isTarget targets p = false := by
    by_contra hin
    rw [hmoves.moved p hfile (by simpa using hin)] at hstays
    cases hstays
  have hplace : moves.newLocation? p = none := by
    by_contra hnew
    rw [hmoves.only p (Option.isSome_iff_ne_none.mpr hnew)] at hout
    cases hout
  obtain ⟨refs, generic, hscan, target, htarget, hnew⟩ := planFile_edits (hlanguages p hfile) hplace ho hedits
  rw [(hblind _ p hfile).answer_eq (Alike.refl r t c) hcaches] at hscan
  exact mem_dependents hblind hcaches hfile hout hscan htarget (hmoves.only target hnew)

/-! ## Edits, file by file -/

theorem collect_edits (moves : Moves) {acc : ReferenceEdits} (o : FileOutcome) (hsorted : acc.edit.changes.Sorted) :
    (collect moves acc o).edit.changes.Sorted ∧ ∀ p e, e ∈ (collect moves acc o).edit.editsOf p ↔
      e ∈ acc.edit.editsOf p ∨ (p == o.path) = true ∧ e ∈ o.edits := by
  unfold collect
  dsimp only
  split
  · rename_i hnone
    exact ⟨hsorted, fun p e => by simp [List.isEmpty_iff.mp hnone]⟩
  · refine ⟨PathMap.alter_sorted o.path [] (· ++ o.edits) hsorted, fun p e => ?_⟩
    rw [WorkspaceEdit.editsOf_addEdits]
    split
    · rename_i hp
      rw [hp, List.mem_append, and_iff_right rfl]
    · rename_i hp
      simp [hp]

theorem foldl_collect_edits : ∀ {l : List FileOutcome} {acc : ReferenceEdits}, acc.edit.changes.Sorted →
    (l.foldl (collect moves) acc).edit.changes.Sorted ∧ ∀ p e, e ∈ (l.foldl (collect moves) acc).edit.editsOf p ↔
      e ∈ acc.edit.editsOf p ∨ ∃ o ∈ l, (p == o.path) = true ∧ e ∈ o.edits
  | [], _, hsorted => ⟨hsorted, by simp⟩
  | o :: l, acc, hsorted => by
    obtain ⟨hfirst, hstep⟩ := collect_edits moves o hsorted
    obtain ⟨hlast, hrest⟩ := foldl_collect_edits (l := l) hfirst
    refine ⟨hlast, fun p e => ?_⟩
    rw [List.foldl_cons, hrest, hstep, or_assoc]
    simp only [List.mem_cons, or_and_right, exists_or, exists_eq_left]

/-- The edits that the plan of moves has for a file. -/
def planned (r : References) (t : Tree) (m : Moves) (c : ImportCache) (file : Path) : List TextEdit :=
  (((r.planFile t (r.knownFiles t) m file).run c).1.map FileOutcome.edits).getD []

theorem planMoves_planned (moves : Moves)
    (h : ∀ known, ∀ file ∈ r.projectFiles t, Blind P (r.scan t known file)) (hc : P c) :
    ((r.planMoves t moves).run c).1.edit.changes.Sorted ∧ ∀ p e, e ∈ ((r.planMoves t moves).run c).1.edit.editsOf p ↔
      ∃ file ∈ r.projectFiles t, (p == file) = true ∧ e ∈ r.planned t moves c file := by
  have hnone : ({} : ReferenceEdits).edit.changes.Sorted := PathMap.Sorted.empty
  obtain ⟨hsorted, hedits⟩ := foldl_collect_edits
    (l := (r.projectFiles t).filterMap fun file => ((r.planFile t (r.knownFiles t) moves file).run c).1) hnone
  rw [planMoves_answer h hc]
  refine ⟨hsorted, fun p e => ?_⟩
  rw [hedits]
  constructor
  · rintro (h | ⟨o, ho, hp, he⟩)
    · cases h
    · obtain ⟨file, hfile, hanswer⟩ := List.mem_filterMap.mp ho
      obtain rfl : o.path = file := planFile_path file c trivial o hanswer
      exact ⟨o.path, hfile, hp, by rwa [planned, hanswer]⟩
  · rintro ⟨file, hfile, hp, he⟩
    unfold planned at he
    cases hanswer : ((r.planFile t (r.knownFiles t) moves file).run c).1 with
    | none =>
      rw [hanswer] at he
      cases he
    | some o =>
      rw [hanswer] at he
      obtain rfl : o.path = file := planFile_path file c trivial o hanswer
      exact Or.inr ⟨o, List.mem_filterMap.mpr ⟨o.path, hfile, hanswer⟩, hp, he⟩

section

variable {file : Path}

theorem planned_of_none (h : ((r.scan t (r.knownFiles t) file).run c).1 = none) : r.planned t moves c file = [] := by
  unfold planned planFile
  rw [StateT.run_bind]
  generalize (r.scan t (r.knownFiles t) file).run c = answer at h ⊢
  obtain ⟨_, c'⟩ := answer
  subst h
  rfl

theorem planned_of_refs {refs : List ImportRef} {generic : Bool}
    (h : ((r.scan t (r.knownFiles t) file).run c).1 = some (.refs refs generic)) : r.planned t moves c file =
      (r.planRefs (r.knownFiles t) moves ((moves.newLocation? file).getD file) generic refs [] { path := file }).edits := by
  unfold planned planFile
  rw [StateT.run_bind]
  generalize (r.scan t (r.knownFiles t) file).run c = answer at h ⊢
  obtain ⟨_, c'⟩ := answer
  subst h
  generalize ho :
    r.planRefs (r.knownFiles t) moves ((moves.newLocation? file).getD file) generic refs [] { path := file } = o
  -- a file without edits and warnings is left out
  have houtcome : (Option.map FileOutcome.edits (if o.isEmpty then none else some o)).getD [] = o.edits := by
    split
    · rename_i hempty
      exact (List.isEmpty_iff.mp (Bool.and_eq_true_iff.mp hempty).1).symm
    · rfl
  subst ho
  exact houtcome

end

end References

end Refactor
