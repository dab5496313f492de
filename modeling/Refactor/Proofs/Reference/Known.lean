import Refactor.Proofs.Path.Ancestors
import Refactor.Proofs.Path.Sorted
import Refactor.Reference.Resolve

/-!
# Known files and directories

The directories of a project are collected from its files: each file adds what lies above it in the root, up to the first
directory that is known already. Nothing is missed by stopping there, since all above a known directory is known as well.
What is stopped at is the directory, not its text: where the files write one directory in two ways, only the first of the
two texts can be found letter case aside.

* `KnownFiles.HoldsFile` — the directories of a project
* `KnownFiles.addDirs_spec` — what the directories above one file add
* `KnownFiles.Records.addFile`, `KnownFiles.records_ofFiles` — one file, and all files
* `KnownFiles.Alike.resolve` — specifiers are resolved by what is recorded, whatever its order
* `KnownFiles.ofFiles_records` — the directories known are those of the project, all of them and all files are found, and
  the order of the files makes no difference when no path is written in two ways
-/

namespace Refactor.KnownFiles

open Tree (pathOf)
open Path (IsName)

def HoldsFile (root : Path) (files : List Path) (d : Path) : Prop :=
  d.startsWith root = true ∧ ∃ f ∈ files, d.IsAncestor f

/-- A path by the lower case of its text. -/
def folding (p : Path) : String × Path := (Text.lower p.raw, p)

def Finds (k : KnownFiles) (p : Path) : Prop := folding p ∈ k.folded

variable {root : Path} {files : List Path} {k k' : KnownFiles} {d p : Path}

/-! ## The directories above one file -/

theorem isDir_insert (a : Path) :
    ({ k with dirs := PathSet.insert d k.dirs, folded := k.folded ++ [(Text.lower d.raw, d)] } : KnownFiles).isDir a =
      (a == d || k.isDir a) :=
  PathSet.contains_insert d a k.dirs

/-- What the directories `ds`, each above the one before it, add: those in the root that are not known yet. -/
structure Adds (root : Path) (ds : List Path) (k k' : KnownFiles) (added : List Path) : Prop where
  files : k'.files = k.files
  isDir : ∀ d, k'.isDir d = (k.isDir d || added.contains d)
  folded : k'.folded = k.folded ++ added.map folding
  inside : ∀ d ∈ added, d ∈ ds ∧ d.startsWith root = true
  known : ∀ d ∈ ds, d.startsWith root = true → k'.isDir d = true

theorem addDirs_spec : ∀ {ds : List Path} {k : KnownFiles}, ds.Pairwise (fun a b => b.IsAncestor a) →
    ds.Pairwise (fun a b => k.isDir a = true → b.startsWith root = true → k.isDir b = true) →
    ∃ added, Adds root ds k (addDirs root ds k) added
  | [], k, _, _ => ⟨[], rfl, by simp [addDirs], by simp [addDirs], by simp, by simp⟩
  | d :: ds, k, hchain, hclosed => by
    obtain ⟨habove, hchain⟩ := List.pairwise_cons.mp hchain
    obtain ⟨hknown, hclosed⟩ := List.pairwise_cons.mp hclosed
    rw [addDirs]
    by_cases hstop : (!d.startsWith root || k.dirs.contains d) = true
    · rw [if_pos hstop]
      refine ⟨[], rfl, by simp, by simp, by simp, fun a ha hroot => ?_⟩
      rw [Bool.or_eq_true, Bool.not_eq_true', ← Bool.not_eq_true] at hstop
      rcases List.mem_cons.mp ha with rfl | ha
      · exact hstop.resolve_left (absurd hroot)
      · rcases hstop with hout | hd
        · -- nothing above a directory outside of the root lies in it
          rw [Path.startsWith_iff] at hout hroot
          exact absurd (hroot.trans (habove a ha).1) hout
        · exact hknown a ha hd hroot
    · rw [if_neg hstop]
      rw [Bool.or_eq_true, Bool.not_eq_true', not_or, Bool.not_eq_false] at hstop
      have hother : ∀ a ∈ ds, (a == d) = false := fun a ha =>
        (Path.beq_eq_false_iff a d).mpr (habove a ha).2.1
      obtain ⟨added, h⟩ := addDirs_spec hchain (k := { k with
        dirs := PathSet.insert d k.dirs, folded := k.folded ++ [(Text.lower d.raw, d)] }) <| by
        refine hclosed.imp_of_mem fun {a b} ha _ hab => ?_
        rw [isDir_insert, isDir_insert, hother a ha, Bool.false_or]
        exact fun hka hroot => by rw [hab hka hroot, Bool.or_true]
      refine ⟨d :: added, h.files, fun a => ?_, ?_, ?_, ?_⟩
      · rw [h.isDir, isDir_insert, List.contains_cons, Bool.or_comm (a == d), Bool.or_assoc]
      · rw [h.folded, List.map_cons, List.append_assoc]
        rfl
      · rintro a (_ | ⟨_, ha⟩)
        · exact ⟨by simp, hstop.1⟩
        · exact ⟨List.mem_cons_of_mem _ (h.inside a ha).1, (h.inside a ha).2⟩
      · rintro a (_ | ⟨_, ha⟩) hroot
        · rw [h.isDir, isDir_insert]
          simp
        · exact h.known a ha hroot

theorem startsWith_congr {a : Path} (h : (a == d) = true) : a.startsWith root = d.startsWith root := by
  rw [Bool.eq_iff_iff, Path.startsWith_iff, Path.startsWith_iff, (Path.beq_iff a d).mp h]

/-- Once the directories above a file are added, all its ancestors in the root are known. -/
theorem Adds.isDir_iff {f : Path} {added : List Path} (h : Adds root f.above k k' added) (d : Path) :
    k'.isDir d = true ↔ k.isDir d = true ∨ d.startsWith root = true ∧ d.IsAncestor f := by
  constructor
  · intro hd
    rw [h.isDir, Bool.or_eq_true] at hd
    refine hd.imp_right fun hd => ?_
    obtain ⟨a, ha, hda⟩ := List.contains_iff_exists_mem_beq.mp hd
    obtain ⟨habove, hroot⟩ := h.inside a ha
    exact ⟨(startsWith_congr hda).trans hroot, (f.exists_above_iff d).mp ⟨a, habove, Path.beq_comm a d ▸ hda⟩⟩
  · rintro (hd | ⟨hroot, hd⟩)
    · rw [h.isDir, hd, Bool.true_or]
    · obtain ⟨a, ha, had⟩ := (f.exists_above_iff d).mpr hd
      exact (PathSet.contains_congr had _).symm.trans (h.known a ha ((startsWith_congr had).trans hroot))

/-! ## All files -/

/-- The files of the list and, in the root, the directories above them as the files write them. -/
def Listed (root : Path) (files : List Path) (p : Path) : Prop :=
  p ∈ files ∨ p.startsWith root = true ∧ ∃ f ∈ files, p ∈ f.above

/-- What is known of a list of files. -/
structure Records (root : Path) (files : List Path) (k : KnownFiles) : Prop where
  isFile : ∀ p, k.isFile p = true ↔ ∃ f ∈ files, (p == f) = true
  isDir : ∀ d, k.isDir d = true ↔ HoldsFile root files d
  finds_file : ∀ f ∈ files, k.Finds f
  finds_dir : ∀ d, k.isDir d = true → ∃ d', (d' == d) = true ∧ k.Finds d'
  only : ∀ e ∈ k.folded, ∃ p, e = folding p ∧ Listed root files p

theorem records_nil : Records root [] {} where
  isFile := by simp [isFile]
  isDir := by simp [isDir, HoldsFile]
  finds_file := by simp
  finds_dir := by simp [isDir]
  only := by simp

theorem HoldsFile.above (h : HoldsFile root files d) {a : Path} (ha : a.IsAncestor d) (hroot : a.startsWith root = true) :
    HoldsFile root files a := by
  obtain ⟨_, f, hf, hd⟩ := h
  exact ⟨hroot, f, hf, ha.trans hd⟩

theorem holdsFile_concat (f : Path) : HoldsFile root (files ++ [f]) d ↔
    HoldsFile root files d ∨ d.startsWith root = true ∧ d.IsAncestor f := by
  simp only [HoldsFile, List.mem_append, List.mem_singleton, or_and_right, exists_or, exists_eq_left, and_or_left]

/-- The directories above one more file are added, as those known before are closed upwards. -/
theorem Records.adds (h : Records root files k) (f : Path) : ∃ added, Adds root f.above
    { k with files := PathSet.insert f k.files, folded := k.folded ++ [folding f] } (addFile root k f) added :=
  addDirs_spec f.above_pairwise <| f.above_pairwise.imp fun hab ha hroot =>
    (h.isDir _).mpr (((h.isDir _).mp ha).above hab hroot)

theorem Records.addFile (h : Records root files k) (f : Path) : Records root (files ++ [f]) (addFile root k f) := by
  obtain ⟨added, hadds⟩ := h.adds f
  have hfiles : (KnownFiles.addFile root k f).files = PathSet.insert f k.files := hadds.files
  have hfolded : (KnownFiles.addFile root k f).folded = k.folded ++ [folding f] ++ added.map folding := hadds.folded
  refine ⟨fun p => ?_, fun d => ?_, fun g hg => ?_, fun d hd => ?_, fun e he => ?_⟩
  · have hp : (KnownFiles.addFile root k f).isFile p = (p == f || k.isFile p) :=
      (congrArg (·.contains p) hfiles).trans (PathSet.contains_insert f p k.files)
    rw [hp, Bool.or_eq_true, h.isFile]
    simp only [List.mem_append, List.mem_singleton, or_and_right, exists_or, exists_eq_left]
    exact or_comm
  · rw [hadds.isDir_iff, holdsFile_concat]
    exact or_congr_left (h.isDir d)
  · unfold Finds
    rw [hfolded, List.mem_append, List.mem_append]
    rcases List.mem_append.mp hg with hg | hg
    · exact Or.inl (Or.inl (h.finds_file g hg))
    · exact Or.inl (Or.inr (by rw [List.mem_singleton.mp hg]; simp))
  · unfold Finds
    rw [hfolded]
    rcases Bool.or_eq_true_iff.mp ((hadds.isDir d).symm.trans hd) with hd | hd
    · obtain ⟨d', heq, hfinds⟩ := h.finds_dir d hd
      exact ⟨d', heq, List.mem_append_left _ (List.mem_append_left _ hfinds)⟩
    · obtain ⟨a, ha, hda⟩ := List.contains_iff_exists_mem_beq.mp hd
      exact ⟨a, Path.beq_comm d a ▸ hda, List.mem_append_right _ (List.mem_map_of_mem ha)⟩
  · rw [hfolded, List.mem_append, List.mem_append, List.mem_singleton] at he
    rcases he with (he | rfl) | he
    · obtain ⟨p, rfl, hp | ⟨hroot, g, hg, hp⟩⟩ := h.only e he
      · exact ⟨p, rfl, Or.inl (List.mem_append_left _ hp)⟩
      · exact ⟨p, rfl, Or.inr ⟨hroot, g, List.mem_append_left _ hg, hp⟩⟩
    · exact ⟨f, rfl, Or.inl (by simp)⟩
    · obtain ⟨a, ha, rfl⟩ := List.mem_map.mp he
      obtain ⟨habove, hroot⟩ := hadds.inside a ha
      exact ⟨a, rfl, Or.inr ⟨hroot, f, by simp, habove⟩⟩

theorem records_ofFiles (root : Path) (files : List Path) : Records root files (ofFiles root files) := by
  induction files using List.reverseRecOn with
  | nil => exact records_nil
  | append_singleton files f ih =>
    unfold ofFiles at ih ⊢
    rw [List.foldl_append]
    exact ih.addFile f

/-! ## Resolving -/

/-- The same files and directories, which are found under the same texts. No path is found in two ways of writing. -/
structure Alike (k k' : KnownFiles) : Prop where
  isFile : ∀ p, k.isFile p = k'.isFile p
  isDir : ∀ p, k.isDir p = k'.isDir p
  folded : ∀ e, e ∈ k.folded ↔ e ∈ k'.folded
  unique : ∀ e ∈ k.folded, ∀ e' ∈ k.folded, (e.2 == e'.2) = true → e.2 = e'.2

/-- What is found, letter case aside, at a place that a path text may mean. -/
def foundAt (k : KnownFiles) (x : SpecifierBase × Path) : List (Path × SpecifierBase) :=
  (x.2 :: (variants x.2).map (·.1)).flatMap fun v =>
    (k.folded.filter (·.1 == Text.lower v.raw)).map fun e => (e.2, x.1)

theorem byCase_eq (k : KnownFiles) (bs : List (SpecifierBase × Path)) : k.byCase bs =
    match PathSet.ofList ((bs.flatMap k.foundAt).map (·.1)) with
    | [] => .unresolved
    | [p] => .resolved p (((bs.flatMap k.foundAt).head?.map (·.2)).getD .importingFile) none
    | ps => .ambiguous ps := rfl

theorem mem_foundAt {x : SpecifierBase × Path} {y : Path × SpecifierBase} : y ∈ k.foundAt x ↔
    ∃ v ∈ x.2 :: (variants x.2).map (·.1), ∃ e ∈ k.folded, e.1 = Text.lower v.raw ∧ (e.2, x.1) = y := by
  simp only [foundAt, List.mem_flatMap, List.mem_map, List.mem_filter, beq_iff_eq, and_assoc]

namespace Alike

variable (h : Alike k k')
include h

theorem foundAt (x : SpecifierBase × Path) (y : Path × SpecifierBase) : y ∈ k.foundAt x ↔ y ∈ k'.foundAt x := by
  simp only [mem_foundAt, h.folded]

/-- The place that answers first is the same, as it is the first one where anything is found. -/
theorem first (bs : List (SpecifierBase × Path)) :
    (bs.flatMap k.foundAt).head?.map (·.2) = (bs.flatMap k'.foundAt).head?.map (·.2) := by
  have hplace : ∀ (k : KnownFiles) (x : SpecifierBase × Path) (y : Path × SpecifierBase),
      (k.foundAt x).head? = some y → y.2 = x.1 := by
    intro k x y hy
    obtain ⟨_, _, _, _, _, rfl⟩ := mem_foundAt.mp (List.mem_of_head? hy)
    rfl
  rw [List.head?_flatMap, List.head?_flatMap]
  induction bs with
  | nil => rfl
  | cons x bs ih =>
    rw [List.findSome?_cons, List.findSome?_cons]
    have hnone : (k.foundAt x).head? = none ↔ (k'.foundAt x).head? = none := by
      simp only [List.head?_eq_none_iff, List.eq_nil_iff_forall_not_mem, h.foundAt x]
    cases hx : (k.foundAt x).head? with
    | none =>
      rw [hnone.mp hx]
      exact ih
    | some y =>
      cases hx' : (k'.foundAt x).head? with
      | none =>
        rw [hnone.mpr hx'] at hx
        cases hx
      | some y' => exact congrArg some ((hplace k x y hx).trans (hplace k' x y' hx').symm)

theorem byCase (bs : List (SpecifierBase × Path)) : k.byCase bs = k'.byCase bs := by
  have hfound : ∀ p, p ∈ (bs.flatMap k.foundAt).map (·.1) ↔ p ∈ (bs.flatMap k'.foundAt).map (·.1) := by
    simp only [List.mem_map, List.mem_flatMap, h.foundAt, implies_true]
  have hentry : ∀ p ∈ (bs.flatMap k.foundAt).map (·.1), ∃ e ∈ k.folded, e.2 = p := by
    intro p hp
    obtain ⟨y, hy, rfl⟩ := List.mem_map.mp hp
    obtain ⟨x, _, hy⟩ := List.mem_flatMap.mp hy
    obtain ⟨_, _, e, he, _, rfl⟩ := mem_foundAt.mp hy
    exact ⟨e, he, rfl⟩
  have hset := PathSet.ofList_congr hfound fun p hp q hq hpq => by
    obtain ⟨e, he, rfl⟩ := hentry p hp
    obtain ⟨e', he', rfl⟩ := hentry q hq
    exact h.unique e he e' he' hpq
  rw [byCase_eq, byCase_eq, hset, h.first bs]

/-- A specifier is resolved by what is recorded, whatever the order in which it was. -/
theorem resolve (root importer : Path) (specifier : String) :
    k.resolve root importer specifier = k'.resolve root importer specifier := by
  have hfile : k.isFile = k'.isFile := funext h.isFile
  have hdir : k.isDir = k'.isDir := funext h.isDir
  unfold KnownFiles.resolve exactly? byExtension? byDirectory?
  simp only [hfile, hdir, h.byCase]

end Alike

/-! ## Files in any order -/

/-- No two of the files write one path in two ways, nor a directory above them. -/
def WrittenAlike (files : List Path) : Prop :=
  ∀ f ∈ files, ∀ g ∈ files, ∀ p ∈ f.ancestors, ∀ q ∈ g.ancestors, (p == q) = true → p.raw = q.raw

instance : DecidablePred WrittenAlike := fun files => inferInstanceAs (Decidable (∀ f ∈ files, ∀ g ∈ files,
  ∀ p ∈ f.ancestors, ∀ q ∈ g.ancestors, (p == q) = true → p.raw = q.raw))

theorem Listed.ancestor (h : Listed root files p) : ∃ f ∈ files, p ∈ f.ancestors := by
  rcases h with h | ⟨_, f, hf, h⟩
  · exact ⟨p, h, by simp [Path.ancestors, Path.ancestors.go]⟩
  · exact ⟨f, hf, List.mem_of_mem_drop h⟩

theorem WrittenAlike.eq (h : WrittenAlike files) {q : Path} (hp : Listed root files p) (hq : Listed root files q)
    (hpq : (p == q) = true) : p = q := by
  obtain ⟨f, hf, hp⟩ := hp.ancestor
  obtain ⟨g, hg, hq⟩ := hq.ancestor
  exact congrArg Path.mk (h f hf g hg p hp q hq hpq)

/-- Files of places are written alike. -/
theorem writtenAlike_places
    (h : ∀ p ∈ files, ∃ place : Place, (∀ s ∈ place, IsName s) ∧ p = pathOf place) : WrittenAlike files := by
  have hancestors : ∀ p ∈ files, ∀ d ∈ p.ancestors, ∃ place : Place, (∀ s ∈ place, IsName s) ∧ d = pathOf place := by
    intro p hp d hd
    obtain ⟨place, hplace, rfl⟩ := h p hp
    rw [Path.ancestors_pathOf fun s hs => (hplace s hs).1, List.mem_map] at hd
    obtain ⟨front, hfront, rfl⟩ := hd
    rw [List.mem_reverse, List.mem_inits] at hfront
    exact ⟨front, fun s hs => hplace s (hfront.subset hs), rfl⟩
  intro p hp q hq d hd d' hd' hbeq
  obtain ⟨place, hplace, rfl⟩ := hancestors p hp d hd
  obtain ⟨place', hplace', rfl⟩ := hancestors q hq d' hd'
  rw [(Path.pathOf_beq_iff hplace hplace').mp hbeq]

/-- Where no path is written in two ways, just the files and the directories above them in the root are found. -/
theorem Records.mem_folded_iff (h : Records root files k) (halike : WrittenAlike files) (e : String × Path) :
    e ∈ k.folded ↔ ∃ p, e = folding p ∧ Listed root files p := by
  refine ⟨h.only e, ?_⟩
  rintro ⟨p, rfl, hp⟩
  rcases hp with hfile | ⟨hroot, f, hf, habove⟩
  · exact h.finds_file p hfile
  · obtain ⟨d, hdp, hd⟩ := h.finds_dir p ((h.isDir p).mpr ⟨hroot, f, hf, Path.above_isAncestor habove⟩)
    obtain ⟨d', heq, hlisted⟩ := h.only _ hd
    obtain rfl : d = d' := congrArg Prod.snd heq
    rwa [← halike.eq hlisted (Or.inr ⟨hroot, f, hf, habove⟩) hdp]

theorem Records.alike {files' : List Path} (h : Records root files k) (h' : Records root files' k')
    (halike : WrittenAlike files) (hmem : ∀ p, p ∈ files' ↔ p ∈ files) : Alike k k' where
  isFile p := by
    rw [Bool.eq_iff_iff, h.isFile, h'.isFile]
    simp only [hmem]
  isDir d := by
    rw [Bool.eq_iff_iff, h.isDir, h'.isDir]
    simp only [HoldsFile, hmem]
  folded e := by
    have halike' : WrittenAlike files' := by simpa only [WrittenAlike, hmem] using halike
    rw [h.mem_folded_iff halike, h'.mem_folded_iff halike']
    simp only [Listed, hmem]
  unique e he e' he' heq := by
    obtain ⟨p, rfl, hp⟩ := h.only e he
    obtain ⟨q, rfl, hq⟩ := h.only e' he'
    exact halike.eq hp hq heq

/-- The directories known of a list of files are those in the root with one of the files below. All of the files can be
found letter case aside, and each directory in one of the ways in which it is written. Where no path is written in two
ways, that is each directory as it is written, and specifiers are resolved in the same way whatever the order of the files
and however often they are listed. -/
theorem ofFiles_records (root : Path) (files : List Path) :
    (∀ d, (ofFiles root files).isDir d = true ↔ HoldsFile root files d) ∧
    (∀ f ∈ files, (ofFiles root files).Finds f) ∧
    (∀ d, HoldsFile root files d → ∃ d', (d' == d) = true ∧ (ofFiles root files).Finds d') ∧
    (WrittenAlike files →
      (∀ f ∈ files, ∀ d ∈ f.above, d.startsWith root = true → (ofFiles root files).Finds d) ∧
      ∀ files', (∀ p, p ∈ files' ↔ p ∈ files) → ∀ importer specifier,
        (ofFiles root files').resolve root importer specifier = (ofFiles root files).resolve root importer specifier) := by
  have h := records_ofFiles root files
  refine ⟨h.isDir, h.finds_file, fun d hd => h.finds_dir d ((h.isDir d).mpr hd), fun halike => ⟨?_, ?_⟩⟩
  · intro f hf d hd hroot
    exact (h.mem_folded_iff halike _).mpr ⟨d, rfl, Or.inr ⟨hroot, f, hf, hd⟩⟩
  · intro files' hmem importer specifier
    exact ((h.alike (records_ofFiles root files') halike hmem).resolve root importer specifier).symm

/-- Two files that write the directory above them in the same way. -/
theorem ofFiles_records_reversed :
    (ofFiles ⟨"/p"⟩ [⟨"/p/x/a/b.ts"⟩, ⟨"/p/x/a/c.ts"⟩]).Finds ⟨"/p/x/a"⟩ ∧
      (ofFiles ⟨"/p"⟩ [⟨"/p/x/a/c.ts"⟩, ⟨"/p/x/a/b.ts"⟩]).resolve ⟨"/p"⟩ ⟨"/p/m.ts"⟩ "X/A" =
        (ofFiles ⟨"/p"⟩ [⟨"/p/x/a/b.ts"⟩, ⟨"/p/x/a/c.ts"⟩]).resolve ⟨"/p"⟩ ⟨"/p/m.ts"⟩ "X/A" := by
  obtain ⟨hfinds, hresolve⟩ :=
    (ofFiles_records ⟨"/p"⟩ [⟨"/p/x/a/b.ts"⟩, ⟨"/p/x/a/c.ts"⟩]).2.2.2 (by decide +kernel)
  refine ⟨hfinds ⟨"/p/x/a/b.ts"⟩ (by simp) ⟨"/p/x/a"⟩ ?_ (by decide +kernel), hresolve _ (fun p => ?_) _ _⟩
  · exact List.mem_cons_self
  · simp [or_comm]

/-- Two files that write the directory above them in two ways: it is known, but not found under its second text. -/
theorem ofFiles_two_writings :
    (ofFiles ⟨"/p"⟩ [⟨"/p/x//a/b.ts"⟩, ⟨"/p/x/a/c.ts"⟩]).isDir ⟨"/p/x/a"⟩ = true ∧
      Text.lower "/p/x/a" ∉ (ofFiles ⟨"/p"⟩ [⟨"/p/x//a/b.ts"⟩, ⟨"/p/x/a/c.ts"⟩]).folded.map (·.1) := by
  decide +kernel

end Refactor.KnownFiles
