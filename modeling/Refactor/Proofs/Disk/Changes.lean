import Mathlib.Logic.Function.Basic
import Refactor.Proofs.Disk.Locate

/-!
# What calls change in a tree

For every call that changes a tree, the entries of the tree it leaves.

* `Tree.Holds` — a tree with one entry put at or taken from a place, and its files
* `Tree.write_ok`, `Tree.removeFile_ok`, `Tree.removeDir_ok`, `Tree.rename_ok` — the tree after a call
* `Tree.Grown`, `Tree.makeDirs_names` — a tree with all directories down to a place
-/

namespace Refactor.Tree

open Path (IsName)

variable {t t' : Tree}

/-- A well-formed tree that differs from another one in the entry at one place. -/
structure Holds (t : Tree) (place : Place) (entry : Option Entry) (t' : Tree) : Prop where
  wellFormed : t'.WellFormed
  get? : ∀ q, t'.get? q = if q = place then entry else t.get? q

/-! ## Files after a change -/

section

variable {p : Place}

theorem Holds.fileAt_file {b : ByteArray} (h : t.Holds p (some (.file b)) t') :
    t'.fileAt = Function.update t.fileAt p (some b) := by
  funext q
  unfold fileAt
  rw [h.get?, Function.update_apply]
  split_ifs <;> rfl

theorem Holds.fileAt_none (h : t.Holds p none t') : t'.fileAt = Function.update t.fileAt p none := by
  funext q
  unfold fileAt
  rw [h.get?, Function.update_apply]
  split_ifs <;> rfl

theorem fileAt_of_dir (h : t.get? p = some .dir) : t.fileAt p = none := by
  unfold fileAt
  rw [h]

theorem Holds.fileAt_of_dir (h : t.Holds p none t') (hdir : t.get? p = some .dir) : t'.fileAt = t.fileAt := by
  rw [h.fileAt_none, Function.update_eq_self_iff, Tree.fileAt_of_dir hdir]

/-- What is no file gives way to what is no file. -/
theorem Holds.fileAt_of_not_file {entry : Option Entry} (h : t.Holds p entry t')
    (hold : ∀ b, t.get? p ≠ some (.file b)) (hnew : ∀ b, entry ≠ some (.file b)) : t'.fileAt = t.fileAt := by
  funext q
  refine fileAt_congr fun b => ?_
  rw [h.get?]
  split_ifs with hq
  · simp [hq, hold b, hnew b]
  · rfl

theorem Holds.fileAt_of_ne {entry : Option Entry} (h : t.Holds p entry t') {q : Place} (hq : q ≠ p) :
    t'.fileAt q = t.fileAt q := fileAt_congr fun b => by rw [h.get?, if_neg hq]

end

/-! ## Calls on files -/

theorem write_ok (h : t.WellFormed) {p : Path} {b : ByteArray} (hwrite : t.write p b = .ok t') :
    t.get? (placeOf p) ≠ some .dir ∧ t.Holds (placeOf p) (some (.file b)) t' := by
  unfold write at hwrite
  cases hlocate : t.locate false p with
  | error e => rw [hlocate] at hwrite; cases hwrite
  | ok place =>
    rw [hlocate] at hwrite
    simp only [bind, Except.bind] at hwrite
    obtain ⟨_, rfl, hroute⟩ := (locate_eq_ok_iff h false p place).mp hlocate
    have hdir : t.get? (placeOf p) ≠ some .dir := by
      intro hdir
      rw [hdir] at hwrite
      cases hwrite
    obtain hisdir | ⟨d, s, hplace, hs, hd, _⟩ := placeOf_cases h hroute
    · exact absurd hisdir hdir
    have ht' : t' = t.set (placeOf p) (.file b) := by
      split at hwrite
      · cases hwrite
      · cases hwrite
        rfl
    refine ⟨hdir, ?_, ?_⟩
    · rw [ht', hplace]
      exact h.set hd hs (Or.inr ⟨⟨b, rfl⟩, hplace ▸ hdir⟩)
    · rw [ht']
      exact get?_set (by simp [hplace]) t _

theorem write_of_route (h : t.WellFormed) {p : Path} (hp : p.raw ≠ "") (hroute : ∀ q ∈ routeOf p, t.get? q = some .dir)
    (hdir : t.get? (placeOf p) ≠ some .dir) (b : ByteArray) : ∃ t', t.write p b = .ok t' := by
  unfold write
  rw [(locate_eq_ok_iff h false p _).mpr ⟨hp, rfl, hroute⟩]
  refine ⟨t.set (placeOf p) (.file b), ?_⟩
  simp only [bind, Except.bind]

theorem removeFile_ok (h : t.WellFormed) {p : Path} (hremove : t.removeFile p = .ok t') :
    (∃ b, t.get? (placeOf p) = some (.file b)) ∧ t.Holds (placeOf p) none t' := by
  unfold removeFile at hremove
  cases hentry : t.entry false p with
  | error e => rw [hentry] at hremove; cases hremove
  | ok found =>
    obtain ⟨place, e⟩ := found
    rw [hentry] at hremove
    simp only [bind, Except.bind] at hremove
    obtain ⟨rfl, _, _, hget⟩ := (entry_eq_ok_iff_finds h false p place e).mp hentry
    cases e with
    | dir => cases hremove
    | link target => exact absurd hget (h.noLinks _ _)
    | file b =>
      cases hremove
      have hne : placeOf p ≠ [] := fun hnil => by rw [hnil] at hget; cases hget
      have hnotdir : t.get? (placeOf p) ≠ some .dir := by rw [hget]; simp
      refine ⟨⟨b, hget⟩, ?_, ?_⟩
      · exact h.erase hne fun s => h.get?_below hnotdir (by simp)
      · exact get?_erase hne t

theorem removeFile_of_finds (h : t.WellFormed) {p : Path} {b : ByteArray} (hp : t.Finds p (.file b)) :
    ∃ t', t.removeFile p = .ok t' := by
  unfold removeFile
  rw [(entry_eq_ok_iff_finds h false p _ _).mpr ⟨rfl, hp⟩]
  exact ⟨_, rfl⟩

/-! ## Empty directories -/

theorem removeDir_eq_ok_iff (h : t.WellFormed) {d : Place} (hd : ∀ s ∈ d, IsName s) :
    t.removeDir (pathOf d) = .ok t' ↔
      t.get? d = some .dir ∧ (∀ s, t.get? (d ++ [s]) = none) ∧ t' = t.erase d := by
  unfold removeDir
  cases hget : t.get? d with
  | none =>
    have hentry : ∀ found, t.entry false (pathOf d) ≠ .ok found := by
      intro found hfound
      have := ((entry_eq_ok_iff_finds h false _ found.1 found.2).mp hfound).2
      rw [finds_names_iff h hd, hget] at this
      cases this
    cases hcase : t.entry false (pathOf d) with
    | error e => simp [bind, Except.bind]
    | ok found => exact absurd hcase (hentry found)
  | some e =>
    rw [(entry_eq_ok_iff_finds h false _ _ e).mpr ⟨rfl, (finds_names_iff h hd e).mpr hget⟩, placeOf_names hd]
    simp only [bind, Except.bind]
    cases e with
    | file b => simp
    | link target => exact absurd hget (h.noLinks _ _)
    | dir =>
      rw [← children_isEmpty_iff]
      cases (t.children d).isEmpty
      · simp
      · simp [eq_comm]

theorem removeDir_ok (h : t.WellFormed) {d : Place} (hd : ∀ s ∈ d, IsName s) (hne : d ≠ [])
    (hremove : t.removeDir (pathOf d) = .ok t') :
    t.get? d = some .dir ∧ (∀ s, t.get? (d ++ [s]) = none) ∧ t.Holds d none t' := by
  obtain ⟨hdir, hempty, rfl⟩ := (removeDir_eq_ok_iff h hd).mp hremove
  exact ⟨hdir, hempty, h.erase hne hempty, get?_erase hne t⟩

/-! ## Moves -/

theorem relocate_file (h : t.WellFormed) {src dst : Place} {b : ByteArray} (hsrc : t.get? src = some (.file b)) :
    t.relocate src dst = (t.erase src).set dst (.file b) := by
  have hne : src ≠ [] := fun hnil => by rw [hnil] at hsrc; cases hsrc
  have hmem := (h.get?_eq_some_iff hne).mp hsrc
  have hbelow : ∀ p e, (p, e) ∈ t.entries → (src.isPrefixOf p = true ↔ p = src) := by
    intro p e hp
    rw [List.isPrefixOf_iff_prefix]
    refine ⟨?_, fun heq => by rw [heq]⟩
    rintro ⟨rest, rfl⟩
    by_cases hrest : rest = []
    · simp [hrest]
    · have hnotdir : t.get? src ≠ some .dir := by rw [hsrc]; simp
      have hsome : t.get? (src ++ rest) ≠ none := (get?_ne_none_iff (by simp [hne])).mpr ⟨e, hp⟩
      exact absurd (h.get?_below hnotdir hrest) hsome
  have hmoved : (t.entries.filter fun entry => src.isPrefixOf entry.1) = [(src, .file b)] := by
    refine eq_of_sorted (h.sorted.filter _) (List.pairwise_singleton _ _) ?_
    rintro ⟨p, e⟩
    rw [List.mem_filter, List.mem_singleton, Prod.mk.injEq]
    constructor
    · rintro ⟨hp, hlead⟩
      obtain rfl := (hbelow p e hp).mp hlead
      rw [← h.get?_eq_some_iff hne, hsrc] at hp
      exact ⟨rfl, (Option.some.inj hp).symm⟩
    · rintro ⟨rfl, rfl⟩
      exact ⟨hmem, (hbelow p _ hmem).mpr rfl⟩
  have hkept : (t.entries.filter fun entry => !src.isPrefixOf entry.1) = t.entries.filter (·.1 != src) := by
    refine List.filter_congr fun entry hentry => ?_
    rw [bne, Bool.not_inj_iff, Bool.eq_iff_iff, beq_iff_eq]
    exact hbelow entry.1 entry.2 hentry
  show (t.entries.filter fun entry => src.isPrefixOf entry.1).foldl
    (fun (t : Tree) entry => t.set (dst ++ entry.1.drop src.length) entry.2)
    (Tree.mk (t.entries.filter fun entry => !src.isPrefixOf entry.1)) = _
  rw [hmoved, hkept, List.foldl_cons, List.foldl_nil, List.drop_length, List.append_nil]
  rfl

/-- A file after a move: it stands at the new place, and no longer at the old one. -/
theorem rename_ok (h : t.WellFormed) {src dst : Place} (hsrc : ∀ s ∈ src, IsName s) (hdst : ∀ s ∈ dst, IsName s)
    {b : ByteArray} (hfile : t.get? src = some (.file b)) (hrename : t.rename (pathOf src) (pathOf dst) = .ok t') :
    t.get? dst ≠ some .dir ∧ t'.WellFormed ∧
      ∀ q, t'.get? q = if q = dst then some (.file b) else if q = src then none else t.get? q := by
  unfold rename at hrename
  rw [(entry_eq_ok_iff_finds h false _ _ _).mpr ⟨rfl, (finds_names_iff h hsrc _).mpr hfile⟩, placeOf_names hsrc] at hrename
  cases hlocate : t.locate false (pathOf dst) with
  | error e => rw [hlocate] at hrename; cases hrename
  | ok place =>
    rw [hlocate] at hrename
    simp only [bind, Except.bind] at hrename
    obtain ⟨rfl, hparent⟩ := (locate_names_iff h false hdst place).mp hlocate
    by_cases hsame : src = place
    · subst hsame
      rw [if_pos (by simp)] at hrename
      cases hrename
      refine ⟨by rw [hfile]; simp, h, fun q => ?_⟩
      split_ifs with hq
      · rw [hq, hfile]
      · rfl
    rw [if_neg (by simpa using hsame)] at hrename
    have hdir : t.get? place ≠ some .dir := by
      intro hdir
      rw [hdir] at hrename
      cases hrename
    have ht' : t' = (t.erase place).relocate src place := by
      split at hrename
      · rename_i heq _
        cases heq
      · rename_i heq _
        cases heq
      · rename_i heq _
        cases heq
      · cases hrename
      · cases hrename
        rfl
    have hne : place ≠ [] := fun hnil => by rw [hnil] at hdir; exact hdir rfl
    have hsrcne : src ≠ [] := fun hnil => by rw [hnil] at hfile; cases hfile
    have hsrcdir : t.get? src ≠ some .dir := by rw [hfile]; simp
    have herased : (t.erase place).WellFormed := h.erase hne fun s => h.get?_below hdir (by simp)
    have hfile' : (t.erase place).get? src = some (.file b) := by rw [get?_erase hne, if_neg hsame, hfile]
    have herased' : ((t.erase place).erase src).WellFormed :=
      herased.erase hsrcne fun s => herased.get?_below (by rw [hfile']; simp) (by simp)
    rw [relocate_file herased hfile'] at ht'
    refine ⟨hdir, ?_, fun q => ?_⟩
    · obtain ⟨d, s, rfl⟩ : ∃ d s, place = d ++ [s] := ⟨_, _, (List.dropLast_append_getLast hne).symm⟩
      rw [List.dropLast_concat] at hparent
      rw [ht']
      refine herased'.set ?_ (hdst s (by simp)) (Or.inr ⟨⟨b, rfl⟩, ?_⟩)
      · rw [get?_erase hsrcne, if_neg (by rintro rfl; exact hsrcdir hparent), get?_erase hne, if_neg (by simp), hparent]
      · rw [get?_erase hsrcne, if_neg (Ne.symm hsame), get?_erase hne, if_pos rfl]
        simp
    · rw [ht', get?_set hne, get?_erase hsrcne, get?_erase hne]
      split_ifs <;> rfl

/-- A file can be put where the parent is a directory and no directory stands. -/
theorem write_of_parent (h : t.WellFormed) {d : Place} {s : String} (hnames : ∀ n ∈ d ++ [s], IsName n)
    (hparent : t.get? d = some .dir) (hdir : t.get? (d ++ [s]) ≠ some .dir) (b : ByteArray) :
    ∃ t', t.write (pathOf (d ++ [s])) b = .ok t' := by
  unfold write
  rw [(locate_names_iff h false hnames _).mpr ⟨rfl, by rwa [List.dropLast_concat]⟩]
  refine ⟨t.set (d ++ [s]) (.file b), ?_⟩
  simp only [bind, Except.bind]

/-- A file can be moved where the parent is a directory and no directory stands. -/
theorem rename_of_parent (h : t.WellFormed) {src d : Place} {s : String} (hsrc : ∀ n ∈ src, IsName n)
    (hnames : ∀ n ∈ d ++ [s], IsName n) {b : ByteArray} (hfile : t.get? src = some (.file b))
    (hparent : t.get? d = some .dir) (hdir : t.get? (d ++ [s]) ≠ some .dir) :
    ∃ t', t.rename (pathOf src) (pathOf (d ++ [s])) = .ok t' := by
  unfold rename
  rw [(entry_eq_ok_iff_finds h false _ _ _).mpr ⟨rfl, (finds_names_iff h hsrc _).mpr hfile⟩,
    (locate_names_iff h false hnames _).mpr ⟨rfl, by rwa [List.dropLast_concat]⟩]
  simp only [bind, Except.bind]
  split <;> exact ⟨_, rfl⟩

/-! ## Directories down to a place -/

/-- A well-formed tree with everything down to a place a directory, and all else as it was. -/
structure Grown (t : Tree) (place : Place) (t' : Tree) : Prop where
  wellFormed : t'.WellFormed
  get? : ∀ q, t'.get? q = if q <+: place then some .dir else t.get? q

theorem Grown.refl (h : t.WellFormed) {place : Place} (hdir : t.get? place = some .dir) : t.Grown place t := by
  refine ⟨h, fun q => ?_⟩
  split_ifs with hq
  · obtain ⟨rest, rfl⟩ := hq
    by_cases hrest : rest = []
    · simpa [hrest] using hdir
    · exact h.dir_of_lt rest hrest (by rw [hdir]; simp)
  · rfl

theorem makeDir_names (h : t.WellFormed) {d : Place} {s : String} (hd : ∀ n ∈ d ++ [s], IsName n)
    (hdir : t.get? d = some .dir) :
    t.makeDir (pathOf (d ++ [s])) = match t.get? (d ++ [s]) with
      | some _ => .error .exists
      | none => .ok (t.set (d ++ [s]) .dir) := by
  unfold makeDir
  rw [(locate_names_iff h false hd _).mpr ⟨rfl, by rw [List.dropLast_concat, hdir]⟩]
  rfl

theorem grown_set (h : t.WellFormed) {d : Place} {s : String} (hs : IsName s) (hdir : t.get? d = some .dir)
    {t₀ : Tree} (ht : t₀.Grown d t) : t₀.Grown (d ++ [s]) (t.set (d ++ [s]) .dir) := by
  refine ⟨h.set hdir hs (Or.inl rfl), fun q => ?_⟩
  rw [get?_set (by simp), ht.get?]
  by_cases hq : q = d ++ [s]
  · simp [hq]
  · rw [if_neg hq]
    congr 1
    rw [eq_iff_iff, List.prefix_concat_iff]
    simp [hq]

/-- No file is at or above a place. -/
def Clear (t : Tree) (place : Place) : Prop := ∀ q b, q <+: place → t.get? q ≠ some (.file b)

theorem Clear.append {d : Place} {s : String} (h : t.Clear d) (hs : ∀ b, t.get? (d ++ [s]) ≠ some (.file b)) :
    t.Clear (d ++ [s]) := by
  intro q b hq
  rcases List.prefix_concat_iff.mp hq with rfl | hq
  · exact hs b
  · exact h q b hq

theorem Clear.of_dir (h : t.WellFormed) {d : Place} (hdir : t.get? d = some .dir) : t.Clear d := by
  rintro q b ⟨rest, rfl⟩ hfile
  by_cases hrest : rest = []
  · rw [hrest, List.append_nil, hfile] at hdir
    cases hdir
  · rw [h.dir_of_lt rest hrest (by rw [hdir]; simp)] at hfile
    cases hfile

/-- A file is not found when it is not there, unless another file stands above it. -/
theorem read_notFound_iff (h : t.WellFormed) {ss : Place} (hss : ∀ s ∈ ss, IsName s) :
    t.read (pathOf ss) = .error .notFound ↔ t.get? ss = none ∧ t.Clear ss := by
  rcases locate_cases h true (by simpa using Path.raw_pathOf_ne ss) with ⟨hok, hdirs⟩ |
    ⟨e, herror, before, q, after, hroute, hbefore, hcase⟩
  · rw [placeOf_names hss] at hok
    cases hget : t.get? ss with
    | none =>
      have hread : t.read (pathOf ss) = .error .notFound := by
        unfold read entry
        simp [hok, hget, bind, Except.bind]
      refine iff_of_true hread ⟨rfl, ?_⟩
      cases ss using List.reverseRecOn with
      | nil => cases hget
      | append_singleton d s =>
        rw [route_names_iff h hss, List.dropLast_concat] at hdirs
        exact (Clear.of_dir h hdirs).append fun b => by rw [hget]; simp
    | some e =>
      have hentry := (entry_eq_ok_iff true (pathOf ss) ss e).mpr ⟨hok, hget⟩
      rw [read, hentry]
      cases e <;> simp
  · have hread : t.read (pathOf ss) = .error e := by
      unfold read entry
      simp [herror, bind, Except.bind]
    have hsorted := routeOf_names_pairwise hss
    have hlead := ((mem_routeOf_names hss).mp (by rw [hroute]; simp : q ∈ routeOf (pathOf ss))).1.trans
      (List.dropLast_prefix ss)
    rw [hread]
    rcases hcase with ⟨rfl, hnone⟩ | ⟨rfl, b, hfile⟩
    · have hgone : ∀ p, q <+: p → t.get? p = none := by
        rintro p ⟨rest, rfl⟩
        by_cases hnil : rest = []
        · simp [hnil, hnone]
        · exact h.get?_below (by rw [hnone]; simp) hnil
      refine iff_of_true rfl ⟨hgone ss hlead, fun p b hp hfile => ?_⟩
      -- what stands above the first gap is on the way, before it
      rcases List.prefix_or_prefix_of_prefix hp hlead with hpq | hqp
      · have hshort : p.length < q.length := by
          refine lt_of_le_of_ne hpq.length_le fun hlength => ?_
          rw [hpq.eq_of_length hlength, hnone] at hfile
          cases hfile
        have hne : p ≠ [] := by
          rintro rfl
          cases hfile
        have hmem : p ∈ routeOf (pathOf ss) := (mem_routeOf_names hss).mpr
          ⟨hpq.trans ((mem_routeOf_names hss).mp (by rw [hroute]; simp : q ∈ routeOf (pathOf ss))).1, hne⟩
        rw [hroute] at hmem hsorted
        rcases List.mem_append.mp hmem with hmem | hmem
        · rw [hbefore p hmem] at hfile
          cases hfile
        · obtain ⟨_, hafter, _⟩ := List.pairwise_append.mp hsorted
          rcases List.mem_cons.mp hmem with rfl | hmem
          · exact absurd hshort (lt_irrefl _)
          · exact absurd ((List.pairwise_cons.mp hafter).1 p hmem) hshort.asymm
      · rw [hgone p hqp] at hfile
        cases hfile
    · refine iff_of_false (by simp) fun hfree => hfree.2 q b hlead hfile

/-- Making a directory with all above it succeeds unless a file is in the way. -/
theorem makeAll_names (h : t.WellFormed) {place : Place} : (∀ s ∈ place, IsName s) →
    (∃ t', t.makeAll (place.inits.reverse.map pathOf) = .ok t' ∧ t.Grown place t' ∧ t.Clear place) ∨
    (∃ e, t.makeAll (place.inits.reverse.map pathOf) = .error e ∧ ¬ t.Clear place) := by
  induction place using List.reverseRecOn with
  | nil =>
    intro _
    refine Or.inl ⟨t, ?_, Grown.refl h rfl, Clear.of_dir h rfl⟩
    have hnil : ∀ s ∈ ([] : Place), IsName s := by simp
    have hlocate := (locate_names_iff h false hnil []).mpr ⟨rfl, rfl⟩
    have hisdir := (isDir_names_iff h hnil).mpr rfl
    have hinits : ([] : Place).inits = [[]] := rfl
    simp only [hinits, List.reverse_singleton, List.map_cons, List.map_nil, makeAll, Path.raw_pathOf_ne,
      Bool.false_eq_true, if_false, makeDir, hlocate, bind, Except.bind, get?_nil, hisdir, if_true]
  | append_singleton d s ih =>
    intro hnames
    have hdnames : ∀ n ∈ d, IsName n := fun n hn => hnames n (List.mem_append_left _ hn)
    have hs : IsName s := hnames s (by simp)
    rw [Path.upwards_concat, makeAll, Path.raw_pathOf_ne, if_neg (by simp)]
    by_cases hdir : t.get? d = some .dir
    · rw [makeDir_names h hnames hdir]
      cases hget : t.get? (d ++ [s]) with
      | none =>
        refine Or.inl ⟨_, rfl, grown_set h hs hdir (Grown.refl h hdir), ?_⟩
        exact (Clear.of_dir h hdir).append fun b => by rw [hget]; simp
      | some e =>
        dsimp only
        rcases h.file_or_dir hget with rfl | ⟨b, rfl⟩
        · rw [if_pos ((isDir_names_iff h hnames).mpr hget)]
          exact Or.inl ⟨t, rfl, Grown.refl h hget, Clear.of_dir h hget⟩
        · rw [if_neg (by rw [isDir_names_iff h hnames, hget]; simp)]
          exact Or.inr ⟨_, rfl, fun hclear => hclear _ b List.prefix_rfl hget⟩
    · have hgone : t.get? (d ++ [s]) = none := h.get?_below hdir (by simp)
      have hisdir : ¬ t.isDir (pathOf (d ++ [s])) = true := by rw [isDir_names_iff h hnames, hgone]; simp
      have hraw : (pathOf (d ++ [s])).raw ≠ "" := by simpa using Path.raw_pathOf_ne (d ++ [s])
      rcases locate_cases h false hraw with ⟨_, hroute⟩ | ⟨e, herror, before, q, after, heq, _, hcase⟩
      · rw [route_names_iff h hnames, List.dropLast_concat] at hroute
        exact absurd hroute hdir
      have hmake : t.makeDir (pathOf (d ++ [s])) = .error e := by rw [makeDir, herror]; rfl
      rw [hmake]
      rcases hcase with ⟨rfl, _⟩ | ⟨rfl, b, hfile⟩
      · rcases ih hdnames with ⟨t₁, hok, hgrown, hclear⟩ | ⟨e, herror, hclear⟩
        · have hdir₁ : t₁.get? d = some .dir := by rw [hgrown.get?, if_pos List.prefix_rfl]
          have hgone₁ : t₁.get? (d ++ [s]) = none := by
            rw [hgrown.get?, if_neg, hgone]
            exact fun hlead => absurd hlead.length_le (by simp)
          simp only [hok, bind, Except.bind, makeDir_names hgrown.wellFormed hnames hdir₁, hgone₁]
          refine Or.inl ⟨_, rfl, grown_set hgrown.wellFormed hs hdir₁ hgrown, ?_⟩
          exact hclear.append fun b => by rw [hgone]; simp
        · refine Or.inr ⟨e, by rw [herror]; rfl, fun hclear' => hclear fun q b hq => ?_⟩
          exact hclear' q b (hq.trans (List.prefix_append _ _))
      · dsimp only
        rw [if_neg hisdir]
        refine Or.inr ⟨_, rfl, fun hclear => hclear q b ?_ hfile⟩
        have hq : q ∈ routeOf (pathOf (d ++ [s])) := by rw [heq]; simp
        rw [mem_routeOf_names hnames, List.dropLast_concat] at hq
        exact hq.1.trans (List.prefix_append _ _)

theorem makeDirs_names (h : t.WellFormed) {place : Place} (hplace : ∀ s ∈ place, IsName s) :
    (∃ t', t.makeDirs (pathOf place) = .ok t' ∧ t.Grown place t' ∧ t.Clear place) ∨
    (∃ e, t.makeDirs (pathOf place) = .error e ∧ ¬ t.Clear place) := by
  unfold makeDirs
  rw [Path.ancestors_pathOf fun s hs => (hplace s hs).1]
  exact makeAll_names h hplace

theorem makeDirs_ok (h : t.WellFormed) {place : Place} (hplace : ∀ s ∈ place, IsName s)
    (hmake : t.makeDirs (pathOf place) = .ok t') : t.Grown place t' := by
  rcases makeDirs_names h hplace with ⟨t₁, hok, hgrown, _⟩ | ⟨e, herror, _⟩
  · rw [hok] at hmake
    cases hmake
    exact hgrown
  · rw [herror] at hmake
    cases hmake

theorem makeDirs_of_isDir (h : t.WellFormed) {p : Path} (hp : t.isDir p = true) : t.makeDirs p = .ok t := by
  obtain ⟨hraw, hroute, hget⟩ := (isDir_iff h p).mp hp
  have hancestors : ∃ above, p.ancestors = p :: above := ⟨_, rfl⟩
  obtain ⟨above, hancestors⟩ := hancestors
  unfold makeDirs
  rw [hancestors, makeAll, beq_eq_false_iff_ne.mpr hraw, if_neg (by simp)]
  have hmake : t.makeDir p = .error .exists := by
    rw [makeDir, (locate_eq_ok_iff h false p _).mpr ⟨hraw, rfl, hroute⟩]
    simp only [bind, Except.bind, hget]
  rw [hmake]
  dsimp only
  rw [if_pos hp]

/-! ## Paths that end with a slash -/

def slashOf (place : Place) : Path := ⟨(pathOf place).raw ++ "/"⟩

theorem splitOn_slashOf {place : Place} (hplace : ∀ s ∈ place, IsName s) (hne : place ≠ []) :
    ((slashOf place).raw.toList.splitOn '/').map String.ofList = "" :: (place ++ [""]) := by
  have hlist : (slashOf place).raw.toList = ('/' :: ['/'].intercalate (place.map String.toList)) ++ '/' :: [] := by
    simp [slashOf, Path.pathOf_toList]
  rw [hlist, List.splitOn_append_cons_self, List.splitOn_cons_eq_if_modifyHead]
  simp only [beq_self_eq_true, if_true, List.splitOn_nil]
  rw [List.splitOn_intercalate]
  · simp [Function.comp_def]
  · simpa using fun s hs => (hplace s hs).1.2.2
  · simpa using hne

theorem steps_slashOf {place : Place} (hplace : ∀ s ∈ place, IsName s) (hne : place ≠ []) :
    steps (slashOf place).raw = place ++ ["."] := by
  have hend : Refactor.endsWith (slashOf place).raw "/" = true := by
    rw [Path.endsWith_slash_iff]
    simp [slashOf]
  unfold steps
  dsimp only
  rw [hend, if_pos rfl, splitOn_slashOf hplace hne, List.filter_cons, if_neg (by simp), List.filter_append]
  have hfilter : place.filter (· != "") = place := by
    rw [List.filter_eq_self]
    exact fun s hs => by simpa using (hplace s hs).1.1
  simp [hfilter]

theorem isAbsolute_slashOf (place : Place) : (slashOf place).isAbsolute = true := by
  simp [Path.isAbsolute, Refactor.startsWith, slashOf, Path.pathOf_toList]

theorem segments_slashOf {place : Place} (hplace : ∀ s ∈ place, IsName s) (hne : place ≠ []) :
    (slashOf place).segments = place ++ [""] := by
  unfold Path.segments
  dsimp only
  rw [isAbsolute_slashOf, if_pos rfl, splitOn_slashOf hplace hne]
  rfl

theorem ancestors_slashOf {place : Place} {s : String} (h : ∀ n ∈ place ++ [s], IsName n) :
    (slashOf (place ++ [s])).ancestors = slashOf (place ++ [s]) :: place.inits.reverse.map pathOf := by
  have hblank : (place ++ [s] ++ [""]).rdropWhile Path.isBlankSegment = place ++ [s] := by
    rw [List.rdropWhile_concat_pos _ _ _ (by rfl), Path.rdropWhile_blank fun n hn => (h n hn).1]
  have hparent : (slashOf (place ++ [s])).parent? = some (pathOf place) := by
    rw [Path.parent?_of_absolute (isAbsolute_slashOf _), segments_slashOf h (by simp), hblank, if_neg (by simp),
      List.dropLast_concat, Path.rdropWhile_blank fun n hn => (h n (List.mem_append_left _ hn)).1]
  have hlength : (slashOf (place ++ [s])).components.length = place.length + 2 := by
    rw [Path.components_of_absolute (isAbsolute_slashOf _), segments_slashOf h (by simp), List.filterMap_append,
      Path.filterMap_innerComponent? fun n hn => (h n hn).1]
    simp [Path.innerComponent?]
  unfold Path.ancestors
  rw [hlength, Path.ancestors.go, hparent]
  dsimp only
  rw [Path.ancestors_go_pathOf _ (by omega) fun n hn => (h n (List.mem_append_left _ hn)).1]

theorem finds_slashOf_iff (h : t.WellFormed) {place : Place} (hplace : ∀ s ∈ place, IsName s) (hne : place ≠ [])
    (e : Entry) : t.Finds (slashOf place) e ↔ e = .dir ∧ t.get? place = some .dir := by
  have hplaceOf : placeOf (slashOf place) = place := by
    rw [placeOf, steps_slashOf hplace hne, landing_append, landing_names [] hplace]
    rfl
  have hroute : ∀ q, q ∈ routeOf (slashOf place) ↔ q <+: place ∧ q ≠ [] := by
    intro q
    rw [routeOf, steps_slashOf hplace hne, List.dropLast_concat, mem_trail_names hplace]
    simp
  have hraw : (slashOf place).raw ≠ "" := by
    intro hraw
    have := congrArg String.toList hraw
    simp [slashOf] at this
  constructor
  · rintro ⟨_, hdirs, hget⟩
    have hdir := hdirs place ((hroute place).mpr ⟨List.prefix_rfl, hne⟩)
    rw [hplaceOf, hdir] at hget
    exact ⟨(Option.some.inj hget).symm, hdir⟩
  · rintro ⟨rfl, hdir⟩
    refine ⟨hraw, fun q hq => ?_, by rw [hplaceOf, hdir]⟩
    have hgrown := (Grown.refl h hdir).get? q
    rwa [if_pos ((hroute q).mp hq).1] at hgrown

theorem exists?_slashOf_iff (h : t.WellFormed) {place : Place} (hplace : ∀ s ∈ place, IsName s) (hne : place ≠ []) :
    t.exists? (slashOf place) = true ↔ t.get? place = some .dir := by
  rw [exists?_iff h]
  refine ⟨fun ⟨e, he⟩ => ((finds_slashOf_iff h hplace hne e).mp he).2, fun hdir => ⟨.dir, ?_⟩⟩
  exact (finds_slashOf_iff h hplace hne .dir).mpr ⟨rfl, hdir⟩

/-- A path with a slash at its end makes no directory that is not there. -/
theorem makeDirs_slashOf (h : t.WellFormed) {place : Place} (hplace : ∀ s ∈ place, IsName s) (hne : place ≠ [])
    (hdir : t.get? place ≠ some .dir) : ∃ e, t.makeDirs (slashOf place) = .error e := by
  obtain ⟨d, s, rfl⟩ : ∃ d s, place = d ++ [s] := ⟨_, _, (List.dropLast_append_getLast hne).symm⟩
  have hd : ∀ n ∈ d, IsName n := fun n hn => hplace n (List.mem_append_left _ hn)
  -- no tree in which the place is no directory takes the last step
  have hfails : ∀ t₁ : Tree, t₁.WellFormed → t₁.get? (d ++ [s]) ≠ some .dir →
      (∃ e, t₁.makeDir (slashOf (d ++ [s])) = .error e) ∧ t₁.isDir (slashOf (d ++ [s])) = false := by
    intro t₁ h₁ hdir₁
    refine ⟨?_, ?_⟩
    · cases hlocate : t₁.locate false (slashOf (d ++ [s])) with
      | error e => exact ⟨e, by rw [makeDir, hlocate]; rfl⟩
      | ok place =>
        obtain ⟨_, _, hroute⟩ := (locate_eq_ok_iff h₁ false _ place).mp hlocate
        refine absurd (hroute (d ++ [s]) ?_) hdir₁
        rw [routeOf, steps_slashOf hplace hne, List.dropLast_concat, mem_trail_names hplace]
        exact ⟨d ++ [s], List.prefix_rfl, by simp, rfl⟩
    · rw [← Bool.not_eq_true, isDir_iff h₁, finds_slashOf_iff h₁ hplace hne]
      simp [hdir₁]
  have hraw : ((slashOf (d ++ [s])).raw == "") = false := by
    rw [beq_eq_false_iff_ne]
    intro hraw
    simpa [slashOf] using congrArg String.toList hraw
  obtain ⟨⟨e, herror⟩, hisdir⟩ := hfails t h hdir
  unfold makeDirs
  rw [ancestors_slashOf hplace, makeAll, hraw, if_neg (by simp), herror]
  by_cases hnotFound : e = .notFound
  · subst hnotFound
    dsimp only
    rcases makeAll_names h hd with ⟨t₁, hok, hgrown, _⟩ | ⟨e, herror₁, _⟩
    · have hdir₁ : t₁.get? (d ++ [s]) ≠ some .dir := by
        rw [hgrown.get?, if_neg]
        · exact hdir
        · exact fun hlead => absurd hlead.length_le (by simp)
      obtain ⟨⟨e₁, herror₁⟩, hisdir₁⟩ := hfails t₁ hgrown.wellFormed hdir₁
      refine ⟨e₁, ?_⟩
      simp only [hok, bind, Except.bind, herror₁, hisdir₁, Bool.false_eq_true, if_false]
    · exact ⟨e, by rw [herror₁]; rfl⟩
  · refine ⟨e, ?_⟩
    split
    · rename_i hok
      cases hok
    · rename_i heq
      cases heq
      exact absurd rfl hnotFound
    · rename_i heq
      cases heq
      rw [hisdir]
      simp

end Refactor.Tree
