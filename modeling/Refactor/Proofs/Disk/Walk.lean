import Refactor.Disk.Walk
import Refactor.Proofs.Disk.Locate

/-!
# Walks list what is there

* `Tree.dirsUnder_names` — the directories at and below a place, what lies below before what lies above
* `Tree.filesAt`, `Tree.filesUnder_names` — the files at and below a place, each once
-/

namespace Refactor.Tree

open Path (IsName)

variable {t : Tree}

/-- The places below a place whose entries are kept. -/
def placesBelow (t : Tree) (dir : Place) (keep : Entry → Bool) : List Place :=
  t.entries.filterMap fun (p, e) => if dir.isPrefixOf p && dir.length < p.length && keep e then some p else none

theorem mem_placesBelow (h : t.WellFormed) {dir p : Place} {keep : Entry → Bool} :
    p ∈ t.placesBelow dir keep ↔ dir <+: p ∧ p ≠ dir ∧ ∃ e, t.get? p = some e ∧ keep e = true := by
  unfold placesBelow
  rw [List.mem_filterMap]
  constructor
  · rintro ⟨⟨q, e⟩, hq, hsome⟩
    dsimp only at hsome
    split_ifs at hsome with hcond
    obtain rfl := Option.some.inj hsome
    simp only [Bool.and_eq_true, List.isPrefixOf_iff_prefix, decide_eq_true_eq] at hcond
    obtain ⟨⟨hlead, hlength⟩, hkeep⟩ := hcond
    refine ⟨hlead, ?_, e, (h.get?_eq_some_iff (h.names _ _ hq).1).mpr hq, hkeep⟩
    rintro rfl
    exact lt_irrefl _ hlength
  · rintro ⟨hlead, hne, e, hget, hkeep⟩
    have hlength : dir.length < p.length := by
      refine lt_of_le_of_ne hlead.length_le fun heq => hne ?_
      exact (hlead.eq_of_length heq).symm
    have hp : p ≠ [] := List.ne_nil_of_length_pos (by omega)
    refine ⟨(p, e), (h.get?_eq_some_iff hp).mp hget, ?_⟩
    simp [List.isPrefixOf_iff_prefix, hlead, hlength, hkeep]

theorem placesBelow_sorted (h : t.WellFormed) (dir : Place) (keep : Entry → Bool) :
    (t.placesBelow dir keep).Pairwise (· < ·) := by
  refine h.sorted.filterMap _ ?_
  rintro ⟨p, e⟩ ⟨q, f⟩ hlt x hx y hy
  dsimp only at hlt hx hy
  split_ifs at hx
  split_ifs at hy
  obtain rfl := Option.some.inj hx
  obtain rfl := Option.some.inj hy
  exact hlt

/-- A walk below a place gives the paths of the places. -/
theorem filterMap_below (h : t.WellFormed) {dir : Place} (hdir : ∀ s ∈ dir, IsName s) (keep : Entry → Bool) :
    (t.below dir).filterMap (fun (names, e) => if keep e then some (under (pathOf dir) names) else none) =
      (t.placesBelow dir keep).map pathOf := by
  unfold below placesBelow
  rw [List.filterMap_filterMap, List.map_filterMap]
  refine List.filterMap_congr ?_
  rintro ⟨p, e⟩ hp
  dsimp only
  cases hlead : dir.isPrefixOf p with
  | false => simp
  | true =>
    obtain ⟨rest, rfl⟩ := List.isPrefixOf_iff_prefix.mp hlead
    have hrest : ∀ s ∈ rest, IsName s := fun s hs => (h.names _ _ hp).2 s (List.mem_append_right _ hs)
    have hunder := Path.under_pathOf (fun s hs => (hdir s hs).1) fun s hs => (hrest s hs).1
    cases rest with
    | nil => simp
    | cons s rest => cases hkeep : keep e <;> simp [hunder, hkeep]

theorem dirsUnder_names (h : t.WellFormed) {dir : Place} (hdir : ∀ s ∈ dir, IsName s) :
    ∃ places : List Place, t.dirsUnder (pathOf dir) = places.map pathOf ∧ (∀ q, q ∈ places ↔ dir <+: q ∧ t.get? q = some .dir) ∧
      places.Pairwise (fun p q => q < p) := by
  unfold dirsUnder
  by_cases hget : t.get? dir = some .dir
  · have hfinds : t.Finds (pathOf dir) .dir := (finds_names_iff h hdir _).mpr hget
    have hentry : ∀ follow, t.entry follow (pathOf dir) = .ok (dir, .dir) := fun follow =>
      (entry_eq_ok_iff_finds h follow _ _ _).mpr ⟨(placeOf_names hdir).symm, hfinds⟩
    refine ⟨(dir :: t.placesBelow dir (· == .dir)).reverse, ?_, ?_, ?_⟩
    · have hlink : t.isLink (pathOf dir) = false := by
        unfold isLink
        rw [hentry]
      rw [hentry]
      dsimp only
      rw [hlink, if_neg (by simp), List.map_reverse, List.map_cons, ← filterMap_below h hdir]
      congr 3
      funext ⟨names, e⟩
      cases e <;> rfl
    · intro q
      rw [List.mem_reverse, List.mem_cons, mem_placesBelow h]
      constructor
      · rintro (rfl | ⟨hlead, _, e, hq, he⟩)
        · exact ⟨List.prefix_rfl, hget⟩
        · exact ⟨hlead, by rw [hq, beq_iff_eq.mp he]⟩
      · rintro ⟨hlead, hq⟩
        by_cases hne : q = dir
        · exact Or.inl hne
        · exact Or.inr ⟨hlead, hne, _, hq, by simp⟩
    · rw [List.pairwise_reverse, List.pairwise_cons]
      refine ⟨fun q hq => ?_, placesBelow_sorted h _ _⟩
      obtain ⟨⟨rest, rfl⟩, hne, _⟩ := (mem_placesBelow h).mp hq
      cases rest with
      | nil => simp at hne
      | cons s rest =>
        have hlt : dir ++ [] < dir ++ s :: rest := List.append_left_lt (List.nil_lt_cons s rest)
        simpa using hlt
  · refine ⟨[], ?_, fun q => ?_, List.Pairwise.nil⟩
    · have hentry : ∀ place, t.entry true (pathOf dir) ≠ .ok (place, .dir) := by
        intro place hentry
        exact hget ((finds_names_iff h hdir _).mp ((entry_eq_ok_iff_finds h _ _ _ _).mp hentry).2)
      split
      · rename_i place hplace
        exact absurd hplace (hentry place)
      · rfl
    · simp only [List.not_mem_nil, false_iff, not_and]
      rintro ⟨rest, rfl⟩ hq
      by_cases hrest : rest = []
      · rw [hrest, List.append_nil] at hq
        exact hget hq
      · exact hget (h.dir_of_lt rest hrest (by rw [hq]; simp))

/-- The files at and below a place. -/
def filesAt (t : Tree) (dir : Place) : List Place :=
  t.entries.filterMap fun (p, e) => if dir.isPrefixOf p && e != .dir then some p else none

theorem mem_filesAt (h : t.WellFormed) {dir p : Place} :
    p ∈ t.filesAt dir ↔ dir <+: p ∧ ∃ b, t.get? p = some (.file b) := by
  unfold filesAt
  rw [List.mem_filterMap]
  constructor
  · rintro ⟨⟨q, e⟩, hq, hsome⟩
    dsimp only at hsome
    split_ifs at hsome with hcond
    obtain rfl := Option.some.inj hsome
    simp only [Bool.and_eq_true, List.isPrefixOf_iff_prefix] at hcond
    have hget := (h.get?_eq_some_iff (h.names _ _ hq).1).mpr hq
    rcases h.file_or_dir hget with rfl | ⟨b, rfl⟩
    · simp at hcond
    · exact ⟨hcond.1, b, hget⟩
  · rintro ⟨hlead, b, hget⟩
    have hp : p ≠ [] := by
      rintro rfl
      cases hget
    refine ⟨(p, .file b), (h.get?_eq_some_iff hp).mp hget, ?_⟩
    have hkeep : (Entry.file b != .dir) = true := by simp
    simp only [List.isPrefixOf_iff_prefix.mpr hlead, hkeep, Bool.and_self, if_true]

theorem filesAt_sorted (h : t.WellFormed) (dir : Place) : (t.filesAt dir).Pairwise (· < ·) := by
  refine h.sorted.filterMap _ ?_
  rintro ⟨p, e⟩ ⟨q, f⟩ hlt x hx y hy
  dsimp only at hlt hx hy
  split_ifs at hx
  split_ifs at hy
  obtain rfl := Option.some.inj hx
  obtain rfl := Option.some.inj hy
  exact hlt

theorem places_ext {l l' : List Place} (h : l.Pairwise (· < ·)) (h' : l'.Pairwise (· < ·))
    (hmem : ∀ p, p ∈ l ↔ p ∈ l') : l = l' := by
  have hperm : l.Perm l' := (List.perm_ext_iff_of_nodup (h.imp fun hab => hab.ne) (h'.imp fun hab => hab.ne)).mpr hmem
  exact hperm.eq_of_pairwise (fun a b _ _ hab hba => absurd (hab.trans hba) (lt_irrefl _)) h h'

theorem filesUnder_names (h : t.WellFormed) {dir : Place} (hdir : ∀ s ∈ dir, IsName s) (hget : t.get? dir ≠ none) :
    t.filesUnder (pathOf dir) = .ok ((t.filesAt dir).map pathOf) := by
  obtain ⟨e, he⟩ := Option.ne_none_iff_exists'.mp hget
  have hfinds : t.Finds (pathOf dir) e := (finds_names_iff h hdir _).mpr he
  have hentry : t.entry false (pathOf dir) = .ok (dir, e) :=
    (entry_eq_ok_iff_finds h _ _ _ _).mpr ⟨(placeOf_names hdir).symm, hfinds⟩
  unfold filesUnder
  rw [hentry]
  dsimp only
  rcases h.file_or_dir he with rfl | ⟨b, rfl⟩
  · have hplaces : t.placesBelow dir (· != .dir) = t.filesAt dir := by
      refine places_ext (placesBelow_sorted h _ _) (filesAt_sorted h _) fun q => ?_
      rw [mem_placesBelow h, mem_filesAt h]
      constructor
      · rintro ⟨hlead, _, e, hq, hkeep⟩
        rcases h.file_or_dir hq with rfl | ⟨b, rfl⟩
        · simp at hkeep
        · exact ⟨hlead, b, hq⟩
      · rintro ⟨hlead, b, hq⟩
        refine ⟨hlead, ?_, _, hq, rfl⟩
        rintro rfl
        rw [he] at hq
        cases hq
    dsimp only
    unfold filesUnder.leaves
    rw [← hplaces, ← filterMap_below h hdir]
    congr 2
    funext ⟨names, e⟩
    cases e <;> rfl
  · have hplaces : [dir] = t.filesAt dir := by
      refine places_ext (List.pairwise_singleton _ _) (filesAt_sorted h _) fun q => ?_
      rw [mem_filesAt h, List.mem_singleton]
      constructor
      · rintro rfl
        exact ⟨List.prefix_rfl, b, he⟩
      · rintro ⟨⟨rest, rfl⟩, c, hq⟩
        by_cases hrest : rest = []
        · simp [hrest]
        · rw [h.get?_below (by rw [he]; simp) hrest] at hq
          cases hq
    rw [← hplaces]
    rfl

end Refactor.Tree
