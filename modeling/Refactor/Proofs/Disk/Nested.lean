import Refactor.Proofs.Disk.Walk

/-!
# Paths that meet no link

In a tree with links, a path that goes straight down to an entry comes there over directories alone, so it leads to its
names whatever the links of the tree are. What a walk lists and what belongs to a project can then be told from the
entries.

* `Tree.entry_straight` — a path finds what stands at its names
* `Tree.canonical?_canonical` — a path with its links resolved is its own resolution
* `Tree.mem_filesUnder` — a walk lists every file below a directory
* `Tree.projectFiles_stand` — files of a project are files of the tree
-/

namespace Refactor.Tree

open Path (IsName)

variable {t : Tree}

/-! ## Straight paths -/

/-- A walk straight down to an entry meets directories alone; a link at the end may not be followed. -/
theorem walk_straight (h : t.Nested) {follow : Bool} {e : Entry} (hlink : follow = true → ∀ target, e ≠ .link target)
    (links : Nat) : ∀ (ss : List String) (fuel : Nat) (here : Place), ss.length < fuel → (∀ s ∈ ss, IsName s) →
    t.get? (here ++ ss) = some e → t.walk follow fuel links here ss = .ok (here ++ ss)
  | [], fuel + 1, here, _, _, _ => by simp [walk]
  | s :: rest, fuel + 1, here, hfuel, hnames, hget => by
    have hs := hnames s (by simp)
    have hnext : here ++ s :: rest = here ++ [s] ++ rest := by simp
    have ih := walk_straight h hlink links rest fuel (here ++ [s]) (by simpa using hfuel)
      (fun r hr => hnames r (List.mem_cons_of_mem s hr)) (hnext ▸ hget)
    have hdot : (s == ".") = false := by simpa using hs.1.2.1
    have hdots : (s == "..") = false := by simpa using hs.2
    rw [walk, hdot, hdots, hnext]
    simp only [Bool.false_eq_true, if_false]
    by_cases hrest : rest = []
    · subst hrest
      rw [List.append_nil] at ih ⊢
      rw [hget]
      cases e with
      | file b => rfl
      | dir => exact ih
      | link target =>
        have hfollow : follow = false := Bool.eq_false_iff.mpr fun hf => hlink hf target rfl
        simp [hfollow]
    · rw [h.dir_of_lt rest hrest (by rw [← hnext, hget]; simp)]
      exact ih

/-- A path that goes straight down to an entry finds it; a link is found as such when it is not followed. -/
theorem entry_straight (h : t.Nested) {ss : Place} {follow : Bool} {e : Entry} (hget : t.get? ss = some e)
    (hlink : follow = true → ∀ target, e ≠ .link target) : t.entry follow (pathOf ss) = .ok (ss, e) := by
  have hnames : ∀ s ∈ ss, IsName s := h.named.of_get? (by rw [hget]; simp)
  refine (entry_eq_ok_iff follow _ ss e).mpr ⟨?_, hget⟩
  unfold locate
  rw [Path.raw_pathOf_ne ss, if_neg (by simp)]
  cases ss with
  | nil =>
    have htop : ∀ fuel, 2 ≤ fuel → t.walk follow fuel 0 [] ["."] = .ok [] := by
      rintro (_ | _ | fuel) hfuel
      · simp at hfuel
      · simp at hfuel
      · rfl
    rw [steps_top]
    exact htop _ (by omega)
  | cons s rest =>
    rw [steps_pathOf (by simp) fun n hn => (hnames n hn).1]
    exact walk_straight h hlink 0 (s :: rest) _ [] (by omega) hnames hget

theorem isDir_straight (h : t.Nested) {ss : Place} (hget : t.get? ss = some .dir) : t.isDir (pathOf ss) = true := by
  rw [isDir, entry_straight h hget (by simp)]

theorem not_isDir_straight (h : t.Nested) {ss : Place} {b : ByteArray} (hget : t.get? ss = some (.file b)) :
    t.isDir (pathOf ss) = false := by
  rw [isDir, entry_straight h hget (by simp)]

theorem canonical?_straight (h : t.Nested) {ss : Place} {e : Entry} (hget : t.get? ss = some e)
    (hlink : ∀ target, e ≠ .link target) : t.canonical? (pathOf ss) = .ok (pathOf ss) := by
  unfold canonical?
  rw [entry_straight h hget fun _ => hlink]
  rfl

/-! ## Ends of paths whose links are followed -/

theorem walk_not_link (h : t.Nested) : ∀ (fuel links : Nat) (here : Place) (ss : List String) {place : Place},
    t.get? here = some .dir → t.walk true fuel links here ss = .ok place → ∀ target, t.get? place ≠ some (.link target)
  | 0, _, _, _, _, _, hwalk => by cases hwalk
  | fuel + 1, _, here, [], place, hhere, hwalk => by
    obtain rfl : here = place := Except.ok.inj hwalk
    simp [hhere]
  | fuel + 1, links, here, s :: rest, place, hhere, hwalk => by
    have hup : t.get? here.dropLast = some .dir := by
      cases here using List.reverseRecOn with
      | nil => rfl
      | append_singleton here n =>
        rw [List.dropLast_concat]
        exact h.parents here n (by rw [hhere]; simp)
    rw [walk] at hwalk
    split at hwalk
    · exact walk_not_link h fuel links here rest hhere hwalk
    split at hwalk
    · exact walk_not_link h fuel links here.dropLast rest hup hwalk
    dsimp only at hwalk
    split at hwalk
    · rename_i hnone
      split_ifs at hwalk
      obtain rfl := Except.ok.inj hwalk
      simp [hnone]
    · rename_i b hfile
      split_ifs at hwalk
      obtain rfl := Except.ok.inj hwalk
      simp [hfile]
    · rename_i hdir
      exact walk_not_link h fuel links _ rest hdir hwalk
    · simp only [Bool.not_true, Bool.and_false, Bool.false_eq_true, if_false] at hwalk
      split_ifs at hwalk with _ _ habsolute
      · exact walk_not_link h fuel (links + 1) [] _ rfl hwalk
      · exact walk_not_link h fuel (links + 1) here _ hhere hwalk

theorem canonical?_canonical (h : t.Nested) {p q : Path} (hp : t.canonical? p = .ok q) : t.canonical? q = .ok q := by
  unfold canonical? at hp
  cases hentry : t.entry true p with
  | error fault =>
    rw [hentry] at hp
    cases hp
  | ok found =>
    obtain ⟨place, e⟩ := found
    rw [hentry] at hp
    obtain rfl : pathOf place = q := Except.ok.inj hp
    obtain ⟨hlocate, hget⟩ := (entry_eq_ok_iff true p place e).mp hentry
    refine canonical?_straight h hget fun target htarget => ?_
    unfold locate at hlocate
    split_ifs at hlocate
    exact walk_not_link h _ 0 [] _ rfl hlocate target (hget.trans (congrArg some htarget))

/-! ## What walks list -/

theorem mem_below (h : t.Nested) {dir names : Place} {e : Entry} :
    (names, e) ∈ t.below dir ↔ names ≠ [] ∧ t.get? (dir ++ names) = some e := by
  unfold below
  rw [List.mem_filterMap]
  constructor
  · rintro ⟨⟨p, f⟩, hp, hsome⟩
    dsimp only at hsome
    split_ifs at hsome with hcond
    simp only [Bool.and_eq_true, List.isPrefixOf_iff_prefix, decide_eq_true_eq] at hcond
    obtain ⟨⟨rest, rfl⟩, hlength⟩ := hcond
    rw [List.drop_left, Option.some.injEq, Prod.mk.injEq] at hsome
    obtain ⟨rfl, rfl⟩ := hsome
    have hne : rest ≠ [] := by
      rintro rfl
      simp at hlength
    exact ⟨hne, (h.get?_eq_some_iff (by simp [hne])).mpr hp⟩
  · rintro ⟨hne, hget⟩
    refine ⟨(dir ++ names, e), (h.get?_eq_some_iff (by simp [hne])).mp hget, ?_⟩
    have hlength : 0 < names.length := List.length_pos_of_ne_nil hne
    simp [hlength]

/-- A walk lists every file below a directory. -/
theorem mem_filesUnder (h : t.Nested) {dir names : Place} {b : ByteArray} (hdir : t.get? dir = some .dir)
    (hne : names ≠ []) (hget : t.get? (dir ++ names) = some (.file b)) {files : List Path}
    (hfiles : t.filesUnder (pathOf dir) = .ok files) : under (pathOf dir) names ∈ files := by
  unfold filesUnder at hfiles
  rw [entry_straight h hdir (by simp)] at hfiles
  cases hfiles
  exact List.mem_filterMap.mpr ⟨(names, .file b), (mem_below h).mpr ⟨hne, hget⟩, rfl⟩

/-- Every file of a project is a file of the tree, at or below the root, whose path has its links resolved. -/
theorem projectFiles_stand (h : t.Nested) {ignored : List String} {root : Place}
    (hroot : ∃ e, t.entry true (pathOf root) = .ok (root, e)) {p : Path} (hp : p ∈ t.projectFiles ignored (pathOf root)) :
    ∃ place b, root <+: place ∧ p = pathOf place ∧ t.get? place = some (.file b) := by
  obtain ⟨e, hentry⟩ := hroot
  have hget := ((entry_eq_ok_iff true _ _ _).mp hentry).2
  have hnames : ∀ s ∈ root, IsName s := h.named.of_get? (by rw [hget]; simp)
  unfold projectFiles at hp
  rw [hentry] at hp
  cases e with
  | file b => exact ⟨root, b, List.prefix_rfl, List.mem_singleton.mp hp, hget⟩
  | link target => cases hp
  | dir =>
    obtain ⟨⟨names, e⟩, hbelow, hsome⟩ := List.mem_filterMap.mp hp
    obtain ⟨_, hstands⟩ := (mem_below h).mp hbelow
    cases e with
    | dir => cases hsome
    | link target => cases hsome
    | file b =>
      dsimp only at hsome
      split_ifs at hsome
      refine ⟨root ++ names, b, List.prefix_append _ _, ?_, hstands⟩
      have hall : ∀ s ∈ root ++ names, IsName s := h.named.of_get? (by rw [hstands]; simp)
      rw [← Option.some.inj hsome, Path.under_pathOf (fun s hs => (hnames s hs).1)
        fun s hs => (hall s (List.mem_append_right _ hs)).1]

end Refactor.Tree
