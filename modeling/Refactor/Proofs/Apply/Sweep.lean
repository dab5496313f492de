import Refactor.Proofs.Apply.Ledger

/-!
# Removing what was made

Directories that were made are removed again, the last one first, as far as they are empty. This leaves the directories
of before exactly when none of them was an empty one or a file that the making took the place of.

* `Tree.sweep` — removes those of a list of directories that are empty, last first
* `Clobbers` — a made directory is at the place of a file, or of an empty directory that the removal does not spare
* `Tree.sweep_eq_iff` — what is left is the tree of before exactly when no empty directory was clobbered
-/

namespace Refactor

open Tree (Below pathOf)
open Path (IsName)

namespace Tree

variable {t t₀ : Tree}

def tryRemoveDir (t : Tree) (c : Place) : Tree :=
  match t.removeDir (pathOf c) with
  | .ok t' => t'
  | .error _ => t

def sweep (t : Tree) (made : List Place) : Tree := made.foldr (fun c t => t.tryRemoveDir c) t

theorem tryRemoveDir_cases (h : t.WellFormed) {c : Place} (hc : ∀ s ∈ c, IsName s) (hne : c ≠ []) :
    (t.get? c = some .dir ∧ (∀ s, t.get? (c ++ [s]) = none) ∧ t.Holds c none (t.tryRemoveDir c)) ∨
      ¬(t.get? c = some .dir ∧ ∀ s, t.get? (c ++ [s]) = none) ∧ t.tryRemoveDir c = t := by
  unfold tryRemoveDir
  cases hremove : t.removeDir (pathOf c) with
  | ok t' => exact Or.inl (removeDir_ok h hc hne hremove)
  | error e =>
    refine Or.inr ⟨fun ⟨hdir, hempty⟩ => ?_, rfl⟩
    rw [(removeDir_eq_ok_iff h hc).mpr ⟨hdir, hempty, rfl⟩] at hremove
    cases hremove

/-- Everything stays but directories of the list. -/
theorem sweep_spec (h : t.WellFormed) : ∀ {made : List Place}, (∀ c ∈ made, (∀ s ∈ c, IsName s) ∧ c ≠ []) →
    (t.sweep made).WellFormed ∧ ∀ q, (t.sweep made).get? q = t.get? q ∨
      q ∈ made ∧ t.get? q = some .dir ∧ (t.sweep made).get? q = none
  | [], _ => ⟨h, fun _ => Or.inl rfl⟩
  | c :: made, hmade => by
    obtain ⟨hwf, hget⟩ := sweep_spec h fun d hd => hmade d (List.mem_cons_of_mem _ hd)
    obtain ⟨hc, hne⟩ := hmade c (by simp)
    show ((t.sweep made).tryRemoveDir c).WellFormed ∧ ∀ q, ((t.sweep made).tryRemoveDir c).get? q = t.get? q ∨
      q ∈ c :: made ∧ t.get? q = some .dir ∧ ((t.sweep made).tryRemoveDir c).get? q = none
    rcases tryRemoveDir_cases hwf hc hne with ⟨hdir, _, hholds⟩ | ⟨_, heq⟩
    · refine ⟨hholds.wellFormed, fun q => ?_⟩
      rw [hholds.get?]
      split_ifs with hq
      · subst hq
        rcases hget q with hsame | ⟨_, _, hnone⟩
        · exact Or.inr ⟨by simp, hsame ▸ hdir, rfl⟩
        · rw [hnone] at hdir
          cases hdir
      · exact (hget q).imp_right fun ⟨hmem, hrest⟩ => ⟨List.mem_cons_of_mem _ hmem, hrest⟩
    · rw [heq]
      exact ⟨hwf, fun q => (hget q).imp_right fun ⟨hmem, hrest⟩ => ⟨List.mem_cons_of_mem _ hmem, hrest⟩⟩

theorem sweep_file (h : t.WellFormed) {made : List Place} (hmade : ∀ c ∈ made, (∀ s ∈ c, IsName s) ∧ c ≠ [])
    (q : Place) (b : ByteArray) : (t.sweep made).get? q = some (.file b) ↔ t.get? q = some (.file b) := by
  rcases (sweep_spec h hmade).2 q with heq | ⟨_, hdir, hnone⟩
  · rw [heq]
  · simp [hdir, hnone]

/-- In a part of the tree without files, where what lies above was made before what lies below, all is removed. -/
theorem sweep_clears (h : t.WellFormed) {D : Place → Prop} (hdown : ∀ q s, D q → D (q ++ [s]))
    (hfiles : ∀ q s b, D q → t.get? (q ++ [s]) ≠ some (.file b)) : ∀ {made before : List Place},
    (∀ c ∈ made, (∀ s ∈ c, IsName s) ∧ c ≠ []) →
    (∀ front d s rest, before ++ made = front ++ (d ++ [s]) :: rest → D d → d ∈ front) →
    (∀ q, D q → t.get? q = some .dir → q ∈ before ++ made) →
    ∀ q, D q → (t.sweep made).get? q = some .dir → q ∈ before
  | [], before, _, _, hstart, q, hq, hdir => by simpa using hstart q hq hdir
  | c :: made, before, hmade, horder, hstart, q, hq, hdir => by
    have hsplit : before ++ c :: made = (before ++ [c]) ++ made := by simp
    have hmade' : ∀ d ∈ made, (∀ s ∈ d, IsName s) ∧ d ≠ [] := fun d hd => hmade d (List.mem_cons_of_mem _ hd)
    have ih : ∀ q, D q → (t.sweep made).get? q = some .dir → q ∈ before ++ [c] :=
      sweep_clears h hdown hfiles hmade' (hsplit ▸ horder) (hsplit ▸ hstart)
    obtain ⟨hc, hne⟩ := hmade c (by simp)
    obtain ⟨hwf, _⟩ := sweep_spec h hmade'
    change ((t.sweep made).tryRemoveDir c).get? q = some .dir at hdir
    have hlast : ∀ q, D q → (t.sweep made).get? q = some .dir → q ≠ c → q ∈ before := by
      intro q hq hdir hqc
      rcases List.mem_append.mp (ih q hq hdir) with hmem | hmem
      · exact hmem
      · exact absurd (List.mem_singleton.mp hmem) hqc
    rcases tryRemoveDir_cases hwf hc hne with ⟨_, _, hholds⟩ | ⟨hfull, heq⟩
    · rw [hholds.get?] at hdir
      split_ifs at hdir with hqc
      exact hlast q hq hdir hqc
    · rw [heq] at hdir
      by_cases hqc : q = c
      · subst hqc
        by_contra hbefore
        refine hfull ⟨hdir, fun s => ?_⟩
        -- a child that still stands would have been made after its parent
        cases hchild : (t.sweep made).get? (q ++ [s]) with
        | none => rfl
        | some e =>
          rcases hwf.file_or_dir hchild with rfl | ⟨b, rfl⟩
          · have hmem := hlast (q ++ [s]) (hdown q s hq) hchild (by simp)
            obtain ⟨front, rest, rfl⟩ := List.append_of_mem hmem
            have hfront := horder front q s (rest ++ q :: made) (by simp) hq
            exact absurd (List.mem_append_left _ hfront) hbefore
          · exact absurd ((sweep_file h hmade' _ _).mp hchild) (hfiles q s b hq)
      · exact hlast q hq hdir hqc

/-- Directories of before stay when each empty one among the made ones is kept by something made below it. -/
theorem sweep_keeps (h₀ : t₀.WellFormed) (h : t.WellFormed)
    (hdirs : ∀ q, t₀.get? q = some .dir → t.get? q = some .dir)
    (hfiles : ∀ q b, t₀.get? q = some (.file b) → t.get? q = some (.file b)) : ∀ {made before : List Place},
    (∀ c ∈ made, (∀ s ∈ c, IsName s) ∧ c ≠ []) → (∀ q ∈ before ++ made, t.get? q = some .dir) →
    (∀ front c rest, before ++ made = front ++ c :: rest → t₀.get? c = some .dir → (∀ s, t₀.get? (c ++ [s]) = none) →
      ∃ q ∈ front, Below c q ∧ q ∉ rest) →
    ∀ q, t₀.get? q = some .dir → (t.sweep made).get? q = some .dir
  | [], _, _, _, _, q, hq => hdirs q hq
  | c :: made, before, hmade, hstands, hspared, q, hq => by
    have hsplit : before ++ c :: made = (before ++ [c]) ++ made := by simp
    have hmade' : ∀ d ∈ made, (∀ s ∈ d, IsName s) ∧ d ≠ [] := fun d hd => hmade d (List.mem_cons_of_mem _ hd)
    have hstands' : ∀ q ∈ (before ++ [c]) ++ made, t.get? q = some .dir := by rwa [← hsplit]
    have ih := sweep_keeps h₀ h hdirs hfiles hmade' hstands' (hsplit ▸ hspared)
    obtain ⟨hc, hne⟩ := hmade c (by simp)
    obtain ⟨hwf, hget⟩ := sweep_spec h hmade'
    show ((t.sweep made).tryRemoveDir c).get? q = some .dir
    rcases tryRemoveDir_cases hwf hc hne with ⟨_, hempty, hholds⟩ | ⟨_, heq⟩
    · rw [hholds.get?]
      split_ifs with hqc
      · subst hqc
        exfalso
        by_cases hchild : ∀ s, t₀.get? (q ++ [s]) = none
        · obtain ⟨r, hr, ⟨⟨rest, rfl⟩, hrne⟩, hrmade⟩ := hspared before q made rfl hq hchild
          have hstill : (t.sweep made).get? (q ++ rest) = some .dir := by
            rcases hget (q ++ rest) with hsame | ⟨hmem, _⟩
            · rw [hsame]
              exact hstands _ (List.mem_append_left _ hr)
            · exact absurd hmem hrmade
          cases rest with
          | nil => simp at hrne
          | cons s rest =>
            by_cases hrest : rest = []
            · rw [hrest, hempty s] at hstill
              cases hstill
            · have := hwf.dir_of_lt (p := q ++ [s]) rest hrest (by rw [List.append_assoc, List.singleton_append, hstill]; simp)
              rw [hempty s] at this
              cases this
        · rw [not_forall] at hchild
          obtain ⟨s, hs⟩ := hchild
          obtain ⟨e, he⟩ := Option.ne_none_iff_exists'.mp hs
          have hgone := hempty s
          rcases h₀.file_or_dir he with rfl | ⟨b, rfl⟩
          · rw [ih _ he] at hgone
            cases hgone
          · rw [(sweep_file h hmade' _ b).mpr (hfiles _ b he)] at hgone
            cases hgone
      · exact ih q hq
    · rw [heq]
      exact ih q hq

end Tree

/-- Of the directories that were made, one is at the place of a file of before, or of an empty directory of before
below which nothing was made earlier that is still there when its turn comes. -/
def Clobbers (t₀ : Tree) (made : List Place) : Prop :=
  ∃ before c after, made = before ++ c :: after ∧
    ((∃ b, t₀.get? c = some (.file b)) ∨
      t₀.get? c = some .dir ∧ (∀ s, t₀.get? (c ++ [s]) = none) ∧ ∀ q ∈ before, Below c q → q ∈ after)


/-- Removing what was made, where all files of before are back. -/
theorem Tree.sweep_eq_iff {t₀ t : Tree} {made : List Place} (h₀ : t₀.WellFormed) (h : t.WellFormed)
    (hmade : ∀ c ∈ made, (∀ s ∈ c, IsName s) ∧ c ≠ [])
    (hfiles : ∀ q b, t.get? q = some (.file b) ↔ t₀.get? q = some (.file b))
    (hdirs : ∀ q, t.get? q = some .dir ↔ t₀.get? q = some .dir ∨ q ∈ made)
    (habove : ∀ before c after, made = before ++ c :: after → ∀ q, Below q c → t₀.get? q = some .dir ∨ q ∈ before)
    (hbetween : ∀ before c after, made = before ++ c :: after → ∀ front d rest, after = front ++ d :: rest →
      ∀ q, Below c q → Below q d → q ∈ front) :
    t.sweep made = t₀ ↔ ¬Clobbers t₀ made := by
  constructor
  · rintro hsweep ⟨before, c, after, rfl, ⟨b, hfile⟩ | ⟨hdir, hempty, hspared⟩⟩
    · have hdir := (hdirs c).mpr (Or.inr (by simp))
      rw [(hfiles c b).mpr hfile] at hdir
      cases hdir
    · have hbelow : ∀ q, Below c q → t₀.get? q = none := by
        rintro q ⟨⟨rest, rfl⟩, hne⟩
        cases rest with
        | nil => simp at hne
        | cons s rest =>
          by_cases hrest : rest = []
          · rw [hrest, hempty s]
          · have := h₀.get?_below (p := c ++ [s]) (by rw [hempty s]; simp) hrest
            simpa using this
      have hafter : ∀ d ∈ after, (∀ s ∈ d, IsName s) ∧ d ≠ [] := fun d hd => hmade d (by simp [hd])
      have hdown : ∀ q s, Below c q → Below c (q ++ [s]) := by
        rintro q s ⟨hlead, hne⟩
        refine ⟨hlead.trans (List.prefix_append _ _), fun heq => hne ?_⟩
        have hlength := hlead.length_le
        rw [← heq] at hlength
        simp at hlength
      have hnofile : ∀ q s b, Below c q → t.get? (q ++ [s]) ≠ some (.file b) := by
        intro q s b hq hfile
        rw [hfiles, hbelow _ (hdown q s hq)] at hfile
        cases hfile
      have hgone : ∀ q, Below c q → (t.sweep after).get? q ≠ some .dir := by
        intro q hq hstill
        refine List.not_mem_nil (sweep_clears h hdown hnofile hafter ?_ ?_ q hq hstill)
        · intro front d s rest heq hd
          exact hbetween before c after rfl front (d ++ [s]) rest heq d hd (below_append (by simp))
        · intro q hq hdirq
          rcases (hdirs q).mp hdirq with hq₀ | hmem
          · rw [hbelow q hq] at hq₀
            cases hq₀
          · rcases List.mem_append.mp hmem with hmem | hmem
            · exact hspared q hmem hq
            · rcases List.mem_cons.mp hmem with rfl | hmem
              · exact absurd rfl hq.2
              · exact hmem
      obtain ⟨hwf, _⟩ := sweep_spec h hafter
      have hcgone : (t.sweep (c :: after)).get? c ≠ some .dir := by
        obtain ⟨hc, hne⟩ := hmade c (by simp)
        show ((t.sweep after).tryRemoveDir c).get? c ≠ some .dir
        rcases tryRemoveDir_cases hwf hc hne with ⟨_, _, hholds⟩ | ⟨hfull, heq⟩
        · rw [hholds.get?, if_pos rfl]
          simp
        · rw [heq]
          refine fun hdirc => hfull ⟨hdirc, fun s => ?_⟩
          cases hchild : (t.sweep after).get? (c ++ [s]) with
          | none => rfl
          | some e =>
            rcases hwf.file_or_dir hchild with rfl | ⟨b, rfl⟩
            · exact absurd hchild (hgone _ (below_append (by simp)))
            · rw [sweep_file h hafter, hfiles, hempty s] at hchild
              cases hchild
      have hcafter : ∀ d ∈ c :: after, (∀ s ∈ d, IsName s) ∧ d ≠ [] := fun d hd =>
        hmade d (List.mem_append_right _ hd)
      have happend : t.sweep (before ++ c :: after) = (t.sweep (c :: after)).sweep before := List.foldr_append ..
      rw [← hsweep, happend] at hdir
      rcases (sweep_spec (sweep_spec h hcafter).1 fun d hd => hmade d (List.mem_append_left _ hd)).2 c with hsame | hnone
      · exact hcgone (hsame ▸ hdir)
      · rw [hnone.2.2] at hdir
        cases hdir
  · intro hclobbers
    have hspared : ∀ front c rest, made = front ++ c :: rest → t₀.get? c = some .dir →
        (∀ s, t₀.get? (c ++ [s]) = none) → ∃ q ∈ front, Below c q ∧ q ∉ rest := by
      intro front c rest heq hdir hempty
      by_contra hnone
      push Not at hnone
      exact hclobbers ⟨front, c, rest, heq, Or.inr ⟨hdir, hempty, hnone⟩⟩
    have hkeeps := @sweep_keeps _ _ h₀ h (fun q hq => (hdirs q).mpr (Or.inl hq))
      (fun q b hq => (hfiles q b).mpr hq) made [] hmade (fun q hq => (hdirs q).mpr (Or.inr hq)) hspared
    have hclears : ∀ q, t₀.get? q ≠ some .dir → (t.sweep made).get? q ≠ some .dir := by
      intro q hq hstill
      refine List.not_mem_nil (sweep_clears (D := fun q => t₀.get? q ≠ some .dir) h ?_ ?_ hmade ?_ ?_ q hq hstill)
      · intro q s hq
        rw [h₀.get?_below hq (by simp)]
        simp
      · intro q s b hq hfile
        rw [hfiles, h₀.get?_below hq (by simp)] at hfile
        cases hfile
      · intro front d s rest heq hd
        exact (habove front (d ++ [s]) rest heq d (below_append (by simp))).resolve_left hd
      · intro q hq hdirq
        exact ((hdirs q).mp hdirq).resolve_left hq
    obtain ⟨hwf, _⟩ := sweep_spec h hmade
    refine hwf.ext h₀ fun q => ?_
    cases hq : t₀.get? q with
    | none =>
      cases hleft : (t.sweep made).get? q with
      | none => rfl
      | some e =>
        rcases hwf.file_or_dir hleft with rfl | ⟨b, rfl⟩
        · exact absurd hleft (hclears q (by rw [hq]; simp))
        · rw [sweep_file h hmade, hfiles, hq] at hleft
          cases hleft
    | some e =>
      rcases h₀.file_or_dir hq with rfl | ⟨b, rfl⟩
      · exact hkeeps q hq
      · exact (sweep_file h hmade q b).mpr ((hfiles q b).mpr hq)

end Refactor
