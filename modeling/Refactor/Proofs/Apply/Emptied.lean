import Refactor.Proofs.Apply.Files

/-!
# Emptied directories

A source directory that holds no file any more goes away with all directories in it, the inner ones first, and each of
them stands at its counterpart afterwards.

* `Tree.Beside` — places of which neither contains the other one
* `Transaction.removeAllEmptied_turns`, `Transaction.removeAllEmptied_free` — no file is touched, and places away from
  destinations stay free
* `Transaction.Vacant`, `Transaction.Transferred` — a source before and after
* `Transaction.removeAllEmptied_transfers` — every source is taken away, part by part
-/

set_option linter.unusedSectionVars false

namespace Refactor

open Tree (pathOf placeOf)
open Path (IsName)

/-! ## Places beside each other -/

namespace Tree

def Beside (p q : Place) : Prop := ¬p <+: q ∧ ¬q <+: p

variable {p q r : Place}

theorem Beside.symm (h : Beside p q) : Beside q p := ⟨h.2, h.1⟩

/-- What is at or below one place is neither above nor below the other one. -/
theorem Beside.below (h : Beside p q) (hr : p <+: r) : Beside r q := by
  refine ⟨fun hlead => h.1 (hr.trans hlead), fun hlead => ?_⟩
  rcases List.prefix_or_prefix_of_prefix hr hlead with hpq | hqp
  · exact h.1 hpq
  · exact h.2 hqp

theorem Beside.append (h : Beside p q) (rest : Place) : Beside (p ++ rest) q := h.below (List.prefix_append _ _)

end Tree

open Tree (Beside)

variable {σ : Type} [TreeBacked σ]

namespace Transaction

variable {C : Prop} {t₀ : Tree}

theorem Ensured.wellFormed {m m' : Moment} {place : Place} (h : m.tree.WellFormed) (hm : Ensured m place m') :
    m'.tree.WellFormed := by
  cases hm with
  | there _ => exact h
  | made _ _ _ _ _ _ hgrown => exact hgrown.wellFormed

theorem Ensured.taken {m m' : Moment} {place : Place} (hm : Ensured m place m') : m'.tree.get? place ≠ none := by
  cases hm with
  | there h => exact h
  | made _ _ t _ _ _ hgrown =>
    show t.get? place ≠ none
    rw [hgrown.get?, if_pos List.prefix_rfl]
    simp

/-! ## Files -/

theorem removeEmptied_turns {G : Written → Prop} {src names : Place} {destination : Option Place}
    (hsrc : ∀ s ∈ src ++ names, IsName s) (hne : src ≠ []) (hdst : ∀ d ∈ destination, (∀ s ∈ d, IsName s) ∧ d ≠ []) :
    Turns (σ := σ) C (Sound t₀ G) (Sound t₀ G) id
      (removeEmptied ⟨pathOf src, destination.map pathOf⟩ (pathOf (src ++ names))) := by
  intro F
  have hsound : Runs (At (σ := σ) C (Sound t₀ G)) _ (fun _ => At C (Sound t₀ G)) _ :=
    removeEmptied_sound hsrc hne hdst
  have hruns := removeEmptied_runs (σ := σ) (C := C) (E := fun _ => True)
    (P := fun m => Sound t₀ G m ∧ m.tree.fileAt = F) (fun m hm => hm.1.wellFormed) hsrc hne hdst fun _ _ _ _ _ => trivial
  refine ((hsound.conseq (fun _ h => ⟨h.1.1, h.2⟩) (fun _ _ h => h) fun _ _ => trivial).and hruns).conseq
    (fun _ h => ⟨h, h⟩) ?_ fun _ _ => trivial
  rintro _ tx ⟨⟨hsound, _⟩, ⟨⟨⟨_, hF⟩, _⟩ | ⟨m, t, ⟨hm, hF⟩, hremove, hcarried⟩, hcalm⟩⟩
  · exact ⟨⟨hsound, hF⟩, hcalm⟩
  obtain ⟨hdir, _, hholds⟩ := Tree.removeDir_ok hm.wellFormed hsrc (by simp [hne]) hremove
  have hfiles : t.fileAt = F := by rw [hholds.fileAt_of_dir hdir, hF]
  refine ⟨⟨hsound, ?_⟩, hcalm⟩
  cases destination with
  | none =>
    have heq : tx.moment = m.without (pathOf (src ++ names)) t := hcarried
    rw [heq]
    exact hfiles
  | some d => exact (Ensured.fileAt hholds.wellFormed hcarried).trans hfiles

/-- Emptied directories are removed without touching a file. -/
theorem removeAllEmptied_turns {G : Written → Prop} {sources : List SourceDir}
    (hsources : ∀ source ∈ sources, source.Straight) :
    Turns (σ := σ) C (Sound t₀ G) (Sound t₀ G) id (removeAllEmptied sources) := fun F =>
  removeAllEmptied_keeps (E := fun _ => True) (fun _ hm => hm.1.wellFormed) hsources
    fun _ _ _ _ hsrc hne hdst => removeEmptied_turns hsrc hne hdst F

/-! ## Free places -/

/-- A free place beside all destinations stays free. -/
theorem removeAllEmptied_free {sources : List SourceDir} (hsources : ∀ source ∈ sources, source.Straight) {q : Place}
    (hbeside : ∀ source ∈ sources, ∀ d ∈ source.destination, Beside q (placeOf d)) :
    Runs (At (σ := σ) C fun m => m.tree.WellFormed ∧ m.tree.get? q = none) (removeAllEmptied sources)
      (fun _ => At C fun m => m.tree.WellFormed ∧ m.tree.get? q = none) (fun _ => True) := by
  refine removeAllEmptied_keeps (E := fun _ => True) (fun _ hm => hm.1) hsources
    fun src destination names hmem hsrc hne hdst => ?_
  refine (removeEmptied_runs (E := fun _ => True) (fun _ hm => hm.1) hsrc hne hdst fun _ _ _ _ _ => trivial).conseq
    (fun _ h => h) ?_ fun _ h => h
  rintro _ tx ⟨⟨hm, _⟩ | ⟨m, t, ⟨hwf, hfree⟩, hremove, hcarried⟩, hcalm⟩
  · exact ⟨hm, hcalm⟩
  obtain ⟨_, _, hholds⟩ := Tree.removeDir_ok hwf hsrc (by simp [hne]) hremove
  have hfree' : t.get? q = none := by
    rw [hholds.get?]
    split_ifs
    · rfl
    · exact hfree
  refine ⟨?_, hcalm⟩
  cases destination with
  | none =>
    have heq : tx.moment = m.without (pathOf (src ++ names)) t := hcarried
    rw [heq]
    exact ⟨hholds.wellFormed, hfree'⟩
  | some d =>
    have hensured : Ensured (m.without (pathOf (src ++ names)) t) (d ++ names) tx.moment := hcarried
    refine ⟨hensured.wellFormed hholds.wellFormed, ?_⟩
    rcases hensured.get?_cases hholds.wellFormed q with heq | ⟨_, _, hlead⟩
    · rw [heq]
      exact hfree'
    · have hfar := hbeside _ hmem (pathOf d) rfl
      rw [Tree.placeOf_names (hdst d rfl).1] at hfar
      exact absurd hlead (hfar.symm.append names).2

/-! ## One source -/

/-- While the directories of a source are removed: those that are left still stand, nothing else does in the source, and
what was removed has its counterpart. Elsewhere only directories around the destination are new. -/
structure Emptying (t : Tree) (src : Place) (destination : Option Place) (left : List Place) (m : Moment) : Prop where
  wellFormed : m.tree.WellFormed
  inside : ∀ q, src <+: q → m.tree.get? q = if q ∈ left then some .dir else none
  outside : ∀ q, ¬src <+: q → m.tree.get? q = t.get? q ∨
    t.get? q = none ∧ m.tree.get? q = some .dir ∧ ∃ d ∈ destination, q <+: d ∨ d <+: q
  carried : ∀ d ∈ destination, ∀ names, t.get? (src ++ names) = some .dir → src ++ names ∉ left →
    m.tree.get? (d ++ names) ≠ none

namespace Emptying

variable {t : Tree} {src : Place} {destination : Option Place} {left : List Place} {m m' : Moment}

/-- The innermost directory that is left is empty. -/
theorem removable {names : Place} (h : Emptying t src destination ((src ++ names) :: left) m)
    (hsorted : ∀ q ∈ left, q < src ++ names) (hsrc : ∀ s ∈ src ++ names, IsName s) :
    ∃ t', m.tree.removeDir (pathOf (src ++ names)) = .ok t' := by
  refine ⟨_, (Tree.removeDir_eq_ok_iff h.wellFormed hsrc).mpr ⟨?_, fun s => ?_, rfl⟩⟩
  · rw [h.inside _ (List.prefix_append _ _), if_pos (by simp)]
  · rw [h.inside _ ((List.prefix_append src names).trans (List.prefix_append _ _)), if_neg]
    intro hmem
    rcases List.mem_cons.mp hmem with heq | hmem
    · simp at heq
    · have hlt : src ++ names ++ [] < src ++ names ++ [s] := List.append_left_lt (List.nil_lt_cons s [])
      rw [List.append_nil] at hlt
      exact lt_asymm hlt (hsorted _ hmem)

/-- A directory that is left is removed and made at its counterpart. -/
theorem step {names : Place} (h : Emptying t src destination ((src ++ names) :: left) m)
    (hsorted : ∀ q ∈ left, q < src ++ names) (hsrc : ∀ s ∈ src ++ names, IsName s) (hne : src ≠ [])
    (hbeside : ∀ d ∈ destination, Beside src d) {t' : Tree}
    (hremove : m.tree.removeDir (pathOf (src ++ names)) = .ok t')
    (hcarried : Carried destination names (m.without (pathOf (src ++ names)) t') m') :
    Emptying t src destination left m' := by
  have hhead : src ++ names ∉ left := fun hmem => lt_irrefl _ (hsorted _ hmem)
  obtain ⟨_, _, hholds⟩ := Tree.removeDir_ok h.wellFormed hsrc (by simp [hne]) hremove
  -- after the removal alone
  have hinside : ∀ q, src <+: q → t'.get? q = if q ∈ left then some .dir else none := by
    intro q hq
    rw [hholds.get?, h.inside q hq]
    by_cases hqhead : q = src ++ names
    · rw [if_pos hqhead, hqhead, if_neg hhead]
    · simp [hqhead]
  have houtside : ∀ q, ¬src <+: q → t'.get? q = m.tree.get? q := by
    intro q hq
    rw [hholds.get?, if_neg]
    rintro rfl
    exact hq (List.prefix_append _ _)
  cases destination with
  | none =>
    obtain rfl : m' = m.without (pathOf (src ++ names)) t' := hcarried
    refine ⟨hholds.wellFormed, hinside, fun q hq => ?_, by simp⟩
    show t'.get? q = _ ∨ _
    rw [houtside q hq]
    exact (h.outside q hq).imp_right (by simp)
  | some d =>
    have hbeside := hbeside d rfl
    have hensured : Ensured (m.without (pathOf (src ++ names)) t') (d ++ names) m' := hcarried
    have hcases := hensured.get?_cases hholds.wellFormed
    refine ⟨hensured.wellFormed hholds.wellFormed, fun q hq => ?_, fun q hq => ?_, fun d' hd' names' hdir hleft => ?_⟩
    · rcases hcases q with heq | ⟨_, _, hlead⟩
      · rw [heq]
        exact hinside q hq
      · exact absurd (hq.trans hlead) (hbeside.symm.append names).2
    · rcases hcases q with heq | ⟨hnone, hdir, hlead⟩
      · rw [heq]
        show t'.get? q = _ ∨ t.get? q = none ∧ t'.get? q = _ ∧ _
        rw [houtside q hq]
        exact h.outside q hq
      · have hnone' : m.tree.get? q = none := by rw [← houtside q hq]; exact hnone
        refine Or.inr ⟨?_, hdir, d, rfl, List.prefix_or_prefix_of_prefix hlead (List.prefix_append _ _)⟩
        rcases h.outside q hq with heq | ⟨hfree, _, _⟩
        · rw [← heq, hnone']
        · exact hfree
    · obtain rfl : d = d' := Option.some.inj hd'
      by_cases hnames : names' = names
      · rw [hnames]
        exact hensured.taken
      · have htaken := h.carried d rfl names' hdir (by simp [hnames, hleft])
        rw [← houtside _ (hbeside.symm.append names').2] at htaken
        rcases hcases (d ++ names') with heq | ⟨_, hdir', _⟩
        · rw [heq]
          exact htaken
        · rw [hdir']
          simp

end Emptying

/-- The directories of a source that holds no file. -/
theorem removeEmptied_empties {m₀ : Moment} (h₀ : m₀.tree.WellFormed) {src : Place} {destination : Option Place}
    (hsrc : ∀ s ∈ src, IsName s) (hne : src ≠ []) (hdst : ∀ d ∈ destination, (∀ s ∈ d, IsName s) ∧ d ≠ [])
    (hbeside : ∀ d ∈ destination, Beside src d) (hfiles : ∀ q b, src <+: q → m₀.tree.get? q ≠ some (.file b)) :
    Runs (At (σ := σ) True (· = m₀)) (do
        let dirs ← call (FileSystem.dirsUnder (pathOf src))
        dirs.forM (removeEmptied ⟨pathOf src, destination.map pathOf⟩))
      (fun _ => At True (Emptying m₀.tree src destination [])) (fun _ => True) := by
  refine (call_runs (E := fun _ => True) (FileSystem.dirsUnder_looks _) (·.dirsUnder (pathOf src))
    (TreeBacked.dirsUnder_answer _)).bind fun dirs => ?_
  obtain ⟨places, hplaces, hmem, hsorted⟩ := Tree.dirsUnder_names h₀ hsrc
  by_cases hdirs : dirs = places.map pathOf
  · subst hdirs
    rw [List.forM_eq_forM, List.forM_map, ← List.forM_eq_forM]
    refine (Runs.forM (I := fun left => At True (Emptying m₀.tree src destination left)) places
      fun place left hsuffix => ?_).conseq ?_ (fun _ _ h => h) fun _ h => h
    · obtain ⟨⟨names, rfl⟩, hdir⟩ := (hmem place).mp (hsuffix.subset (by simp))
      have hnames := h₀.isName (p := src ++ names) (by rw [hdir]; simp)
      have hbelow := (List.pairwise_cons.mp (hsorted.sublist hsuffix.sublist)).1
      refine (removeEmptied_runs (E := fun _ => True) (fun m hm => hm.wellFormed) hnames hne hdst
        fun _ _ _ _ _ => trivial).conseq (fun _ h => h) ?_ fun _ h => h
      rintro _ tx ⟨⟨hm, hfault⟩ | ⟨m, t', hm, hremove, hcarried⟩, hcalm⟩
      · obtain ⟨fault, hfault⟩ := hfault trivial
        obtain ⟨t', ht'⟩ := hm.removable hbelow hnames
        rw [ht'] at hfault
        cases hfault
      · exact ⟨hm.step hbelow hnames hne hbeside hremove hcarried, hcalm⟩
    · rintro tx ⟨⟨htx, _⟩, hcalm⟩
      refine ⟨?_, hcalm⟩
      rw [htx]
      refine ⟨h₀, fun q hq => ?_, fun q _ => Or.inl rfl, fun d _ names hdir hleft => ?_⟩
      · cases hget : m₀.tree.get? q with
        | none =>
          rw [if_neg]
          intro hqmem
          rw [((hmem q).mp hqmem).2] at hget
          cases hget
        | some e =>
          rcases h₀.file_or_dir hget with rfl | ⟨b, rfl⟩
          · rw [if_pos ((hmem q).mpr ⟨hq, hget⟩)]
          · exact absurd hget (hfiles q b hq)
      · exact absurd ((hmem _).mpr ⟨List.prefix_append _ _, hdir⟩) hleft
  · rintro tx ⟨⟨htx, hanswer⟩, _⟩
    rw [htx, hplaces] at hanswer
    exact absurd hanswer hdirs

/-! ## All sources -/

/-- Of what was in a source before, the directories stand and nothing else does. -/
def Vacant (t₀ : Tree) (source : SourceDir) (t : Tree) : Prop :=
  ∀ q, placeOf source.path <+: q → t.get? q = if t₀.get? q = some .dir then some .dir else none

/-- Nothing stands in a source any more, and what was a directory in it before has its counterpart. -/
structure Transferred (t₀ : Tree) (source : SourceDir) (t : Tree) : Prop where
  gone : ∀ q, placeOf source.path <+: q → t.get? q = none
  carried : ∀ d ∈ source.destination, ∀ names, t₀.get? (placeOf source.path ++ names) = some .dir →
    t.get? (placeOf d ++ names) ≠ none

/-- Sources lie beside each other and beside all destinations. -/
structure SourcesApart (sources : List SourceDir) : Prop where
  straight : ∀ c ∈ sources, c.Straight
  pairwise : sources.Pairwise fun c c' => Beside (placeOf c.path) (placeOf c'.path)
  destinations : ∀ c ∈ sources, ∀ c' ∈ sources, ∀ d ∈ c'.destination, Beside (placeOf c.path) (placeOf d)

/-- What lies beside a source and its destination does not notice that the source is emptied. -/
theorem Emptying.beside {t : Tree} {src p : Place} {destination : Option Place} {m : Moment}
    (h : Emptying t src destination [] m) (hsrc : Beside src p) (hdst : ∀ d ∈ destination, Beside p d) {q : Place}
    (hq : p <+: q) : m.tree.get? q = t.get? q := by
  rcases h.outside q (hsrc.symm.below hq).2 with heq | ⟨_, _, d, hd, hlead⟩
  · exact heq
  · have hbeside := (hdst d hd).below hq
    rcases hlead with hlead | hlead
    · exact absurd hlead hbeside.1
    · exact absurd hlead hbeside.2

instance : Std.Symm fun c c' : SourceDir => Beside (placeOf c.path) (placeOf c'.path) := ⟨fun _ _ h => h.symm⟩

/-- All sources but those that are left are taken away. -/
structure TransferredBut (t₀ : Tree) (sources left : List SourceDir) (m : Moment) : Prop where
  wellFormed : m.tree.WellFormed
  vacant : ∀ c ∈ left, Vacant t₀ c m.tree
  transferred : ∀ c ∈ sources, c ∈ left ∨ Transferred t₀ c m.tree

/-- A run from a moment is one from that very moment. -/
theorem runs_of_moments {P : Moment → Prop} {α : Type} {f : Writing σ α} {Q : α → Transaction σ → Prop}
    {E : Transaction σ → Prop} (h : ∀ m, P m → Runs (At C (· = m)) f Q E) : Runs (At C P) f Q E :=
  fun tx htx => h tx.moment htx.1 tx ⟨rfl, htx.2⟩

/-- Every source that holds no file is taken away, part by part. -/
theorem removeAllEmptied_transfers {sources : List SourceDir} (h : SourcesApart sources) :
    Runs (At (σ := σ) True fun m => m.tree.WellFormed ∧ ∀ c ∈ sources, Vacant t₀ c m.tree) (removeAllEmptied sources)
      (fun _ => At True fun m => ∀ c ∈ sources, Transferred t₀ c m.tree) (fun _ => True) := by
  unfold removeAllEmptied
  refine (Runs.forM (I := fun left => At True (TransferredBut t₀ sources left)) sources
    fun source left hsuffix => ?_).conseq (fun _ htx => ⟨⟨htx.1.1, htx.1.2, fun _ hc => Or.inl hc⟩, htx.2⟩)
    (fun _ _ htx => ⟨fun c hc => (htx.1.transferred c hc).resolve_left (by simp), htx.2⟩) fun _ h => h
  have hmem : source ∈ sources := hsuffix.subset (by simp)
  have hrest := (List.pairwise_cons.mp (h.pairwise.sublist hsuffix.sublist)).1
  obtain ⟨src, destination, rfl, hsrc, hne, hdst⟩ := (h.straight source hmem).places
  have hplace : placeOf (pathOf src) = src := Tree.placeOf_names hsrc
  have hdestination : ∀ c ∈ sources, ∀ d ∈ destination, Beside (placeOf c.path) d := by
    intro c hc d hd
    have hbeside := h.destinations c hc _ hmem (pathOf d) (Option.mem_map_of_mem pathOf hd)
    rwa [Tree.placeOf_names (hdst d hd).1] at hbeside
  refine runs_of_moments fun m₀ hm₀ => ?_
  have hinside : ∀ q, src <+: q → m₀.tree.get? q = if t₀.get? q = some .dir then some .dir else none := by
    have hvacant := hm₀.vacant _ List.mem_cons_self
    unfold Vacant at hvacant
    rwa [hplace] at hvacant
  have hfiles : ∀ q b, src <+: q → m₀.tree.get? q ≠ some (.file b) := by
    intro q b hq
    rw [hinside q hq]
    split_ifs <;> simp
  have hbeside := hdestination _ hmem
  rw [hplace] at hbeside
  refine (removeEmptied_empties hm₀.wellFormed hsrc hne hdst hbeside hfiles).conseq (fun _ h => h) ?_ fun _ h => h
  rintro _ tx ⟨hempties, hcalm⟩
  refine ⟨⟨hempties.wellFormed, fun c hc q hq => ?_, fun c hc => ?_⟩, hcalm⟩
  · have hcmem : c ∈ sources := hsuffix.subset (List.mem_cons_of_mem _ hc)
    rw [hempties.beside (hplace ▸ hrest c hc) (hdestination c hcmem) hq]
    exact hm₀.vacant c (List.mem_cons_of_mem _ hc) q hq
  · by_cases hsame : c = ⟨pathOf src, destination.map pathOf⟩
    · subst hsame
      refine Or.inr ⟨fun q hq => ?_, fun d hd names hdir => ?_⟩
      · rw [hplace] at hq
        rw [hempties.inside q hq, if_neg (by simp)]
      · obtain ⟨p, hp, rfl⟩ := Option.mem_map.mp hd
        rw [Tree.placeOf_names (hdst p hp).1]
        rw [hplace] at hdir
        refine hempties.carried p hp names ?_ (by simp)
        rw [hinside _ (List.prefix_append _ _), if_pos hdir]
    · have hapart := h.pairwise.forall hmem hc (Ne.symm hsame)
      rw [hplace] at hapart
      refine (hm₀.transferred c hc).imp (fun hleft => (List.mem_cons.mp hleft).resolve_left hsame) fun hdone => ?_
      refine ⟨fun q hq => ?_, fun d hd names hdir => ?_⟩
      · rw [hempties.beside hapart (hdestination c hc) hq]
        exact hdone.gone q hq
      · have hfar := h.destinations _ hmem c hc d hd
        rw [hplace] at hfar
        rcases hempties.outside _ (hfar.symm.append names).2 with heq | ⟨_, hnew, _⟩
        · rw [heq]
          exact hdone.carried d hd names hdir
        · rw [hnew]
          simp

end Transaction

end Refactor
