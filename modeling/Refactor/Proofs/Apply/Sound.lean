import Refactor.Proofs.Apply.Writing
import Refactor.Proofs.Disk.Walk

/-!
# What the writing accounts for

At every moment of the writing, wherever it stops, the records account for all that differs from the tree before.

* `Transaction.Sound` — a moment whose records account for its tree
* `WorkspaceEdit.Admitted` — edits that move and delete files, each once
* `Transaction.writeAll_sound` — the writing of such an edit ends in a sound moment, whether it fails or not
-/

set_option linter.unusedSectionVars false

namespace Refactor

open Tree (Below pathOf placeOf slashOf)
open Path (IsName)

def Written.paths : Written → List Path
  | .path p => [p]
  | .move a b => [a, b]

def Written.places (w : Written) : List Place := w.paths.map placeOf

def FileOperation.written : FileOperation → Written
  | .move a b _ => .move a b
  | .create p _ _ => .path p
  | .delete p => .path p

/-- Edits that log changes of `G` only and whose operations take away files of a tree, each once. -/
structure WorkspaceEdit.Admitted (t₀ : Tree) (G : Written → Prop) (edit : WorkspaceEdit) : Prop where
  edited : ∀ p es, (p, es) ∈ edit.changes → es ≠ [] → G (.path p)
  written : ∀ op ∈ edit.operations, G op.written
  straight : ∀ op ∈ edit.operations, ∀ p ∈ op.paths, p.Straight
  sources : ∀ op ∈ edit.operations, ∀ a ∈ op.source?, ∃ b, t₀.get? (placeOf a) = some (.file b)
  apart : edit.operations.Pairwise fun op op' => ∀ a ∈ op.source?, ∀ a' ∈ op'.source?, placeOf a ≠ placeOf a'

variable {σ : Type} [TreeBacked σ]

namespace Transaction

/-- The records of a moment account for its tree, and every logged change is one of `G`. -/
structure Sound (t₀ : Tree) (G : Written → Prop) (m : Moment) : Prop where
  wellFormed : m.tree.WellFormed
  accounted : Accounted t₀ m.tree.get? (m.log.flatMap Written.places) (m.createdDirs.map placeOf)
    (m.removedDirs.map placeOf)
  log : ∀ w ∈ m.log, G w
  created : ∀ p ∈ m.createdDirs, p.Straight
  removed : ∀ p ∈ m.removedDirs, p.Straight

namespace Sound

variable {t₀ : Tree} {G : Written → Prop} {m m' : Moment}

theorem record (h : Sound t₀ G m) {w : Written} (hw : G w) : Sound t₀ G (m.record w) where
  wellFormed := h.wellFormed
  accounted := h.accounted.log (by simp [Moment.record])
  log v hv := by
    rcases List.mem_append.mp hv with hv | hv
    · exact h.log v hv
    · rw [List.mem_singleton.mp hv]
      exact hw
  created := h.created
  removed := h.removed

/-- A file is put at or taken from a logged place, while no directory has been removed. -/
theorem set (h : Sound t₀ G m) (hnone : m.removedDirs = []) {p : Place} {entry : Option Entry} {t : Tree}
    (hp : p ∈ m.log.flatMap Written.places) (hentry : entry ≠ some .dir) (hdir : m.tree.get? p ≠ some .dir)
    (hholds : m.tree.Holds p entry t) : Sound t₀ G (m.over t) where
  wellFormed := hholds.wellFormed
  accounted := h.accounted.set hp hentry hdir (by simp [hnone]) hholds.get?
  log := h.log
  created := h.created
  removed := h.removed

theorem ensured (h : Sound t₀ G m) {place : Place} (hplace : ∀ s ∈ place, IsName s) (hm : Ensured m place m') :
    Sound t₀ G m' := by
  cases hm with
  | there _ => exact h
  | made d rest t heq hdir hfree hgrown =>
    subst heq
    have hbelow : ∀ q ∈ chain d rest, (∀ s ∈ q, IsName s) ∧ q ≠ [] := by
      intro q hq
      obtain ⟨hbelow, hlead⟩ := mem_chain.mp hq
      refine ⟨fun s hs => hplace s (hlead.subset hs), ?_⟩
      rintro rfl
      exact hbelow.2 (List.prefix_nil.mp hbelow.1).symm
    have hplaces : ((chain d rest).map pathOf).map placeOf = chain d rest := by
      rw [List.map_map]
      conv_rhs => rw [← List.map_id (chain d rest)]
      exact List.map_congr_left fun q hq => Tree.placeOf_names (hbelow q hq).1
    have hview : t.get? = fun q => if q <+: d ++ rest then some .dir else m.tree.get? q := funext hgrown.get?
    refine ⟨hgrown.wellFormed, ?_, h.log, fun p hp => ?_, h.removed⟩
    · rw [List.map_append, hplaces, hview]
      refine h.accounted.grow rest (fun q hq => ?_) fun s hs q hq => ?_
      · have hd := (Tree.Grown.refl h.wellFormed hdir).get? q
        rwa [if_pos hq] at hd
      · obtain ⟨more, rfl⟩ := hq
        have hgone : m.tree.get? (d ++ [s]) = none := by
          cases rest with
          | nil => cases hs
          | cons r rest =>
            obtain rfl : r = s := by simpa using hs
            exact hfree _ (by simp [chain])
        by_cases hmore : more = []
        · rw [hmore, List.append_nil, hgone]
        · exact h.wellFormed.get?_below (by rw [hgone]; simp) hmore
    · rcases List.mem_append.mp hp with hp | hp
      · exact h.created p hp
      · obtain ⟨q, hq, rfl⟩ := List.mem_map.mp hp
        exact ⟨q, (hbelow q hq).1, (hbelow q hq).2, rfl⟩

/-- An empty directory is removed. -/
theorem without (h : Sound t₀ G m) {d : Place} (hd : ∀ s ∈ d, IsName s) (hne : d ≠ []) {t : Tree}
    (hremove : m.tree.removeDir (pathOf d) = .ok t) : Sound t₀ G (m.without (pathOf d) t) := by
  obtain ⟨hdir, _, hholds⟩ := Tree.removeDir_ok h.wellFormed hd hne hremove
  refine ⟨hholds.wellFormed, ?_, h.log, h.created, fun p hp => ?_⟩
  · have hplaces : (m.without (pathOf d) t).removedDirs.map placeOf = m.removedDirs.map placeOf ++ [d] := by
      simp [Moment.without, Tree.placeOf_names hd]
    rw [hplaces]
    refine h.accounted.unmake hdir ?_ hholds.get?
    rintro q ⟨⟨rest, rfl⟩, hq⟩
    exact h.wellFormed.dir_of_lt rest (by simpa using hq) (by rw [hdir]; simp)
  · rcases List.mem_append.mp hp with hp | hp
    · exact h.removed p hp
    · rw [List.mem_singleton.mp hp]
      exact ⟨d, hd, hne, rfl⟩

end Sound

/-! ## Changes of files -/

/-- A sound moment before any directory was removed. -/
def Whole (t₀ : Tree) (G : Written → Prop) (m : Moment) : Prop := Sound t₀ G m ∧ m.removedDirs = []

namespace Whole

variable {t₀ : Tree} {G : Written → Prop} {m m' : Moment}

theorem start (ht₀ : t₀.WellFormed) (heeds : Bool) : Whole t₀ G (.start t₀ heeds) :=
  ⟨⟨ht₀, Accounted.start t₀, by simp [Moment.start], by simp [Moment.start], by simp [Moment.start]⟩, rfl⟩

theorem ensured (h : Whole t₀ G m) {place : Place} (hplace : ∀ s ∈ place, IsName s) (hm : Ensured m place m') :
    Whole t₀ G m' := by
  refine ⟨h.1.ensured hplace hm, ?_⟩
  cases hm with
  | there _ => exact h.2
  | made => exact h.2

theorem write (h : Whole t₀ G m) {p : Path} {b : ByteArray} (hG : G (.path p))
    (hm : Logged (.path p) (·.write p b) m m') : Whole t₀ G m' := by
  obtain ⟨hdir, hholds⟩ := Tree.write_ok h.1.wellFormed hm.tree
  rw [hm.moment]
  exact ⟨(h.1.record hG).set h.2 (by simp [Moment.record, Written.places, Written.paths]) (by simp) hdir hholds, h.2⟩

theorem removeFile (h : Whole t₀ G m) {p : Path} (hG : G (.path p)) (hm : Logged (.path p) (·.removeFile p) m m') :
    Whole t₀ G m' := by
  obtain ⟨⟨b, hfile⟩, hholds⟩ := Tree.removeFile_ok h.1.wellFormed hm.tree
  rw [hm.moment]
  refine ⟨(h.1.record hG).set h.2 (by simp [Moment.record, Written.places, Written.paths]) (by simp) ?_ hholds, h.2⟩
  show m.tree.get? (placeOf p) ≠ some .dir
  rw [hfile]
  simp

theorem rename (h : Whole t₀ G m) {src dst : Place} (hsrc : ∀ s ∈ src, IsName s) (hdst : ∀ s ∈ dst, IsName s)
    {b : ByteArray} (hfile : m.tree.get? src = some (.file b)) (hG : G (.move (pathOf src) (pathOf dst)))
    (hm : Logged (.move (pathOf src) (pathOf dst)) (·.rename (pathOf src) (pathOf dst)) m m') : Whole t₀ G m' := by
  obtain ⟨hdir, hwellFormed, hget⟩ := Tree.rename_ok h.1.wellFormed hsrc hdst hfile hm.tree
  have hlogged := (h.1.record hG).accounted
  rw [hm.moment]
  refine ⟨⟨hwellFormed, ?_, (h.1.record hG).log, h.1.created, h.1.removed⟩, h.2⟩
  -- taken from the old place, then put at the new one
  have hunmade : ((m.record (.move (pathOf src) (pathOf dst))).removedDirs.map placeOf) = [] := by
    simp [Moment.record, h.2]
  have hsrclogged : src ∈ (m.record (.move (pathOf src) (pathOf dst))).log.flatMap Written.places := by
    simp [Moment.record, Written.places, Written.paths, Tree.placeOf_names hsrc]
  have htaken : Accounted t₀ (fun q => if q = src then none else m.tree.get? q) _ _ _ :=
    hlogged.set hsrclogged (by simp) (by show m.tree.get? src ≠ _; rw [hfile]; simp) (by simp) fun _ => rfl
  refine htaken.set (p := dst) ?_ (by simp) ?_ (by rw [hunmade]; simp) hget
  · simp [Moment.record, Written.places, Written.paths, Tree.placeOf_names hdst]
  · split_ifs
    · simp
    · exact hdir

end Whole

/-! ## Loops -/

/-- Every move finds a file at its source. -/
def Standing (ops : List FileOperation) (m : Moment) : Prop :=
  ∀ a b o, .move a b o ∈ ops → ∃ c, m.tree.get? (placeOf a) = some (.file c)

variable {C : Prop} {t₀ : Tree} {G : Written → Prop} {edit : WorkspaceEdit}

theorem writeEdits_whole (h : edit.Admitted t₀ G) (plan : Plan) (snapshots : Snapshots) {p : Path}
    {es : List TextEdit} (hmem : (p, es) ∈ edit.changes) (ops : List FileOperation) :
    Runs (At (σ := σ) C fun m => Whole t₀ G m ∧ Standing ops m) (writeEdits plan snapshots p es)
      (fun _ => At C fun m => Whole t₀ G m ∧ Standing ops m) (fun tx => Sound t₀ G tx.moment) := by
  refine (writeEdits_runs plan snapshots p es (fun m hm _ => hm.1.1) fun hes m hm _ =>
    hm.1.1.record (h.edited p es hmem hes)).conseq (fun _ h => h) ?_ fun _ h => h
  rintro _ tx ⟨⟨_, htx⟩ | ⟨hes, m, out, ⟨hwhole, hstanding⟩, _, hlogged⟩, hcalm⟩
  · exact ⟨htx, hcalm⟩
  · refine ⟨⟨hwhole.write (h.edited p es hmem hes) hlogged, fun a b o hab => ?_⟩, hcalm⟩
    obtain ⟨c, hc⟩ := hstanding a b o hab
    rw [(Tree.write_ok hwhole.1.wellFormed hlogged.tree).2.get?]
    split_ifs
    · exact ⟨_, rfl⟩
    · exact ⟨c, hc⟩

theorem writeMove_whole (h : edit.Admitted t₀ G) {a b : Path} {o : Bool} {ops : List FileOperation}
    (hsuffix : .move a b o :: ops <:+ edit.operations) :
    Runs (At (σ := σ) C fun m => Whole t₀ G m ∧ Standing (.move a b o :: ops) m) (writeMove a b)
      (fun _ => At C fun m => Whole t₀ G m ∧ Standing ops m) (fun tx => Sound t₀ G tx.moment) := by
  have hmem : .move a b o ∈ edit.operations := hsuffix.subset (by simp)
  obtain ⟨src, hsrc, _, rfl⟩ := h.straight _ hmem a (by simp [FileOperation.paths])
  obtain ⟨dst, hdst, hne, rfl⟩ := h.straight _ hmem b (by simp [FileOperation.paths])
  obtain ⟨d, s, rfl⟩ : ∃ d s, dst = d ++ [s] := ⟨_, _, (List.dropLast_append_getLast hne).symm⟩
  have hd : ∀ n ∈ d, IsName n := fun n hn => hdst n (List.mem_append_left _ hn)
  have hapart := (List.pairwise_cons.mp (h.apart.sublist hsuffix.sublist)).1
  refine (writeMove_runs (fun m hm => hm.1.1.wellFormed) _ hdst (fun m hm _ => hm.1.1) fun m m' hm hensured _ =>
    (hm.1.1.ensured hd hensured).record (h.written _ hmem)).conseq (fun _ h => h) ?_ fun _ h => h
  rintro _ tx ⟨⟨m, m₁, ⟨hwhole, hstanding⟩, hensured, hlogged⟩, hcalm⟩
  have hwhole₁ := hwhole.ensured hd hensured
  obtain ⟨c, hc⟩ := hstanding _ _ _ List.mem_cons_self
  have hfile := hensured.file hwhole.1.wellFormed hc
  rw [Tree.placeOf_names hsrc] at hfile
  refine ⟨⟨hwhole₁.rename hsrc hdst hfile (h.written _ hmem) hlogged, fun a' b' o' hab => ?_⟩, hcalm⟩
  obtain ⟨c', hc'⟩ := hstanding a' b' o' (List.mem_cons_of_mem _ hab)
  have hne' : placeOf a' ≠ src := by
    have := hapart _ hab _ rfl a' rfl
    rw [Tree.placeOf_names hsrc] at this
    exact Ne.symm this
  rw [(Tree.rename_ok hwhole₁.1.wellFormed hsrc hdst hfile hlogged.tree).2.2, if_neg hne']
  split_ifs
  · exact ⟨_, rfl⟩
  · exact ⟨c', hensured.file hwhole.1.wellFormed hc'⟩

theorem writeCreate_whole (h : edit.Admitted t₀ G) {p : Path} {content : String} {o : Bool}
    (hmem : .create p content o ∈ edit.operations) :
    Runs (At (σ := σ) C (Whole t₀ G)) (writeCreate p content) (fun _ => At C (Whole t₀ G))
      (fun tx => Sound t₀ G tx.moment) := by
  obtain ⟨place, hplace, hne, rfl⟩ := h.straight _ hmem p (by simp [FileOperation.paths])
  obtain ⟨d, s, rfl⟩ : ∃ d s, place = d ++ [s] := ⟨_, _, (List.dropLast_append_getLast hne).symm⟩
  have hd : ∀ n ∈ d, IsName n := fun n hn => hplace n (List.mem_append_left _ hn)
  refine (writeCreate_runs (fun m hm => hm.1.wellFormed) _ hplace (fun m hm _ => hm.1) fun m m' hm hensured _ =>
    (hm.1.ensured hd hensured).record (h.written _ hmem)).conseq (fun _ h => h) ?_ fun _ h => h
  rintro _ tx ⟨⟨m, m₁, hwhole, hensured, hlogged⟩, hcalm⟩
  exact ⟨(hwhole.ensured hd hensured).write (h.written _ hmem) hlogged, hcalm⟩

theorem writeDelete_whole (h : edit.Admitted t₀ G) {p : Path} (hmem : .delete p ∈ edit.operations) :
    Runs (At (σ := σ) C (Whole t₀ G)) (writeDelete p) (fun _ => At C (Whole t₀ G))
      (fun tx => Sound t₀ G tx.moment) := by
  refine (writeDelete_runs p (fun m hm _ => hm.1) fun m hm _ => hm.1.record (h.written _ hmem)).conseq
    (fun _ h => h) ?_ fun _ h => h
  rintro _ tx ⟨⟨m, hwhole, hlogged⟩, hcalm⟩
  exact ⟨hwhole.removeFile (h.written _ hmem) hlogged, hcalm⟩

theorem removeEmptied_sound {src names : Place} {destination : Option Place}
    (hsrc : ∀ s ∈ src ++ names, IsName s) (hne : src ≠ [])
    (hdst : ∀ d ∈ destination, (∀ s ∈ d, IsName s) ∧ d ≠ []) :
    Runs (At (σ := σ) C (Sound t₀ G))
      (removeEmptied ⟨pathOf src, destination.map pathOf⟩ (pathOf (src ++ names)))
      (fun _ => At C (Sound t₀ G)) (fun tx => Sound t₀ G tx.moment) := by
  have hwithout : ∀ m t, Sound t₀ G m → m.tree.removeDir (pathOf (src ++ names)) = .ok t →
      Sound t₀ G (m.without (pathOf (src ++ names)) t) := fun m t hm ht => hm.without hsrc (by simp [hne]) ht
  refine (removeEmptied_runs (fun m hm => hm.wellFormed) hsrc hne hdst fun m t hm ht _ => hwithout m t hm ht).conseq
    (fun _ h => h) ?_ fun _ h => h
  rintro _ tx ⟨⟨htx, _⟩ | ⟨m, t, hm, ht, hcarried⟩, hcalm⟩
  · exact ⟨htx, hcalm⟩
  · refine ⟨?_, hcalm⟩
    cases destination with
    | none =>
      have heq : tx.moment = m.without (pathOf (src ++ names)) t := hcarried
      rw [heq]
      exact hwithout m t hm ht
    | some d =>
      refine (hwithout m t hm ht).ensured (fun s hs => ?_) hcarried
      rcases List.mem_append.mp hs with hs | hs
      · exact (hdst d rfl).1 s hs
      · exact hsrc s (List.mem_append_right _ hs)

/-- What every removal of a directory in a source keeps, the removal of all emptied directories keeps. -/
theorem removeAllEmptied_keeps {I E : Moment → Prop} (hI : ∀ m, I m → m.tree.WellFormed) {sources : List SourceDir}
    (hsources : ∀ source ∈ sources, source.Straight)
    (hstep : ∀ (src : Place) (destination : Option Place) (names : Place),
      ⟨pathOf src, destination.map pathOf⟩ ∈ sources → (∀ s ∈ src ++ names, IsName s) → src ≠ [] →
      (∀ d ∈ destination, (∀ s ∈ d, IsName s) ∧ d ≠ []) →
      Runs (At (σ := σ) C I) (removeEmptied ⟨pathOf src, destination.map pathOf⟩ (pathOf (src ++ names)))
        (fun _ => At C I) (fun tx => E tx.moment)) :
    Runs (At (σ := σ) C I) (removeAllEmptied sources) (fun _ => At C I) (fun tx => E tx.moment) := by
  refine Runs.forM (I := fun _ => At C I) sources fun source rest hsuffix => ?_
  have hmem : source ∈ sources := hsuffix.subset (by simp)
  obtain ⟨src, destination, rfl, hsrc, hne, hdst⟩ := (hsources source hmem).places
  refine (call_runs (FileSystem.dirsUnder_looks _) (·.dirsUnder (pathOf src))
    (TreeBacked.dirsUnder_answer _)).bind fun dirs => ?_
  -- what the walk lists does not depend on the moment in which its members are looked at
  by_cases hdirs : ∃ t : Tree, t.WellFormed ∧ dirs = t.dirsUnder (pathOf src)
  · obtain ⟨t, ht, rfl⟩ := hdirs
    obtain ⟨places, hplaces, hlisted, _⟩ := Tree.dirsUnder_names ht hsrc
    rw [hplaces]
    refine (Runs.forM (I := fun _ => At C I) _ fun dir left hleft => ?_).conseq
      (fun _ h => ⟨h.1.1, h.2⟩) (fun _ _ h => h) fun _ h => h
    obtain ⟨place, hplace, rfl⟩ := List.mem_map.mp (hleft.subset List.mem_cons_self)
    obtain ⟨⟨names, rfl⟩, hdir⟩ := (hlisted place).mp hplace
    exact hstep src destination names hmem (ht.isName (by rw [hdir]; simp)) hne hdst
  · exact fun tx htx => absurd ⟨tx.moment.tree, hI _ htx.1.1, htx.1.2⟩ hdirs

theorem removeAllEmptied_sound {sources : List SourceDir} (hsources : ∀ source ∈ sources, source.Straight) :
    Runs (At (σ := σ) C (Sound t₀ G)) (removeAllEmptied sources) (fun _ => At C (Sound t₀ G))
      (fun tx => Sound t₀ G tx.moment) :=
  removeAllEmptied_keeps (fun _ hm => hm.wellFormed) hsources fun _ _ _ _ hsrc hne hdst =>
    removeEmptied_sound hsrc hne hdst

/-- Wherever the writing stops, its records account for all that it changed. -/
theorem writeAll_sound {plan : Plan} (h : plan.edit.Admitted t₀ G) (ht₀ : t₀.WellFormed) (snapshots : Snapshots)
    {sources : List SourceDir} (hsources : ∀ source ∈ sources, source.Straight) (heeds : Bool) :
    Runs (At (σ := σ) C (· = .start t₀ heeds)) (writeAll plan snapshots sources)
      (fun _ => At C (Sound t₀ G)) (fun tx => Sound t₀ G tx.moment) := by
  have hstanding : Standing plan.edit.operations (.start t₀ heeds) := fun a b o hab => h.sources _ hab a rfl
  have hwhole : ∀ m, Whole t₀ G m → Sound t₀ G m := fun _ hm => hm.1
  unfold writeAll
  refine Runs.bind (Q := fun _ => At C fun m => Whole t₀ G m ∧ Standing plan.edit.operations m) ?_ fun _ => ?_
  · refine (Runs.forM (I := fun _ => At C fun m => Whole t₀ G m ∧ Standing plan.edit.operations m) _
      fun change rest hsuffix => ?_).conseq ?_ (fun _ _ h => h) fun _ h => h
    · exact writeEdits_whole h plan snapshots (hsuffix.subset List.mem_cons_self) _
    · rintro tx ⟨htx, hcalm⟩
      refine ⟨?_, hcalm⟩
      rw [htx]
      exact ⟨Whole.start ht₀ heeds, hstanding⟩
  refine Runs.bind (Q := fun _ => At C (Whole t₀ G)) ?_ fun _ => ?_
  · refine (Runs.forM (I := fun ops => At C fun m => Whole t₀ G m ∧ Standing ops m) _
      fun op rest hsuffix => ?_).conseq (fun _ h => h) (fun _ _ h => ⟨h.1.1, h.2⟩) fun _ h => h
    have hskip : ∀ m, Standing (op :: rest) m → Standing rest m := fun m hm a b o hab =>
      hm a b o (List.mem_cons_of_mem _ hab)
    cases op with
    | move a b o => exact writeMove_whole h hsuffix
    | create p content o => exact Runs.pure _ fun tx htx => ⟨⟨htx.1.1, hskip _ htx.1.2⟩, htx.2⟩
    | delete p => exact Runs.pure _ fun tx htx => ⟨⟨htx.1.1, hskip _ htx.1.2⟩, htx.2⟩
  refine Runs.bind (Q := fun _ => At C (Whole t₀ G)) ?_ fun _ => ?_
  · refine Runs.forM (I := fun _ => At C (Whole t₀ G)) _ fun op rest hsuffix => ?_
    cases op with
    | move a b o => exact Runs.pure _ fun _ htx => htx
    | create p content o => exact writeCreate_whole h (hsuffix.subset List.mem_cons_self)
    | delete p => exact Runs.pure _ fun _ htx => htx
  refine Runs.bind (Q := fun _ => At C (Whole t₀ G)) ?_ fun _ => ?_
  · refine Runs.forM (I := fun _ => At C (Whole t₀ G)) _ fun op rest hsuffix => ?_
    cases op with
    | move a b o => exact Runs.pure _ fun _ htx => htx
    | create p content o => exact Runs.pure _ fun _ htx => htx
    | delete p => exact writeDelete_whole h (hsuffix.subset List.mem_cons_self)
  refine Runs.bind (Q := fun _ => At C (Sound t₀ G)) ?_ fun _ => ?_
  · exact (removeAllEmptied_sound hsources).conseq (fun _ htx => ⟨hwhole _ htx.1, htx.2⟩) (fun _ _ h => h) fun _ h => h
  · exact heedCancel_runs fun _ hm _ => hm

end Transaction

end Refactor
