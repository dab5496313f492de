import Refactor.Proofs.Apply.Moment

/-!
# Steps of the writing

What every step of the writing does to the tree and the records, whether it ends well or not.

* `Path.Straight` — the path of a place below the top
* `Transaction.writeEdits_runs`, `Transaction.writeMove_runs`, `Transaction.writeCreate_runs`,
  `Transaction.writeDelete_runs` — a change is logged, then made
* `Transaction.removeEmptied_runs` — an empty directory goes, and comes back at its counterpart
-/

set_option linter.unusedSectionVars false

namespace Refactor

open Tree (pathOf placeOf slashOf)
open Path (IsName)

/-- The path of a place below the top. -/
def Path.Straight (p : Path) : Prop := ∃ place, (∀ s ∈ place, IsName s) ∧ place ≠ [] ∧ p = pathOf place

def SourceDir.Straight (source : SourceDir) : Prop :=
  source.path.Straight ∧ ∀ d ∈ source.destination, d.Straight

theorem SourceDir.Straight.places {source : SourceDir} (h : source.Straight) :
    ∃ (src : Place) (destination : Option Place), source = ⟨pathOf src, destination.map pathOf⟩ ∧
      (∀ s ∈ src, IsName s) ∧ src ≠ [] ∧ ∀ d ∈ destination, (∀ s ∈ d, IsName s) ∧ d ≠ [] := by
  obtain ⟨p, destination⟩ := source
  obtain ⟨⟨src, hsrc, hne, rfl⟩, hdst⟩ := h
  cases destination with
  | none => exact ⟨src, none, rfl, hsrc, hne, by simp⟩
  | some d =>
    obtain ⟨dst, hnames, hdne, rfl⟩ := hdst d rfl
    refine ⟨src, some dst, rfl, hsrc, hne, fun d hd => ?_⟩
    obtain rfl := Option.some.inj hd
    exact ⟨hnames, hdne⟩

variable {σ : Type} [TreeBacked σ]

namespace Transaction

variable {C : Prop} {P E : Moment → Prop}

/-! ## Logged changes -/

/-- Between a moment and the one after it, a change was logged and made. -/
structure Logged (w : Written) (change : Tree → Except SystemFault Tree) (m m' : Moment) : Prop where
  tree : change m.tree = .ok m'.tree
  moment : m' = (m.record w).over m'.tree

/-- A change that fails was logged all the same. -/
theorem logged_runs {f : StateM σ (Except DiskError Unit)} {change : Tree → Except SystemFault Tree} (w : Written)
    (p : Path) (hf : ∀ s, Acts TreeBacked.tree TreeBacked.steady change s (f.run s)) (g : ApplyResult → ApplyResult)
    (hE : ∀ m, P m → (C → ∃ fault, change m.tree = .error fault) → E (m.record w)) :
    Runs (At C P) (do record w; perform p f; note g) (fun _ => At C fun m' => ∃ m, P m ∧ Logged w change m m')
      (fun tx => E tx.moment) := by
  refine (record_runs w).bind fun _ => ?_
  have hE' : ∀ m', (∃ m, P m ∧ m' = m.record w) → (C → ∃ fault, change m'.tree = .error fault) → E m' := by
    rintro _ ⟨m, hm, rfl⟩ hfault
    exact hE m hm hfault
  refine (perform_runs (P := fun m' => ∃ m, P m ∧ m' = m.record w) p hf hE').bind fun _ => ?_
  refine (note_runs (P := fun m' => ∃ m, P m ∧ Logged w change m m') g).conseq ?_ (fun _ _ h => h) fun _ h => h
  rintro tx ⟨⟨_, t, ⟨m, hm, rfl⟩, hchange, htx⟩, hcalm⟩
  have htree : tx.moment.tree = t := by rw [htx]; rfl
  exact ⟨⟨m, hm, htree ▸ hchange, htree ▸ htx⟩, hcalm⟩

/-- The text of a file after its edits, which follows from its snapshot. -/
def Edits (snapshots : Snapshots) (p : Path) (es : List TextEdit) (out : String) : Prop :=
  ∃ bytes text, snapshots.find? p = some (.content bytes) ∧ Bytes.text? bytes = some text ∧
    TextEdit.applyAll p.raw text es = .ok out

/-- Text edits fail when they do not fit, or when the file cannot be written. -/
theorem writeEdits_runs (plan : Plan) (snapshots : Snapshots) (p : Path) (es : List TextEdit)
    (hE : ∀ m, P m → (m.heeds = false → ∀ out, ¬Edits snapshots p es out) → E m)
    (hlog : es ≠ [] → ∀ m, P m → (C → ∃ out fault, m.tree.write p (Bytes.ofText out) = .error fault) →
      E (m.record (.path p))) :
    Runs (At (σ := σ) C P) (writeEdits plan snapshots p es)
      (fun _ => At C fun m' => (es = [] ∧ P m') ∨ es ≠ [] ∧ ∃ m out, P m ∧ Edits snapshots p es out ∧
        Logged (.path p) (·.write p (Bytes.ofText out)) m m')
      (fun tx => E tx.moment) := by
  unfold writeEdits
  by_cases hes : es = []
  · rw [hes]
    exact Runs.pure _ fun _ htx => ⟨Or.inl ⟨rfl, htx.1⟩, htx.2⟩
  have hempty : es.isEmpty = false := by simpa using hes
  rw [hempty, if_neg (by simp)]
  refine (heedCancel_runs fun m hm hheeds => hE m hm fun h => by rw [hheeds] at h; cases h).bind fun _ => ?_
  cases hfind : snapshots.find? p with
  | none =>
    refine Runs.throwBind _ fun _ htx => hE _ htx.1 ?_
    rintro _ _ ⟨_, _, hfound, _⟩
    rw [hfind] at hfound
    cases hfound
  | some state =>
    cases state with
    | absent =>
      refine Runs.throwBind _ fun _ htx => hE _ htx.1 ?_
      rintro _ _ ⟨_, _, hfound, _⟩
      rw [hfind] at hfound
      cases hfound
    | content bytes =>
      dsimp only
      have hfits : ∀ {before out}, Edits snapshots p es out → Bytes.text? bytes = before →
          ∃ text, before = some text ∧ TextEdit.applyAll p.raw text es = .ok out := by
        rintro before out ⟨_, text, hfound, htext, hout⟩ rfl
        rw [hfind] at hfound
        cases hfound
        exact ⟨text, htext, hout⟩
      cases htext : Bytes.text? bytes with
      | none =>
        refine Runs.throwBind _ fun _ htx => hE _ htx.1 fun _ out hedits => ?_
        obtain ⟨_, hnone, _⟩ := hfits hedits htext
        cases hnone
      | some before =>
        dsimp only
        rw [pure_bind]
        cases hout : TextEdit.applyAll p.raw before es with
        | error e =>
          refine fun tx htx => hE _ htx.1 fun _ out hedits => ?_
          obtain ⟨_, hsome, hok⟩ := hfits hedits htext
          cases hsome
          rw [hout] at hok
          cases hok
        | ok out =>
          refine (logged_runs (.path p) p (TreeBacked.write_acts p (Bytes.ofText out)) _ fun m hm hfault =>
            hlog hes m hm fun h => ⟨out, hfault h⟩).conseq (fun _ h => h) ?_ fun _ h => h
          rintro _ tx ⟨⟨m, hm, hlogged⟩, hcalm⟩
          exact ⟨Or.inr ⟨hes, m, out, hm, ⟨bytes, before, hfind, htext, hout⟩, hlogged⟩, hcalm⟩

/-! ## Moves, creations and deletions -/

theorem ensureParent_runs (hP : ∀ m, P m → m.tree.WellFormed) {d : Place} {s : String}
    (hnames : ∀ n ∈ d ++ [s], IsName n) (hE : ∀ m, P m → (C → ¬m.tree.Clear d) → E m) :
    Runs (At (σ := σ) C P) (ensureParent (pathOf (d ++ [s]))) (fun _ => At C fun m' => ∃ m, P m ∧ Ensured m d m')
      (fun tx => E tx.moment) := by
  unfold ensureParent
  rw [Path.parent?_pathOf fun n hn => (hnames n hn).1]
  exact ensureDir_runs hP (fun n hn => hnames n (List.mem_append_left _ hn)) fun m hm _ => hE m hm

theorem writeMove_runs (hP : ∀ m, P m → m.tree.WellFormed) (source : Path) {d : Place} {s : String}
    (hnames : ∀ n ∈ d ++ [s], IsName n) (hE : ∀ m, P m → (C → m.heeds = false → ¬m.tree.Clear d) → E m)
    (hlog : ∀ m m', P m → Ensured m d m' → (C → ∃ fault, m'.tree.rename source (pathOf (d ++ [s])) = .error fault) →
      E (m'.record (.move source (pathOf (d ++ [s]))))) :
    Runs (At (σ := σ) C P) (writeMove source (pathOf (d ++ [s])))
      (fun _ => At C fun m' => ∃ m m₁, P m ∧ Ensured m d m₁ ∧
        Logged (.move source (pathOf (d ++ [s]))) (·.rename source (pathOf (d ++ [s]))) m₁ m')
      (fun tx => E tx.moment) := by
  unfold writeMove
  refine (heedCancel_runs fun m hm hheeds => hE m hm fun _ h => by rw [hheeds] at h; cases h).bind fun _ => ?_
  refine (ensureParent_runs hP hnames fun m hm hclear => hE m hm fun h _ => hclear h).bind fun _ => ?_
  refine (logged_runs _ _ (TreeBacked.rename_acts _ _) _ ?_).conseq (fun _ h => h) ?_ fun _ h => h
  · rintro m' ⟨m, hm, hensured⟩ hfault
    exact hlog m m' hm hensured hfault
  · rintro _ tx ⟨⟨m₁, ⟨m, hm, hensured⟩, hlogged⟩, hcalm⟩
    exact ⟨⟨m, m₁, hm, hensured, hlogged⟩, hcalm⟩

theorem writeCreate_runs (hP : ∀ m, P m → m.tree.WellFormed) (content : String) {d : Place} {s : String}
    (hnames : ∀ n ∈ d ++ [s], IsName n) (hE : ∀ m, P m → (C → m.heeds = false → ¬m.tree.Clear d) → E m)
    (hlog : ∀ m m', P m → Ensured m d m' →
      (C → ∃ fault, m'.tree.write (pathOf (d ++ [s])) (Bytes.ofText content) = .error fault) →
      E (m'.record (.path (pathOf (d ++ [s]))))) :
    Runs (At (σ := σ) C P) (writeCreate (pathOf (d ++ [s])) content)
      (fun _ => At C fun m' => ∃ m m₁, P m ∧ Ensured m d m₁ ∧
        Logged (.path (pathOf (d ++ [s]))) (·.write (pathOf (d ++ [s])) (Bytes.ofText content)) m₁ m')
      (fun tx => E tx.moment) := by
  unfold writeCreate
  refine (heedCancel_runs fun m hm hheeds => hE m hm fun _ h => by rw [hheeds] at h; cases h).bind fun _ => ?_
  refine (ensureParent_runs hP hnames fun m hm hclear => hE m hm fun h _ => hclear h).bind fun _ => ?_
  refine (logged_runs _ _ (TreeBacked.write_acts _ _) _ ?_).conseq (fun _ h => h) ?_ fun _ h => h
  · rintro m' ⟨m, hm, hensured⟩ hfault
    exact hlog m m' hm hensured hfault
  · rintro _ tx ⟨⟨m₁, ⟨m, hm, hensured⟩, hlogged⟩, hcalm⟩
    exact ⟨⟨m, m₁, hm, hensured, hlogged⟩, hcalm⟩

theorem writeDelete_runs (p : Path) (hE : ∀ m, P m → m.heeds = true → E m)
    (hlog : ∀ m, P m → (C → ∃ fault, m.tree.removeFile p = .error fault) → E (m.record (.path p))) :
    Runs (At (σ := σ) C P) (writeDelete p)
      (fun _ => At C fun m' => ∃ m, P m ∧ Logged (.path p) (·.removeFile p) m m') (fun tx => E tx.moment) := by
  unfold writeDelete
  refine (heedCancel_runs hE).bind fun _ => ?_
  exact logged_runs _ _ (TreeBacked.removeFile_acts _) _ hlog

/-! ## Emptied directories -/

def Moment.without (m : Moment) (dir : Path) (t : Tree) : Moment :=
  { m with tree := t, removedDirs := m.removedDirs ++ [dir] }

/-- A removed part of a moved directory stands at its counterpart. -/
def Carried (destination : Option Place) (names : List String) (m m' : Moment) : Prop :=
  match destination with
  | none => m' = m
  | some d => Ensured m (d ++ names) m'

/-- A directory stays, since it is not empty, or it goes and its counterpart is there. -/
def Emptied (calm : Prop) (P : Moment → Prop) (destination : Option Place) (dir : Place) (names : List String)
    (m' : Moment) : Prop :=
  (P m' ∧ (calm → ∃ fault, m'.tree.removeDir (pathOf dir) = .error fault)) ∨
    ∃ m t, P m ∧ m.tree.removeDir (pathOf dir) = .ok t ∧ Carried destination names (m.without (pathOf dir) t) m'

theorem removeEmptied_runs (hP : ∀ m, P m → m.tree.WellFormed) {src names : Place} {destination : Option Place}
    (hsrc : ∀ s ∈ src ++ names, IsName s) (hne : src ≠ [])
    (hdst : ∀ d ∈ destination, (∀ s ∈ d, IsName s) ∧ d ≠ [])
    (hE : ∀ m t, P m → m.tree.removeDir (pathOf (src ++ names)) = .ok t → (∃ d ∈ destination,
      (names = [] → t.get? d ≠ some .dir) ∧ (names ≠ [] → t.get? (d ++ names) = none ∧ (C → ¬t.Clear (d ++ names)))) →
      E (m.without (pathOf (src ++ names)) t)) :
    Runs (At (σ := σ) C P) (removeEmptied ⟨pathOf src, destination.map pathOf⟩ (pathOf (src ++ names)))
      (fun _ => At C (Emptied C P destination (src ++ names) names)) (fun tx => E tx.moment) := by
  have hseg : ∀ s ∈ src, Path.IsSegment s := fun s hs => (hsrc s (List.mem_append_left _ hs)).1
  have hnames : ∀ s ∈ names, IsName s := fun s hs => hsrc s (List.mem_append_right _ hs)
  unfold removeEmptied
  refine (try_runs (TreeBacked.removeDir_acts _)).bind fun r => ?_
  cases r with
  | error e => exact Runs.pure _ fun tx htx => ⟨Or.inl htx.1, htx.2⟩
  | ok _ =>
    let Q : Moment → Prop := fun m' => ∃ m t, P m ∧ m.tree.removeDir (pathOf (src ++ names)) = .ok t ∧
      m' = m.without (pathOf (src ++ names)) t
    have hQ : ∀ m', Q m' → m'.tree.WellFormed := by
      rintro _ ⟨m, t, hm, ht, rfl⟩
      exact (Tree.removeDir_ok (hP m hm) hsrc (by simp [hne]) ht).2.2.wellFormed
    refine Runs.bind (Q := fun _ => At C Q) ?_ fun _ => ?_
    · rintro tx ⟨⟨m, t, hm, ht, htx⟩, hcalm⟩
      refine ⟨⟨m, t, hm, ht, ?_⟩, hcalm⟩
      show { tx.moment with removedDirs := tx.moment.removedDirs ++ [pathOf (src ++ names)] } = _
      rw [htx]
      rfl
    have hcarried : ∀ m', Q m' → ∀ m'', Carried destination names m' m'' →
        Emptied C P destination (src ++ names) names m'' := by
      rintro _ ⟨m, t, hm, ht, rfl⟩ m'' hm''
      exact Or.inr ⟨m, t, hm, ht, hm''⟩
    cases destination with
    | none => exact Runs.pure _ fun tx htx => ⟨hcarried _ htx.1 _ rfl, htx.2⟩
    | some d =>
      obtain ⟨hd, hdne⟩ := hdst d rfl
      have hdseg : ∀ s ∈ d, Path.IsSegment s := fun s hs => (hd s hs).1
      dsimp only [Option.map_some]
      rw [Path.stripLead?_pathOf hseg fun s hs => (hnames s hs).1]
      dsimp only
      by_cases hnil : names = []
      · -- the directory itself: its counterpart is asked for with a slash at the end
        subst hnil
        show Runs (At C Q) (ensureDir ((pathOf d).join ⟨""⟩)) _ _
        rw [Path.join_empty hdseg hdne]
        refine (ensureDir_slash_runs hQ hd hdne ?_).conseq (fun _ h => h) ?_ fun _ h => h
        · rintro _ ⟨m, t, hm, ht, rfl⟩ hdir
          exact hE m t hm ht ⟨d, rfl, fun _ => hdir, fun hne => absurd rfl hne⟩
        rintro _ tx ⟨⟨htx, hdir⟩, hcalm⟩
        refine ⟨hcarried _ htx _ (Ensured.there ?_), hcalm⟩
        rw [List.append_nil, hdir]
        simp
      · rw [Path.join_relative hdseg (fun s hs => (hnames s hs).1) hnil]
        have hall : ∀ s ∈ d ++ names, IsName s := by
          intro s hs
          rcases List.mem_append.mp hs with hs | hs
          · exact hd s hs
          · exact hnames s hs
        refine (ensureDir_runs hQ hall ?_).conseq (fun _ h => h) ?_ fun _ h => h
        · rintro _ ⟨m, t, hm, ht, rfl⟩ hfree hclear
          exact hE m t hm ht ⟨d, rfl, fun hnil' => absurd hnil' hnil, fun _ => ⟨hfree, hclear⟩⟩
        rintro _ tx ⟨⟨m', hm', hensured⟩, hcalm⟩
        exact ⟨hcarried m' hm' _ hensured, hcalm⟩

end Transaction

end Refactor
