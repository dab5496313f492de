import Refactor.Proofs.Disk.Changes

/-!
# The ledger of a writing

While an apply writes, it keeps a ledger: the places it changed files at, the directories it made and those it
removed. A ledger accounts for everything in which the tree differs from the tree before.

* `Tree.Below` — strictly below a place
* `Accounted` — a ledger that accounts for all differences
* `Accounted.set`, `Accounted.make`, `Accounted.unmake` — changes that it goes on to account for
-/

namespace Refactor

def Tree.Below (p q : Place) : Prop := p <+: q ∧ q ≠ p

open Tree (Below)

theorem Tree.below_append {p rest : Place} (h : rest ≠ []) : Below p (p ++ rest) :=
  ⟨List.prefix_append _ _, by simpa using h⟩

/-- Files differ at logged places only, directories that are gone were removed, new ones were made. The directories
above a made one were there or were made before it, and so were those between it and another one made earlier. -/
structure Accounted (t₀ : Tree) (view : Place → Option Entry) (logged made unmade : List Place) : Prop where
  files : ∀ q, q ∉ logged → ∀ b, view q = some (.file b) ↔ t₀.get? q = some (.file b)
  kept : ∀ q, t₀.get? q = some .dir → view q = some .dir ∨ q ∈ unmade
  fresh : ∀ q, view q = some .dir → t₀.get? q = some .dir ∨ q ∈ made
  unmade_clear : ∀ d ∈ unmade, ∀ q, q <+: d → (∀ b, view q ≠ some (.file b)) ∧ (t₀.get? q = some .dir ∨ q ∈ made)
  made_stands : ∀ c ∈ made, view c = some .dir ∨ c ∈ unmade
  made_above : ∀ before c after, made = before ++ c :: after → ∀ q, Below q c → t₀.get? q = some .dir ∨ q ∈ before
  made_below : ∀ before c after, made = before ++ c :: after → ∀ q, Below c q → view q = some .dir → q ∈ after
  made_between : ∀ before c after, made = before ++ c :: after → ∀ front d rest, after = front ++ d :: rest →
    ∀ q, Below c q → Below q d → q ∈ front

namespace Accounted

variable {t₀ : Tree} {view view' : Place → Option Entry} {logged made unmade : List Place}

theorem start (t₀ : Tree) : Accounted t₀ t₀.get? [] [] [] where
  files _ _ _ := Iff.rfl
  kept _ h := Or.inl h
  fresh _ h := Or.inl h
  unmade_clear _ h := by simp at h
  made_stands _ h := by simp at h
  made_above _ _ _ h := by simp at h
  made_below _ _ _ h := by simp at h
  made_between _ _ _ h := by simp at h

theorem log (h : Accounted t₀ view logged made unmade) {logged' : List Place} (hsub : logged ⊆ logged') :
    Accounted t₀ view logged' made unmade :=
  { h with files := fun q hq => h.files q fun hmem => hq (hsub hmem) }

/-- A file is put at a logged place, or taken from one. -/
theorem set (h : Accounted t₀ view logged made unmade) {p : Place} {entry : Option Entry} (hp : p ∈ logged)
    (hentry : entry ≠ some .dir) (hdir : view p ≠ some .dir)
    (hclear : ∀ d ∈ unmade, p <+: d → ∀ b, entry ≠ some (.file b))
    (hview : ∀ q, view' q = if q = p then entry else view q) : Accounted t₀ view' logged made unmade := by
  have hdirs : ∀ q, view' q = some .dir ↔ view q = some .dir := by
    intro q
    rw [hview]
    split_ifs with hq
    · subst hq
      simp [hentry, hdir]
    · rfl
  refine ⟨fun q hq b => ?_, fun q hq => ?_, fun q hq => ?_, fun d hd q hq => ⟨fun b => ?_, ?_⟩, fun c hc => ?_,
    h.made_above, fun before c after heq q hq hqdir => ?_, h.made_between⟩
  · have hne : q ≠ p := fun heq => hq (heq ▸ hp)
    rw [hview, if_neg hne]
    exact h.files q hq b
  · rw [hdirs]
    exact h.kept q hq
  · exact h.fresh q ((hdirs q).mp hq)
  · rw [hview]
    split_ifs with hqp
    · exact hclear d hd (hqp ▸ hq) b
    · exact (h.unmade_clear d hd q hq).1 b
  · exact (h.unmade_clear d hd q hq).2
  · rw [hdirs]
    exact h.made_stands c hc
  · exact h.made_below before c after heq q hq ((hdirs q).mp hqdir)

theorem split_concat {α : Type} {l before after : List α} {x c : α} (h : l ++ [x] = before ++ c :: after) :
    (after = [] ∧ before = l ∧ c = x) ∨ ∃ after', after = after' ++ [x] ∧ l = before ++ c :: after' := by
  cases after using List.reverseRecOn with
  | nil =>
    obtain ⟨hl, hx⟩ := List.append_inj' h rfl
    exact Or.inl ⟨rfl, hl.symm, by simpa using hx.symm⟩
  | append_singleton after' y =>
    rw [← List.cons_append, ← List.append_assoc] at h
    obtain ⟨hl, hx⟩ := List.append_inj' h rfl
    obtain rfl : x = y := by simpa using hx
    exact Or.inr ⟨after', rfl, hl⟩

/-- A directory is made in a directory. -/
theorem make (h : Accounted t₀ view logged made unmade) {p : Place} (hfree : ∀ q, p <+: q → view q = none)
    (habove : ∀ q, Below q p → view q = some .dir) (hview : ∀ q, view' q = if q = p then some .dir else view q) :
    Accounted t₀ view' logged (made ++ [p]) unmade := by
  have hp : view p = none := hfree p List.prefix_rfl
  have hfiles : ∀ q b, view' q = some (.file b) ↔ view q = some (.file b) := by
    intro q b
    rw [hview]
    split_ifs with hq
    · simp [hq, hp]
    · rfl
  have hdirs : ∀ q, view' q = some .dir → q = p ∨ view q = some .dir := by
    intro q hq
    rw [hview] at hq
    split_ifs at hq with hqp
    · exact Or.inl hqp
    · exact Or.inr hq
  have hstays : ∀ q, view q = some .dir → view' q = some .dir := by
    intro q hq
    rw [hview]
    split_ifs
    · rfl
    · exact hq
  refine ⟨fun q hq b => ?_, fun q hq => ?_, fun q hq => ?_, fun d hd q hq => ⟨fun b => ?_, ?_⟩, fun c hc => ?_,
    fun before c after heq q hq => ?_, fun before c after heq q hq hqdir => ?_,
    fun before c after heq front d rest hafter q hcq hqd => ?_⟩
  · rw [hfiles]
    exact h.files q hq b
  · exact (h.kept q hq).imp_left (hstays q)
  · rcases hdirs q hq with rfl | hq
    · exact Or.inr (by simp)
    · exact (h.fresh q hq).imp_right (List.mem_append_left _)
  · rw [ne_eq, hfiles]
    exact (h.unmade_clear d hd q hq).1 b
  · exact (h.unmade_clear d hd q hq).2.imp_right (List.mem_append_left _)
  · rcases List.mem_append.mp hc with hc | hc
    · exact (h.made_stands c hc).imp_left (hstays c)
    · rw [List.mem_singleton.mp hc, hview, if_pos rfl]
      exact Or.inl rfl
  · rcases split_concat heq with ⟨_, rfl, rfl⟩ | ⟨after', _, heq⟩
    · exact h.fresh q (habove q hq)
    · exact h.made_above before c after' heq q hq
  · rcases split_concat heq with ⟨_, _, rfl⟩ | ⟨after', rfl, hmade⟩
    · rw [hview, if_neg hq.2, hfree q hq.1] at hqdir
      cases hqdir
    · rcases hdirs q hqdir with rfl | hqdir
      · simp
      · exact List.mem_append_left _ (h.made_below before c after' hmade q hq hqdir)
  · rcases split_concat heq with ⟨rfl, _, _⟩ | ⟨after', rfl, hmade⟩
    · simp at hafter
    · rcases split_concat hafter with ⟨_, rfl, rfl⟩ | ⟨rest', _, hafter⟩
      · exact h.made_below before c front hmade q hcq (habove q hqd)
      · exact h.made_between before c after' hmade front d rest' hafter q hcq hqd

/-- An empty directory is removed. -/
theorem unmake (h : Accounted t₀ view logged made unmade) {p : Place} (hp : view p = some .dir)
    (habove : ∀ q, Below q p → view q = some .dir) (hview : ∀ q, view' q = if q = p then none else view q) :
    Accounted t₀ view' logged made (unmade ++ [p]) := by
  have hfiles : ∀ q b, view' q = some (.file b) ↔ view q = some (.file b) := by
    intro q b
    rw [hview]
    split_ifs with hq
    · simp [hq, hp]
    · rfl
  have hdirs : ∀ q, view' q = some .dir → view q = some .dir := by
    intro q hq
    rw [hview] at hq
    split_ifs at hq
    exact hq
  have hstays : ∀ q, view q = some .dir → view' q = some .dir ∨ q = p := by
    intro q hq
    rw [hview]
    split_ifs with hqp
    · exact Or.inr hqp
    · exact Or.inl hq
  refine ⟨fun q hq b => ?_, fun q hq => ?_, fun q hq => h.fresh q (hdirs q hq), fun d hd q hq => ?_, fun c hc => ?_,
    h.made_above, fun before c after heq q hq hqdir => h.made_below before c after heq q hq (hdirs q hqdir),
    h.made_between⟩
  · rw [hfiles]
    exact h.files q hq b
  · rcases h.kept q hq with hq | hq
    · rcases hstays q hq with hq | rfl
      · exact Or.inl hq
      · exact Or.inr (by simp)
    · exact Or.inr (List.mem_append_left _ hq)
  · simp only [ne_eq, hfiles]
    rcases List.mem_append.mp hd with hd | hd
    · exact h.unmade_clear d hd q hq
    · rw [List.mem_singleton.mp hd] at hq
      have hqdir : view q = some .dir := by
        by_cases hqp : q = p
        · rw [hqp, hp]
        · exact habove q ⟨hq, Ne.symm hqp⟩
      exact ⟨fun b hfile => (by rw [hqdir] at hfile; cases hfile), h.fresh q hqdir⟩
  · rcases h.made_stands c hc with hc | hc
    · rcases hstays c hc with hc | rfl
      · exact Or.inl hc
      · exact Or.inr (by simp)
    · exact Or.inr (List.mem_append_left _ hc)

end Accounted

/-! ## Directories on the way to a place -/

/-- The places below `d` on the way down `rest`, outermost first. -/
def chain (d : Place) : List String → List Place
  | [] => []
  | s :: rest => (d ++ [s]) :: chain (d ++ [s]) rest

theorem chain_concat (s : String) : ∀ (d : Place) (rest : List String),
    chain d (rest ++ [s]) = chain d rest ++ [d ++ rest ++ [s]]
  | d, [] => by simp [chain]
  | d, r :: rest => by simp [chain, chain_concat s (d ++ [r]) rest]

theorem mem_chain {q : Place} : ∀ {rest : List String} {d : Place}, q ∈ chain d rest ↔ Below d q ∧ q <+: d ++ rest
  | [], d => by
    simp only [chain, List.not_mem_nil, List.append_nil, false_iff, not_and]
    exact fun hbelow hlead => hbelow.2 (hlead.eq_of_length_le hbelow.1.length_le)
  | s :: rest, d => by
    rw [chain, List.mem_cons, mem_chain]
    constructor
    · rintro (rfl | ⟨⟨hbelow, _⟩, hlead⟩)
      · exact ⟨Tree.below_append (by simp), ⟨rest, by simp⟩⟩
      · have hlt := hbelow.length_le
        refine ⟨⟨(List.prefix_append _ _).trans hbelow, ?_⟩, by simpa using hlead⟩
        rintro rfl
        simp at hlt
    · rintro ⟨⟨⟨more, rfl⟩, hne⟩, hlead⟩
      rw [List.prefix_append_right_inj] at hlead
      cases more with
      | nil => simp at hne
      | cons r more =>
        obtain ⟨rfl, htail⟩ := List.cons_prefix_cons.mp hlead
        cases more with
        | nil => exact Or.inl rfl
        | cons m more =>
          refine Or.inr ⟨?_, ?_⟩
          · have := @Tree.below_append (d ++ [r]) (m :: more) (by simp)
            simpa using this
          · obtain ⟨tail, htail⟩ := htail
            exact ⟨tail, by simp [← htail]⟩

/-- Directories are made one inside the other. -/
theorem Accounted.grow {t₀ : Tree} {logged unmade : List Place} : ∀ (rest : List String) {d : Place}
    {view : Place → Option Entry} {made : List Place}, Accounted t₀ view logged made unmade →
    (∀ q, q <+: d → view q = some .dir) → (∀ s ∈ rest.head?, ∀ q, d ++ [s] <+: q → view q = none) →
    Accounted t₀ (fun q => if q <+: d ++ rest then some .dir else view q) logged (made ++ chain d rest) unmade
  | [], d, view, made, h, hdirs, _ => by
    have hsame : (fun q => if q <+: d ++ [] then some .dir else view q) = view := by
      funext q
      rw [List.append_nil]
      split_ifs with hq
      · exact (hdirs q hq).symm
      · rfl
    rw [hsame, chain, List.append_nil]
    exact h
  | s :: rest, d, view, made, h, hdirs, hfree => by
    have habove : ∀ q, Below q (d ++ [s]) → view q = some .dir := by
      intro q hq
      rcases List.prefix_concat_iff.mp hq.1 with heq | hlead
      · exact absurd heq.symm hq.2
      · exact hdirs q hlead
    have hmade := h.make (hfree s rfl) habove fun q => rfl
    have hdirs' : ∀ q, q <+: d ++ [s] → (if q = d ++ [s] then some Entry.dir else view q) = some .dir := by
      intro q hq
      split_ifs with hqs
      · rfl
      · exact habove q ⟨hq, Ne.symm hqs⟩
    have hfree' : ∀ r ∈ rest.head?, ∀ q, d ++ [s] ++ [r] <+: q →
        (if q = d ++ [s] then some Entry.dir else view q) = none := by
      intro r _ q hq
      rw [if_neg]
      · exact hfree s rfl q ((List.prefix_append _ _).trans hq)
      · rintro rfl
        exact absurd hq.length_le (by simp)
    have hgrown := Accounted.grow rest hmade hdirs' hfree'
    have hsame : (fun q => if q <+: d ++ [s] ++ rest then some Entry.dir
        else if q = d ++ [s] then some Entry.dir else view q) =
        fun q => if q <+: d ++ s :: rest then some Entry.dir else view q := by
      funext q
      rw [List.append_assoc, List.singleton_append]
      by_cases hq : q <+: d ++ s :: rest
      · rw [if_pos hq, if_pos hq]
      · rw [if_neg hq, if_neg hq, if_neg]
        rintro rfl
        exact hq ⟨rest, by simp⟩
    rw [hsame, List.append_assoc] at hgrown
    exact hgrown

end Refactor
