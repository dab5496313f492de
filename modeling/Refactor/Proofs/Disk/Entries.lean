import Mathlib.Data.List.Lex
import Mathlib.Data.List.Sort
import Refactor.Proofs.Path.Segments

/-!
# The entries of a tree

A tree is looked at through the entry at each place. Of the trees that stand for a file system, in which every entry
lies in a directory, none is a link and no entry is listed twice, two with the same entries are equal.

* `Tree.get?_set`, `Tree.get?_erase`, `Tree.children_isEmpty_iff` — entries after a change
* `Tree.Nested` — every entry lies in a directory
* `Tree.WellFormed` — trees of files and directories
* `Tree.WellFormed.ext` — such a tree is what stands at its places
* `Tree.WellFormed.set`, `Tree.WellFormed.erase` — changes that keep it well-formed
* `Tree.fileAt` — the files of a tree
-/

namespace Refactor.Tree

open Path (IsName)

/-! ## Entries after a change -/

@[simp] theorem get?_nil (t : Tree) : t.get? [] = some .dir := rfl

theorem get?_of_ne {p : Place} (t : Tree) (h : p ≠ []) : t.get? p = t.entries.lookup p := by
  cases p with
  | nil => exact absurd rfl h
  | cons s rest => rfl

theorem cmpPlace_lt_iff : ∀ p q : Place, cmpPlace p q = .lt ↔ p < q
  | [], [] => by simp [cmpPlace]
  | [], _ :: _ => by simp [cmpPlace]
  | _ :: _, [] => by simp [cmpPlace]
  | a :: p, b :: q => by
    rw [cmpPlace, Ordering.then_eq_lt, compareOfLessAndEq_eq_lt, Component.compare_eq_iff, cmpPlace_lt_iff p q,
      List.cons_lt_cons_iff]

theorem cmpPlace_eq_iff : ∀ p q : Place, cmpPlace p q = .eq ↔ p = q
  | [], [] => by simp [cmpPlace]
  | [], _ :: _ => by simp [cmpPlace]
  | _ :: _, [] => by simp [cmpPlace]
  | a :: p, b :: q => by
    rw [cmpPlace, Ordering.then_eq_eq, Component.compare_eq_iff, cmpPlace_eq_iff p q, List.cons.injEq]

theorem lookup_cons_if (q r : Place) (f : Entry) (rest : List (Place × Entry)) :
    ((r, f) :: rest).lookup q = if q = r then some f else rest.lookup q := by
  rw [List.lookup_cons]
  by_cases h : q = r
  · simp [h]
  · rw [if_neg h, beq_eq_false_iff_ne.mpr h]

theorem lookup_insertEntry (p q : Place) (e : Entry) (entries : List (Place × Entry)) :
    (insertEntry p e entries).lookup q = if q = p then some e else entries.lookup q := by
  induction entries with
  | nil => rw [insertEntry, lookup_cons_if]
  | cons entry rest ih =>
    obtain ⟨r, f⟩ := entry
    rw [insertEntry]
    split
    · rw [lookup_cons_if]
    · rename_i h
      obtain rfl := (cmpPlace_eq_iff p r).mp h
      rw [lookup_cons_if, lookup_cons_if]
      split_ifs <;> rfl
    · rename_i h
      have hne : p ≠ r := fun hpr => by rw [(cmpPlace_eq_iff p r).mpr hpr] at h; cases h
      rw [lookup_cons_if, lookup_cons_if, ih]
      by_cases hr : q = r
      · rw [if_pos hr, if_pos hr, if_neg (hr ▸ hne.symm)]
      · rw [if_neg hr, if_neg hr]

theorem get?_set {p : Place} (hp : p ≠ []) (t : Tree) (e : Entry) (q : Place) :
    (t.set p e).get? q = if q = p then some e else t.get? q := by
  by_cases hq : q = []
  · subst hq
    simp [Ne.symm hp]
  · rw [get?_of_ne _ hq, get?_of_ne _ hq]
    exact lookup_insertEntry p q e t.entries

theorem lookup_filter_ne (p q : Place) (entries : List (Place × Entry)) :
    (entries.filter (·.1 != p)).lookup q = if q = p then none else entries.lookup q := by
  induction entries with
  | nil => simp
  | cons entry rest ih =>
    obtain ⟨r, f⟩ := entry
    rw [List.filter_cons, lookup_cons_if]
    by_cases hr : r = p
    · subst hr
      simp only [bne_self_eq_false, Bool.false_eq_true, if_false, ih]
      split_ifs <;> rfl
    · rw [if_pos (by simpa using hr), lookup_cons_if, ih]
      by_cases hq : q = r
      · rw [if_pos hq, if_pos hq, if_neg (hq ▸ hr)]
      · rw [if_neg hq, if_neg hq]

theorem get?_erase {p : Place} (hp : p ≠ []) (t : Tree) (q : Place) :
    (t.erase p).get? q = if q = p then none else t.get? q := by
  by_cases hq : q = []
  · subst hq
    simp [Ne.symm hp]
  · rw [get?_of_ne _ hq, get?_of_ne _ hq]
    exact lookup_filter_ne p q t.entries

theorem lookup_isSome_iff {p : Place} {entries : List (Place × Entry)} :
    entries.lookup p ≠ none ↔ ∃ e, (p, e) ∈ entries := by
  induction entries with
  | nil => simp
  | cons entry rest ih =>
    obtain ⟨r, f⟩ := entry
    rw [List.lookup_cons]
    by_cases h : p = r
    · subst h
      simp
    · have hbeq : (p == r) = false := by simpa using h
      rw [hbeq]
      simp [ih, h]

theorem get?_ne_none_iff {p : Place} (hp : p ≠ []) {t : Tree} : t.get? p ≠ none ↔ ∃ e, (p, e) ∈ t.entries := by
  rw [get?_of_ne _ hp, lookup_isSome_iff]

theorem children_isEmpty_iff (t : Tree) (dir : Place) :
    (t.children dir).isEmpty = true ↔ ∀ s, t.get? (dir ++ [s]) = none := by
  rw [List.isEmpty_iff, children, List.filterMap_eq_nil_iff]
  constructor
  · intro h s
    by_contra hs
    obtain ⟨e, he⟩ := (get?_ne_none_iff (by simp)).mp hs
    have hchild := h _ he
    simp at hchild
  · intro h entry hentry
    obtain ⟨p, e⟩ := entry
    cases p using List.reverseRecOn with
    | nil => rfl
    | append_singleton p s =>
      simp only [List.getLast?_append, List.getLast?_singleton, Option.some_or, List.dropLast_concat]
      split
      · rename_i hp
        rw [beq_iff_eq] at hp
        subst hp
        exact absurd (h s) ((get?_ne_none_iff (by simp)).mpr ⟨e, hentry⟩)
      · rfl

/-! ## Nested entries -/

/-- Every entry stands at proper names. -/
def Named (t : Tree) : Prop := ∀ p e, (p, e) ∈ t.entries → ∀ s ∈ p, IsName s

/-- Entries are sorted, so that none is listed twice, and each has proper names and lies in a directory. Links may be
among them. -/
structure Nested (t : Tree) : Prop where
  sorted : t.entries.Pairwise (·.1 < ·.1)
  names : ∀ p e, (p, e) ∈ t.entries → p ≠ [] ∧ ∀ s ∈ p, IsName s
  parents : ∀ p s, t.get? (p ++ [s]) ≠ none → t.get? p = some .dir

theorem Named.of_get? {t : Tree} (h : t.Named) {p : Place} (hp : t.get? p ≠ none) : ∀ s ∈ p, IsName s := by
  by_cases hnil : p = []
  · simp [hnil]
  · obtain ⟨e, he⟩ := (get?_ne_none_iff hnil).mp hp
    exact h p e he

theorem lookup_eq_some_iff {p : Place} {e : Entry} {entries : List (Place × Entry)}
    (h : entries.Pairwise (·.1 < ·.1)) : entries.lookup p = some e ↔ (p, e) ∈ entries := by
  induction entries with
  | nil => simp
  | cons first rest ih =>
    obtain ⟨r, f⟩ := first
    obtain ⟨hfirst, hrest⟩ := List.pairwise_cons.mp h
    rw [lookup_cons_if, List.mem_cons, Prod.mk.injEq]
    by_cases hp : p = r
    · subst hp
      have hnot : (p, e) ∉ rest := fun hmem => lt_irrefl p (hfirst _ hmem)
      simp [hnot, eq_comm]
    · simp [hp, ih hrest]

namespace Nested

variable {t : Tree}

theorem named (h : t.Nested) : t.Named := fun p e hp => (h.names p e hp).2

theorem get?_eq_some_iff (h : t.Nested) {p : Place} (hp : p ≠ []) {e : Entry} :
    t.get? p = some e ↔ (p, e) ∈ t.entries := by
  rw [get?_of_ne t hp, lookup_eq_some_iff h.sorted]

theorem dir_of_lt (h : t.Nested) {p : Place} : ∀ (rest : Place), rest ≠ [] → t.get? (p ++ rest) ≠ none →
    t.get? p = some .dir := by
  intro rest
  induction rest using List.reverseRecOn with
  | nil => exact fun hne => absurd rfl hne
  | append_singleton rest s ih =>
    intro _ hsome
    rw [← List.append_assoc] at hsome
    have hdir := h.parents _ _ hsome
    by_cases hrest : rest = []
    · simpa [hrest] using hdir
    · exact ih hrest (by rw [hdir]; simp)

/-- A tree is nested when each of its entries is in order. -/
theorem ofEntries {entries : List (Place × Entry)} (hsorted : entries.Pairwise (·.1 < ·.1))
    (hentries : ∀ entry ∈ entries, (entry.1 ≠ [] ∧ ∀ s ∈ entry.1, IsName s) ∧
      (Tree.mk entries).get? entry.1.dropLast = some .dir) : (Tree.mk entries).Nested where
  sorted := hsorted
  names p e hp := (hentries (p, e) hp).1
  parents p s hp := by
    obtain ⟨e, he⟩ := (get?_ne_none_iff (by simp)).mp hp
    simpa using (hentries _ he).2

end Nested

/-! ## Trees of files and directories -/

def isPlain : Entry → Bool
  | .link _ => false
  | _ => true

/-- Entries are sorted, so that none is listed twice, each has proper names and lies in a directory, and none is a
link. -/
structure WellFormed (t : Tree) : Prop where
  sorted : t.entries.Pairwise (·.1 < ·.1)
  names : ∀ p e, (p, e) ∈ t.entries → p ≠ [] ∧ ∀ s ∈ p, IsName s
  parents : ∀ p s, t.get? (p ++ [s]) ≠ none → t.get? p = some .dir
  noLinks : ∀ p target, t.get? p ≠ some (.link target)

theorem WellFormed.nested {t : Tree} (h : t.WellFormed) : t.Nested := ⟨h.sorted, h.names, h.parents⟩

theorem WellFormed.named {t : Tree} (h : t.WellFormed) : t.Named := h.nested.named

theorem insertEntry_mem {p : Place} {e : Entry} {entry : Place × Entry} {entries : List (Place × Entry)}
    (h : entry ∈ insertEntry p e entries) : entry = (p, e) ∨ entry ∈ entries := by
  induction entries with
  | nil => exact Or.inl (by simpa [insertEntry] using h)
  | cons first rest ih =>
    obtain ⟨r, f⟩ := first
    rw [insertEntry] at h
    split at h
    · exact List.mem_cons.mp h
    · rcases List.mem_cons.mp h with h | h
      · exact Or.inl h
      · exact Or.inr (List.mem_cons_of_mem _ h)
    · rcases List.mem_cons.mp h with rfl | h
      · exact Or.inr (by simp)
      · rcases ih h with h | h
        · exact Or.inl h
        · exact Or.inr (List.mem_cons_of_mem _ h)

theorem insertEntry_sorted (p : Place) (e : Entry) {entries : List (Place × Entry)}
    (h : entries.Pairwise (·.1 < ·.1)) : (insertEntry p e entries).Pairwise (·.1 < ·.1) := by
  induction entries with
  | nil => simp [insertEntry]
  | cons first rest ih =>
    obtain ⟨r, f⟩ := first
    obtain ⟨hfirst, hrest⟩ := List.pairwise_cons.mp h
    rw [insertEntry]
    split
    · rename_i hpr
      rw [cmpPlace_lt_iff] at hpr
      refine List.pairwise_cons.mpr ⟨fun entry hentry => ?_, h⟩
      rcases List.mem_cons.mp hentry with rfl | hentry
      · exact hpr
      · exact hpr.trans (hfirst entry hentry)
    · rename_i hpr
      obtain rfl := (cmpPlace_eq_iff p r).mp hpr
      exact List.pairwise_cons.mpr ⟨hfirst, hrest⟩
    · rename_i hpr
      have hrp : r < p := by
        rcases lt_trichotomy p r with hlt | heq | hlt
        · rw [(cmpPlace_lt_iff p r).mpr hlt] at hpr
          cases hpr
        · rw [(cmpPlace_eq_iff p r).mpr heq] at hpr
          cases hpr
        · exact hlt
      refine List.pairwise_cons.mpr ⟨fun entry hentry => ?_, ih hrest⟩
      rcases insertEntry_mem hentry with rfl | hentry
      · exact hrp
      · exact hfirst entry hentry

theorem eq_of_sorted {l l' : List (Place × Entry)} (h : l.Pairwise (·.1 < ·.1)) (h' : l'.Pairwise (·.1 < ·.1))
    (hmem : ∀ entry, entry ∈ l ↔ entry ∈ l') : l = l' := by
  have hnodup : ∀ {l : List (Place × Entry)}, l.Pairwise (·.1 < ·.1) → l.Nodup := fun hl =>
    hl.imp fun hab hne => by rw [hne] at hab; exact lt_irrefl _ hab
  have hperm : l.Perm l' := (List.perm_ext_iff_of_nodup (hnodup h) (hnodup h')).mpr hmem
  exact hperm.eq_of_pairwise (fun a b _ _ hab hba => absurd (hab.trans hba) (lt_irrefl _)) h h'

namespace WellFormed

variable {t : Tree}

theorem get?_eq_some_iff (h : t.WellFormed) {p : Place} (hp : p ≠ []) {e : Entry} :
    t.get? p = some e ↔ (p, e) ∈ t.entries := h.nested.get?_eq_some_iff hp

theorem isName (h : t.WellFormed) {p : Place} (hp : t.get? p ≠ none) : ∀ s ∈ p, IsName s := h.named.of_get? hp

theorem dir_of_lt (h : t.WellFormed) {p : Place} (rest : Place) (hne : rest ≠ []) (hget : t.get? (p ++ rest) ≠ none) :
    t.get? p = some .dir := h.nested.dir_of_lt rest hne hget

theorem get?_below (h : t.WellFormed) {p : Place} (hp : t.get? p ≠ some .dir) {rest : Place} (hne : rest ≠ []) :
    t.get? (p ++ rest) = none := by
  by_contra hsome
  exact hp (h.dir_of_lt rest hne hsome)

theorem file_or_dir (h : t.WellFormed) {p : Place} {e : Entry} (hp : t.get? p = some e) :
    e = .dir ∨ ∃ b, e = .file b := by
  cases e with
  | file b => exact Or.inr ⟨b, rfl⟩
  | dir => exact Or.inl rfl
  | link target => exact absurd hp (h.noLinks p target)

/-- A tree is well-formed when each of its entries is in order. -/
theorem ofEntries {entries : List (Place × Entry)} (hsorted : entries.Pairwise (·.1 < ·.1))
    (hentries : ∀ entry ∈ entries, (entry.1 ≠ [] ∧ ∀ s ∈ entry.1, IsName s) ∧
      (Tree.mk entries).get? entry.1.dropLast = some .dir ∧ isPlain entry.2 = true) : (Tree.mk entries).WellFormed where
  sorted := hsorted
  names p e hp := (hentries (p, e) hp).1
  parents := (Nested.ofEntries hsorted fun entry hentry => ⟨(hentries entry hentry).1, (hentries entry hentry).2.1⟩).parents
  noLinks p target hp := by
    by_cases hnil : p = []
    · subst hnil
      cases hp
    · rw [get?_of_ne _ hnil, lookup_eq_some_iff hsorted] at hp
      exact absurd (hentries _ hp).2.2 (by simp [isPlain])

theorem ext {t' : Tree} (h : t.WellFormed) (h' : t'.WellFormed) (heq : ∀ p, t.get? p = t'.get? p) : t = t' := by
  have hentries : t.entries = t'.entries := by
    refine eq_of_sorted h.sorted h'.sorted ?_
    rintro ⟨p, e⟩
    constructor
    · intro hp
      have hne := (h.names p e hp).1
      rwa [← h'.get?_eq_some_iff hne, ← heq, h.get?_eq_some_iff hne]
    · intro hp
      have hne := (h'.names p e hp).1
      rwa [← h.get?_eq_some_iff hne, heq, h'.get?_eq_some_iff hne]
  cases t
  cases t'
  exact congrArg Tree.mk hentries

/-! ## Changes that keep a tree well-formed -/

theorem set (h : t.WellFormed) {d : Place} {s : String} {e : Entry} (hd : t.get? d = some .dir) (hs : IsName s)
    (he : e = .dir ∨ (∃ b, e = .file b) ∧ t.get? (d ++ [s]) ≠ some .dir) : (t.set (d ++ [s]) e).WellFormed where
  sorted := insertEntry_sorted _ _ h.sorted
  names p f hp := by
    rcases insertEntry_mem hp with heq | hp
    · cases heq
      refine ⟨by simp, fun n hn => ?_⟩
      rcases List.mem_append.mp hn with hn | hn
      · exact h.isName (by rw [hd]; simp) n hn
      · rw [List.mem_singleton.mp hn]
        exact hs
    · exact h.names p f hp
  parents p n hp := by
    rw [get?_set (by simp)] at hp ⊢
    by_cases hpn : p ++ [n] = d ++ [s]
    · have hpd : p = d := (List.append_inj' hpn rfl).1
      subst hpd
      rw [if_neg (by simp), hd]
    · rw [if_neg hpn] at hp
      split_ifs with heq
      · rcases he with rfl | ⟨_, he⟩
        · rfl
        · exact absurd (h.parents p n hp) (heq ▸ he)
      · exact h.parents p n hp
  noLinks p target := by
    rw [get?_set (by simp)]
    split_ifs
    · rcases he with rfl | ⟨⟨b, rfl⟩, _⟩ <;> simp
    · exact h.noLinks p target

theorem erase (h : t.WellFormed) {p : Place} (hp : p ≠ []) (hbelow : ∀ s, t.get? (p ++ [s]) = none) :
    (t.erase p).WellFormed where
  sorted := h.sorted.filter _
  names q e hq := h.names q e (List.mem_of_mem_filter hq)
  parents q s hq := by
    rw [get?_erase hp] at hq ⊢
    split_ifs at hq with hqs
    · exact absurd rfl hq
    · split_ifs with hqp
      · subst hqp
        exact absurd (hbelow s) hq
      · exact h.parents q s hq
  noLinks q target := by
    rw [get?_erase hp]
    split_ifs
    · simp
    · exact h.noLinks q target

end WellFormed

end Refactor.Tree

/-! ## Files -/

namespace Refactor

abbrev Files := Place → Option ByteArray

def Tree.fileAt (t : Tree) : Files := fun q =>
  match t.get? q with
  | some (.file b) => some b
  | _ => none

theorem Tree.fileAt_eq_some_iff {t : Tree} {q : Place} {b : ByteArray} :
    t.fileAt q = some b ↔ t.get? q = some (.file b) := by
  unfold fileAt
  split <;> simp_all

theorem Tree.fileAt_congr {t t' : Tree} {q : Place} (h : ∀ b, t'.get? q = some (.file b) ↔ t.get? q = some (.file b)) :
    t'.fileAt q = t.fileAt q := by
  refine Option.ext fun b => ?_
  rw [fileAt_eq_some_iff, fileAt_eq_some_iff]
  exact h b

theorem Tree.fileAt_eq_none {t : Tree} {q : Place} (h : ∀ b, t.get? q ≠ some (.file b)) : t.fileAt q = none := by
  rw [Option.eq_none_iff_forall_ne_some]
  exact fun b hb => h b (fileAt_eq_some_iff.mp hb)

end Refactor
