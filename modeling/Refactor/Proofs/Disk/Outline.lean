import Refactor.Proofs.Disk.Locate

/-!
# Contents of files and the way to them

Where a path leads is told by the directories and links of a tree. The contents of files do not matter to it, nor does the
writing of the path, so files can be replaced one after the other under the paths that they were read from.

* `Tree.walk_agree`, `Tree.read_agree` — two writings of a path lead to one file
* `Tree.outline`, `Tree.locate_congr` — a tree without the contents of its files
* `Tree.LastAt` — the last of some paths that leads to a place
* `Tree.Replaced`, `Tree.Replaced.write` — a tree in which some files have new contents
-/

namespace Refactor.Tree

variable {t t' : Tree}

/-! ## Writings of a path -/

def moving (names : List String) : List String := names.filter (· != ".")

theorem moving_cons {name : String} (h : name ≠ ".") (rest : List String) : moving (name :: rest) = name :: moving rest :=
  List.filter_cons_of_pos (by simpa using h)

theorem moving_append (as bs : List String) : moving (as ++ bs) = moving as ++ moving bs := List.filter_append _ _

theorem walk_dot (t : Tree) (follow : Bool) (fuel links : Nat) (here : Place) (rest : List String) :
    t.walk follow (fuel + 1) links here ("." :: rest) = t.walk follow fuel links here rest := by
  rw [walk]
  rfl

/-- Two walks that come to an end and differ in steps that stay where they are come to one place. -/
theorem walk_agree {links : Nat} {here a b : Place} : ∀ {fuel fuel' : Nat} {names names' : List String},
    t.walk true fuel links here names = .ok a → t.walk true fuel' links here names' = .ok b →
    moving names = moving names' → a = b
  | 0, _, _, _, h, _, _ => by cases h
  | _, 0, _, _, _, h', _ => by cases h'
  | fuel + 1, fuel' + 1, [], [], h, h', _ => by
    rw [walk] at h h'
    exact Except.ok.inj (h.symm.trans h')
  | fuel + 1, fuel' + 1, [], name :: rest', h, h', hsame => by
    have hdot : name = "." := by
      by_contra hname
      rw [moving_cons hname] at hsame
      cases hsame
    subst hdot
    rw [walk_dot] at h'
    exact walk_agree h h' hsame
  | fuel + 1, fuel' + 1, name :: rest, names', h, h', hsame => by
    by_cases hdot : name = "."
    · subst hdot
      rw [walk_dot] at h
      exact walk_agree h h' hsame
    rw [moving_cons hdot] at hsame
    cases names' with
    | nil => cases hsame
    | cons name' rest' =>
      by_cases hdot' : name' = "."
      · subst hdot'
        rw [walk_dot] at h'
        exact walk_agree h h' ((moving_cons hdot rest).trans hsame)
      rw [moving_cons hdot', List.cons.injEq] at hsame
      obtain ⟨rfl, hrest⟩ := hsame
      rw [walk, if_neg (by simpa using hdot)] at h h'
      split at h
      · rename_i hdots
        rw [if_pos hdots] at h'
        exact walk_agree h h' hrest
      rename_i hdots
      rw [if_neg hdots] at h'
      dsimp only at h h'
      cases hget : t.get? (here ++ [name]) with
      | none =>
        rw [hget] at h h'
        dsimp only at h h'
        split_ifs at h h'
        exact (Except.ok.inj h).symm.trans (Except.ok.inj h')
      | some e =>
        rw [hget] at h h'
        cases e with
        | file content =>
          dsimp only at h h'
          split_ifs at h h'
          exact (Except.ok.inj h).symm.trans (Except.ok.inj h')
        | dir => exact walk_agree h h' hrest
        | link target =>
          simp only [Bool.not_true, Bool.and_false, Bool.false_eq_true, if_false] at h h'
          split_ifs at h h'
          · exact walk_agree h h' (by rw [moving_append, moving_append, hrest])
          · exact walk_agree h h' (by rw [moving_append, moving_append, hrest])
termination_by fuel fuel' => fuel + fuel'

theorem locate_agree {p q : Path} (habsolute : p.isAbsolute = true) (hpq : p.components = q.components) {a b : Place}
    (hp : t.locate true p = .ok a) (hq : t.locate true q = .ok b) : a = b := by
  have habsolute' : q.isAbsolute = true := Path.isAbsolute_of_components (hpq ▸ Path.components_of_absolute habsolute)
  unfold locate at hp hq
  split_ifs at hp hq
  refine walk_agree hp hq ?_
  unfold moving
  rw [steps_of_absolute habsolute, steps_of_absolute habsolute', hpq]

/-! ## Reading -/

theorem read_eq_ok_iff_locate {p : Path} {b : ByteArray} :
    t.read p = .ok b ↔ ∃ place, t.locate true p = .ok place ∧ t.get? place = some (.file b) := by
  unfold read
  constructor
  · intro h
    split at h
    · rename_i place content hentry
      cases h
      exact ⟨place, (entry_eq_ok_iff true p place _).mp hentry⟩
    · cases h
    · cases h
    · cases h
  · rintro ⟨place, hplace⟩
    rw [(entry_eq_ok_iff true p place _).mpr hplace]

/-- However the path of a file is written, the same is read. -/
theorem read_agree {p q : Path} (habsolute : p.isAbsolute = true) (hpq : p.components = q.components) {b b' : ByteArray}
    (hp : t.read p = .ok b) (hq : t.read q = .ok b') : b = b' := by
  obtain ⟨place, hplace, hfile⟩ := read_eq_ok_iff_locate.mp hp
  obtain ⟨place', hplace', hfile'⟩ := read_eq_ok_iff_locate.mp hq
  obtain rfl := locate_agree habsolute hpq hplace hplace'
  rw [hfile] at hfile'
  exact Entry.file.inj (Option.some.inj hfile')

/-! ## Outlines -/

end Tree

def Entry.outline : Entry → Entry
  | .file _ => .file .empty
  | e => e

namespace Tree

variable {t t' : Tree}

def outline (t : Tree) : Tree := ⟨t.entries.map fun entry => (entry.1, entry.2.outline)⟩

theorem get?_outline (t : Tree) (p : Place) : t.outline.get? p = (t.get? p).map Entry.outline := by
  by_cases hp : p = []
  · subst hp
    rfl
  · rw [get?_of_ne _ hp, get?_of_ne _ hp]
    show (t.entries.map _).lookup p = _
    induction t.entries with
    | nil => rfl
    | cons first rest ih =>
      rw [List.map_cons, lookup_cons_if, lookup_cons_if, ih]
      split_ifs <;> rfl

theorem walk_outline (t : Tree) (follow : Bool) : ∀ (fuel links : Nat) (here : Place) (names : List String),
    t.outline.walk follow fuel links here names = t.walk follow fuel links here names
  | 0, _, _, _ => rfl
  | _ + 1, _, _, [] => by rw [walk, walk]
  | fuel + 1, links, here, name :: rest => by
    rw [walk, walk]
    dsimp only
    rw [get?_outline, walk_outline t follow fuel links here rest, walk_outline t follow fuel links here.dropLast rest]
    cases t.get? (here ++ [name]) with
    | none => rfl
    | some e =>
      cases e with
      | file content => rfl
      | dir => simp only [Option.map_some, Entry.outline, walk_outline t follow fuel links (here ++ [name]) rest]
      | link target => simp only [Option.map_some, Entry.outline, walk_outline t follow fuel (links + 1)]

theorem locate_outline (t : Tree) (follow : Bool) (p : Path) : t.outline.locate follow p = t.locate follow p := by
  have hlinks : ∀ f : Place × Entry → Nat, (∀ entry, f (entry.1, entry.2.outline) = f entry) →
      t.outline.entries.map f = t.entries.map f := by
    intro f hf
    unfold outline
    rw [List.map_map]
    exact List.map_congr_left fun entry _ => hf entry
  unfold locate
  split
  · rfl
  · dsimp only
    rw [walk_outline, hlinks]
    rintro ⟨_, e⟩
    cases e <;> rfl

theorem locate_congr (h : t.outline = t'.outline) (follow : Bool) (p : Path) : t.locate follow p = t'.locate follow p := by
  rw [← locate_outline t, ← locate_outline t', h]

/-! ## Writing over files -/

theorem insertEntry_self {p : Place} {e : Entry} : ∀ {entries : List (Place × Entry)}, entries.Pairwise (·.1 < ·.1) →
    entries.lookup p = some e → insertEntry p e entries = entries
  | [], _, h => by cases h
  | (q, f) :: rest, hsorted, h => by
    obtain ⟨hfirst, hrest⟩ := List.pairwise_cons.mp hsorted
    rw [lookup_cons_if] at h
    rw [insertEntry]
    by_cases hpq : p = q
    · rw [if_pos hpq] at h
      obtain rfl := Option.some.inj h
      rw [(cmpPlace_eq_iff p q).mpr hpq, hpq]
    · rw [if_neg hpq] at h
      have hlater : q < p := hfirst _ ((lookup_eq_some_iff hrest).mp h)
      split
      · rename_i hlt
        exact absurd ((cmpPlace_lt_iff p q).mp hlt) (lt_asymm hlater)
      · rename_i heq
        exact absurd ((cmpPlace_eq_iff p q).mp heq) hpq
      · rw [insertEntry_self hrest h]

theorem map_insertEntry (p : Place) (e : Entry) (entries : List (Place × Entry)) :
    (insertEntry p e entries).map (fun entry => (entry.1, entry.2.outline)) =
      insertEntry p e.outline (entries.map fun entry => (entry.1, entry.2.outline)) := by
  induction entries with
  | nil => rfl
  | cons first rest ih =>
    rw [insertEntry, List.map_cons, insertEntry]
    cases cmpPlace p first.1 with
    | lt => rfl
    | eq => rfl
    | gt => exact congrArg _ ih

/-- Writing over a file keeps everything but its content. -/
theorem outline_set (hsorted : t.entries.Pairwise (·.1 < ·.1)) {p : Place} (hp : p ≠ []) {b : ByteArray}
    (hfile : t.get? p = some (.file b)) (b' : ByteArray) : (t.set p (.file b')).outline = t.outline := by
  have hsorted' : t.outline.entries.Pairwise (·.1 < ·.1) := List.pairwise_map.mpr hsorted
  have hlookup : t.outline.entries.lookup p = some (.file .empty) := by
    rw [← get?_of_ne _ hp, get?_outline, hfile]
    rfl
  unfold outline set
  rw [map_insertEntry]
  exact congrArg Tree.mk (insertEntry_self hsorted' hlookup)

/-! ## Files with new contents -/

/-- A walk that follows a link at the end ends where one that does not follow it ends, or that one ends at the link. -/
theorem walk_unfollowed : ∀ {fuel links : Nat} {here place : Place} {names : List String},
    t.walk true fuel links here names = .ok place → t.walk false fuel links here names = .ok place ∨
      ∃ q target, t.walk false fuel links here names = .ok q ∧ t.get? q = some (.link target)
  | 0, _, _, _, _, h => by cases h
  | _ + 1, _, _, _, [], h => Or.inl (by rw [walk] at h ⊢; exact h)
  | fuel + 1, links, here, place, name :: rest, h => by
    rw [walk] at h
    rw [walk]
    split at h
    · rename_i hdot
      rw [if_pos hdot]
      exact walk_unfollowed h
    rename_i hdot
    rw [if_neg hdot]
    split at h
    · rename_i hdots
      rw [if_pos hdots]
      exact walk_unfollowed h
    rename_i hdots
    rw [if_neg hdots]
    dsimp only at h ⊢
    cases hget : t.get? (here ++ [name]) with
    | none =>
      rw [hget] at h
      exact Or.inl h
    | some e =>
      rw [hget] at h
      cases e with
      | file content => exact Or.inl h
      | dir => exact walk_unfollowed h
      | link target =>
        dsimp only
        split
        · exact Or.inr ⟨here ++ [name], target, rfl, hget⟩
        · simp only [Bool.not_true, Bool.and_false, Bool.false_eq_true, if_false] at h
          split_ifs at h ⊢
          · exact walk_unfollowed h
          · exact walk_unfollowed h

theorem locate_unfollowed {p : Path} {place : Place} (h : t.locate true p = .ok place) (hlink : t.isLink p = false) :
    t.locate false p = .ok place := by
  have hnot : ∀ q target, t.locate false p = .ok q → t.get? q ≠ some (.link target) := by
    intro q target hq hget
    unfold isLink at hlink
    rw [(entry_eq_ok_iff false p q _).mpr ⟨hq, hget⟩] at hlink
    cases hlink
  unfold locate at h hnot ⊢
  split_ifs at h ⊢ with hempty
  · rw [if_neg hempty] at hnot
    rcases walk_unfollowed h with hsame | ⟨q, target, hq, hget⟩
    · exact hsame
    · exact absurd hget (hnot q target hq)

/-- Of some paths, the last one that leads to a place. -/
def LastAt {α : Type} (t : Tree) (q : Place) (files : List (Path × α)) (file : Path × α) : Prop :=
  t.locate true file.1 = .ok q ∧ ∃ before after, files = before ++ file :: after ∧
    ∀ later ∈ after, t.locate true later.1 ≠ .ok q

section LastAt

variable {α β : Type} {q : Place} {files : List (Path × α)} {file : Path × α}

theorem LastAt.mem (h : t.LastAt q files file) : file ∈ files := by
  obtain ⟨_, before, after, rfl, _⟩ := h
  simp

theorem lastAt_concat (files : List (Path × α)) (h : t.locate true file.1 = .ok q) : t.LastAt q (files ++ [file]) file :=
  ⟨h, files, [], rfl, by simp⟩

theorem LastAt.concat (h : t.LastAt q files file) {next : Path × α} (hnext : t.locate true next.1 ≠ .ok q) :
    t.LastAt q (files ++ [next]) file := by
  obtain ⟨hleads, before, after, rfl, hafter⟩ := h
  refine ⟨hleads, before, after ++ [next], by simp, fun later hlater => ?_⟩
  rcases List.mem_append.mp hlater with hold | hlast
  · exact hafter later hold
  · rwa [List.mem_singleton.mp hlast]

/-- What stands beside the paths does not matter. -/
theorem LastAt.of_map {f : Path × α → β} {new : Path × β}
    (h : t.LastAt q (files.map fun file => (file.1, f file)) new) : ∃ file, new = (file.1, f file) ∧ t.LastAt q files file := by
  obtain ⟨hleads, before, after, hfiles, hafter⟩ := h
  obtain ⟨front, rest, rfl, rfl, hrest⟩ := List.map_eq_append_iff.mp hfiles
  obtain ⟨file, back, rfl, rfl, rfl⟩ := List.map_eq_cons_iff.mp hrest
  exact ⟨file, rfl, hleads, front, back, rfl, fun later hlater => hafter _ (List.mem_map_of_mem hlater)⟩

end LastAt

/-- A tree after writes: at the end of each of some paths, which name files of a tree, stands what was written there last,
and everything else is as it was. -/
structure Replaced (t : Tree) (files : List (Path × ByteArray)) (t' : Tree) : Prop where
  sorted : t'.entries.Pairwise (·.1 < ·.1)
  outline : t'.outline = t.outline
  entries : ∀ q, (t'.get? q = t.get? q ∧ ∀ file ∈ files, t.locate true file.1 ≠ .ok q) ∨
    ∃ file, t.LastAt q files file ∧ t'.get? q = some (.file file.2)

theorem Replaced.nil (h : t.Nested) : t.Replaced [] t := ⟨h.sorted, rfl, fun _ => Or.inl ⟨rfl, by simp⟩⟩

/-- One more file, under a path that is no link. -/
theorem Replaced.write {files : List (Path × ByteArray)} {t'' : Tree} (h : t.Replaced files t') {p : Path}
    {b b' : ByteArray} (hread : t.read p = .ok b) (hlink : t.isLink p = false) (hwrite : t'.write p b' = .ok t'') :
    t.Replaced (files ++ [(p, b')]) t'' := by
  obtain ⟨place, hplace, hfile⟩ := read_eq_ok_iff_locate.mp hread
  have hne : place ≠ [] := by
    rintro rfl
    cases hfile
  have hlocate : t'.locate false p = .ok place := (locate_congr h.outline false p).trans (locate_unfollowed hplace hlink)
  obtain ⟨old, hold⟩ : ∃ old, t'.get? place = some (.file old) := by
    rcases h.entries place with ⟨hsame, _⟩ | ⟨file, _, hnew⟩
    · exact ⟨b, hsame.trans hfile⟩
    · exact ⟨file.2, hnew⟩
  have hset : t'.set place (.file b') = t'' := by
    unfold Tree.write at hwrite
    rw [hlocate] at hwrite
    simp only [bind, Except.bind, hold] at hwrite
    exact Except.ok.inj hwrite
  subst hset
  refine ⟨insertEntry_sorted _ _ h.sorted, (outline_set h.sorted hne hold b').trans h.outline, fun q => ?_⟩
  rw [get?_set hne]
  by_cases hq : q = place
  · right
    exact ⟨(p, b'), lastAt_concat files (hq ▸ hplace), if_pos hq⟩
  have hother : t.locate true (p, b').1 ≠ .ok q := by
    rw [hplace]
    exact fun heq => hq (Except.ok.inj heq).symm
  rw [if_neg hq]
  rcases h.entries q with ⟨hsame, hfree⟩ | ⟨file, hlast, hnew⟩
  · left
    refine ⟨hsame, fun file hfile' => ?_⟩
    rcases List.mem_append.mp hfile' with hmem | hlast
    · exact hfree file hmem
    · rwa [List.mem_singleton.mp hlast]
  · right
    exact ⟨file, hlast.concat hother, hnew⟩

end Refactor.Tree
