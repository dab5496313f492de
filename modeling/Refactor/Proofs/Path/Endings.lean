import Refactor.Proofs.Path.Relative

/-!
# Paths that end in a name

The last component of a path can be replaced, given another extension, or have a component put behind it. What the outcome
names is said on components alone, so these cuts agree on all paths with the same components.

* `Text.splitLast?_eq_some_iff` — a text cut at the last occurrence of a character
* `Path.cutName_eq_some_iff` — the stem and the extension of a name
* `Path.components_withFileName`, `Path.components_withExtension` — paths with another last name
* `Path.components_rebase?` — a path at the same place below another directory
-/

namespace Refactor

open Tree (pathOf)

namespace Text

/-- A text is cut at the last occurrence of a character: the part behind it has no further one. -/
theorem splitLast?_eq_some_iff {c : Char} {cs front back : List Char} :
    splitLast? c cs = some (front, back) ↔ cs = front ++ c :: back ∧ c ∉ back := by
  have hspan : cs.reverse = cs.reverse.takeWhile (· != c) ++ cs.reverse.dropWhile (· != c) :=
    (List.takeWhile_append_dropWhile).symm
  unfold splitLast?
  rw [List.span_eq_takeWhile_dropWhile]
  constructor
  · intro h
    have htail : ∀ d ∈ cs.reverse.takeWhile (· != c), (d != c) = true := fun d => List.mem_takeWhile_imp
    have hhead : ∀ d ∈ (cs.reverse.dropWhile (· != c)).head?, (d != c) = false := fun d hd => by
      have hnot := List.head?_dropWhile_not (· != c) cs.reverse
      rw [Option.mem_def.mp hd] at hnot
      simpa using hnot
    generalize cs.reverse.takeWhile (· != c) = tail at hspan htail h
    generalize cs.reverse.dropWhile (· != c) = rest at hspan hhead h
    cases rest with
    | nil => cases h
    | cons d rest =>
      obtain ⟨rfl, rfl⟩ := Prod.mk.inj (Option.some.inj h)
      obtain rfl : d = c := by simpa using hhead d rfl
      refine ⟨?_, fun hmem => by simpa using htail d (List.mem_reverse.mp hmem)⟩
      rw [← List.reverse_reverse cs, hspan]
      simp
  · rintro ⟨rfl, hback⟩
    have hall : ∀ d ∈ back.reverse, (d != c) = true := by
      intro d hd
      rw [bne_iff_ne]
      rintro rfl
      exact hback (List.mem_reverse.mp hd)
    have hreverse : (front ++ c :: back).reverse = back.reverse ++ c :: front.reverse := by simp
    rw [hreverse, List.takeWhile_append_of_pos hall, List.dropWhile_append_of_pos hall]
    simp

end Text

namespace Path

/-! ## Stems and extensions -/

theorem cutName_eq_some_iff {name stem ext : String} :
    cutName name = (stem, some ext) ↔ name = stem ++ "." ++ ext ∧ stem ≠ "" ∧ '.' ∉ ext.toList := by
  have hname : ∀ {s e : List Char}, name = String.ofList s ++ "." ++ String.ofList e ↔ name.toList = s ++ '.' :: e := by
    intro s e
    rw [← String.toList_inj]
    simp
  unfold cutName
  constructor
  · intro h
    split at h
    · cases h
    · rename_i s e hsplit
      obtain ⟨hlist, hdot⟩ := Text.splitLast?_eq_some_iff.mp hsplit
      split at h
      · cases h
      · rename_i hempty
        obtain ⟨rfl, hext⟩ := Prod.mk.inj h
        obtain rfl := Option.some.inj hext
        refine ⟨hname.mpr hlist, fun hnil => hempty ?_, by simpa using hdot⟩
        simpa using congrArg String.toList hnil
  · rintro ⟨hlist, hne, hdot⟩
    have hsplit : Text.splitLast? '.' name.toList = some (stem.toList, ext.toList) :=
      Text.splitLast?_eq_some_iff.mpr ⟨by simp [hlist], hdot⟩
    rw [hsplit]
    simp [hne]

theorem cutName_eq_none {name stem : String} (h : cutName name = (stem, none)) : stem = name := by
  unfold cutName at h
  split at h
  · exact (Prod.mk.inj h).1.symm
  · split at h
    · exact (Prod.mk.inj h).1.symm
    · cases h

/-! ## The last name -/

section

variable {p : Path} {cs : List Component} {n : String} (hp : p.components = .root :: (cs ++ [.name n]))

include hp

theorem fileName?_of_components : p.fileName? = some n := by
  have hlast : p.components.getLast? = some (.name n) := by
    rw [hp, ← List.cons_append, List.getLast?_concat]
  rw [fileName?, hlast]

theorem fileStem?_of_components : p.fileStem? = some (cutName n).1 := by
  rw [fileStem?, fileName?_of_components hp, Option.map_some]

theorem extension?_of_components : p.extension? = (cutName n).2 := by
  rw [extension?, fileName?_of_components hp, Option.bind_some]

theorem trimmedSegments_of_components : ∃ ss, p.trimmedSegments = ss ++ [n] ∧ (∀ s ∈ ss, '/' ∉ s.toList) ∧
    ss.filterMap innerComponent? = cs := by
  obtain ⟨ss, s, hsegments, hslash, hcs, hname⟩ := segments_of_components hp
  rw [trimmedSegments_of_absolute (isAbsolute_of_components hp), hsegments]
  have hsn : s = n := by
    unfold componentOf at hname
    split at hname
    · cases hname
    · exact Component.name.inj hname
  exact ⟨ss, by rw [hsn], hslash, hcs⟩

/-! ## Another last name -/

theorem components_withExtension {m : String} (ext : String)
    (hm : (if ext == "" then (cutName n).1 else (cutName n).1 ++ "." ++ ext) = m) (hname : IsName m) :
    (p.withExtension ext).components = .root :: (cs ++ [.name m]) := by
  obtain ⟨ss, htrimmed, hslash, hcs⟩ := trimmedSegments_of_components hp
  have hall : ∀ s ∈ ss ++ [m], '/' ∉ s.toList := by
    intro s hs
    rcases List.mem_append.mp hs with hs | hs
    · exact hslash s hs
    · rw [List.mem_singleton.mp hs]
      exact hname.1.2.2
  unfold withExtension
  rw [fileStem?_of_components hp, htrimmed, List.dropLast_concat, isAbsolute_of_components hp]
  dsimp only
  rw [hm]
  show (pathOf (ss ++ [m])).components = _
  rw [components_pathOf hall, List.filterMap_append, hcs, List.filterMap_cons,
    innerComponent?_of_not_blank hname.1.not_blank, componentOf_name hname]
  rfl

end

theorem inner_name {m : String} (hm : IsName m) : inner m = [.name m] := by
  have hjoin : inner (joinWith "/" [m]) = [m].map componentOf := inner_joinWith (by simpa using hm.1)
  rw [List.map_singleton, componentOf_name hm] at hjoin
  exact hjoin

theorem components_join_name {p : Path} (h : p.isAbsolute = true) {m : String} (hm : IsName m) :
    (p.join ⟨m⟩).components = p.components ++ [.name m] := by
  rw [components_join h (not_startsWith_slash hm.1.2.2), inner_name hm]

theorem components_withFileName {p : Path} {cs : List Component} {n m : String}
    (hp : p.components = .root :: (cs ++ [.name n])) (hm : IsName m) :
    (p.withFileName m).components = .root :: (cs ++ [.name m]) := by
  obtain ⟨dir, hdir, hcomponents⟩ := components_parent? hp
  unfold withFileName
  rw [fileName?_of_components hp, hdir]
  dsimp only
  rw [components_join_name (isAbsolute_of_components hcomponents) hm, hcomponents]
  rfl

/-! ## The same place below another directory -/

theorem filterMap_dropSegments (k : Nat) (ss : List String) :
    (dropSegments k ss).filterMap innerComponent? = (ss.filterMap innerComponent?).drop k := by
  fun_induction dropSegments k ss with
  | case1 => simp
  | case2 k s ss hblank ih => rw [ih, List.filterMap_cons, innerComponent?_of_blank hblank]
  | case3 s ss hblank => rw [List.drop_zero]
  | case4 s ss hblank k ih =>
    rw [ih, List.filterMap_cons, innerComponent?_of_not_blank (by simpa [isBlankSegment] using hblank)]
    rfl

theorem dropSegments_suffix (k : Nat) (ss : List String) : dropSegments k ss <:+ ss := by
  fun_induction dropSegments k ss with
  | case1 => exact List.suffix_rfl
  | case2 k s ss hblank ih => exact ih.trans (List.suffix_cons s ss)
  | case3 s ss hblank => exact List.suffix_rfl
  | case4 s ss hblank k ih => exact ih.trans (List.suffix_cons s ss)

theorem dropSegments_head (k : Nat) (ss : List String) : ∀ s ∈ (dropSegments k ss).head?, isBlankSegment s = false := by
  fun_induction dropSegments k ss with
  | case1 => simp
  | case2 k s ss hblank ih => exact ih
  | case3 s ss hblank => simpa [isBlankSegment] using hblank
  | case4 s ss hblank k ih => exact ih

theorem inner_joinWith_segments {ss : List String} (h : ∀ s ∈ ss, '/' ∉ s.toList) :
    inner (joinWith "/" ss) = ss.filterMap innerComponent? := by
  cases ss with
  | nil => rfl
  | cons s rest =>
    have hslash : ∀ l ∈ (s :: rest).map String.toList, '/' ∉ l := by
      intro l hl
      obtain ⟨t, ht, rfl⟩ := List.mem_map.mp hl
      exact h t ht
    rw [inner, joinWith_toList, List.splitOn_intercalate _ hslash (by simp), List.map_map]
    simp only [Function.comp_def, String.ofList_toList, List.map_id']

/-- A text whose first segment carries a component is relative. -/
theorem joinWith_relative {s : String} (hs : isBlankSegment s = false) (hslash : '/' ∉ s.toList) (rest : List String) :
    (Path.mk (joinWith "/" (s :: rest))).isAbsolute = false ∧ joinWith "/" (s :: rest) ≠ "" := by
  have hne : s ≠ "" := by
    rintro rfl
    cases hs
  obtain ⟨c, cs, hlist⟩ := List.exists_cons_of_ne_nil (mt String.toList_eq_nil_iff.mp hne)
  obtain ⟨tail, htail⟩ : ∃ tail, (joinWith "/" (s :: rest)).toList = c :: tail := by
    rw [joinWith_toList, List.map_cons, hlist]
    cases rest with
    | nil => exact ⟨cs, by simp [List.intercalate]⟩
    | cons t rest => exact ⟨_, by rw [List.map_cons, List.intercalate_cons_cons, List.append_assoc, List.cons_append]⟩
  have hc : c ≠ '/' := by
    rintro rfl
    exact hslash (by simp [hlist])
  refine ⟨?_, fun hempty => ?_⟩
  · rw [isAbsolute, Refactor.startsWith, htail]
    simp [List.isPrefixOf, hc.symm]
  · rw [hempty] at htail
    cases htail

/-- What is left of an absolute path below a directory names the components that are left. -/
theorem stripLead?_absolute {p q rel : Path} (hp : p.isAbsolute = true) (hq : q.isAbsolute = true)
    (h : p.stripLead? q = some rel) : rel.isAbsolute = false ∧ inner rel.raw = p.components.drop q.components.length ∧
      (rel.raw = "" → p.components.drop q.components.length = []) := by
  obtain ⟨k, hk⟩ : ∃ k, q.components.length = k + 1 := by
    rw [components_of_absolute hq, List.length_cons]
    exact ⟨_, rfl⟩
  have hdrop : p.components.drop (k + 1) = (dropSegments k p.trimmedSegments).filterMap innerComponent? := by
    rw [filterMap_dropSegments, components_of_absolute hp, List.drop_succ_cons, trimmedSegments_of_absolute hp,
      filterMap_rdropWhile]
  have hslash : ∀ s ∈ dropSegments k p.trimmedSegments, '/' ∉ s.toList := by
    intro s hs
    refine no_slash_of_mem_segments (p := p) ?_
    rw [trimmedSegments_of_absolute hp] at hs
    exact (List.rdropWhile_prefix _ _).subset ((dropSegments_suffix k _).subset hs)
  have hhead := dropSegments_head k p.trimmedSegments
  unfold stripLead? at h
  split at h
  · cases h
  · rw [hk] at h
    simp only [hp, Nat.add_one_sub_one, Nat.add_eq_zero_iff, Nat.one_ne_zero, and_false, beq_iff_eq, if_false,
      Option.some.injEq] at h
    obtain rfl := h
    rw [hk, hdrop]
    generalize dropSegments k p.trimmedSegments = ss at hslash hhead
    have hpath : ofSegments false ss = ⟨joinWith "/" ss⟩ := by simp [ofSegments]
    rw [hpath, inner_joinWith_segments hslash]
    cases ss with
    | nil => exact ⟨rfl, rfl, fun _ => rfl⟩
    | cons s rest =>
      obtain ⟨hrelative, hne⟩ := joinWith_relative (hhead s rfl) (hslash s (by simp)) rest
      exact ⟨hrelative, rfl, fun hempty => absurd hempty hne⟩

/-- A path that is put at the same place below another directory: the components below the one come behind those of the
other. -/
theorem components_rebase? {p old new q : Path} (hp : p.isAbsolute = true) (hold : old.isAbsolute = true)
    (hnew : new.isAbsolute = true) (h : p.rebase? old new = some q) :
    q.components = new.components ++ p.components.drop old.components.length := by
  unfold rebase? at h
  obtain ⟨rel, hrel, rfl⟩ := Option.map_eq_some_iff.mp h
  obtain ⟨hrelative, hinner, hempty⟩ := stripLead?_absolute hp hold hrel
  split
  · rename_i hraw
    rw [hempty (by simpa using hraw), List.append_nil]
  · exact (components_join hnew hrelative).trans (by rw [hinner])

theorem rebase?_isSome (p old new : Path) : (p.rebase? old new).isSome = p.startsWith old := by
  unfold rebase? stripLead?
  rw [Option.isSome_map]
  cases p.startsWith old with
  | false => rfl
  | true =>
    rw [Bool.not_true, if_neg (by simp)]
    dsimp only
    split <;> rfl

end Path

end Refactor
