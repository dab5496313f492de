import Refactor.Reference.Resolve
import Refactor.Proofs.Path.Relative
import Refactor.Proofs.Text.Positions

/-!
# Specifiers that lead back

A specifier that shows its extension and starts with a dot or a slash is the text of a way. The way is joined to the place
where it starts, so it leads to the target that it was written for, whatever other files are known.

* `Specifier.PathText`, `Specifier.Suffix` — path texts, and what may stand behind them
* `KnownFiles.resolve_pathText` — a path text is resolved to the first place it may mean, when that is a known file
* `SpecifierStyle.Explicit` — styles that name the target itself
* `Specifier.resolve_format` — a formatted specifier is resolved to its target
-/

namespace Refactor

open Path (IsName IsSegment way)

/-! ## Parts of a text -/

namespace Text

theorem nil_mem_splitOn {c : Char} {cs : List Char} (h : [c, c] <:+: cs) : [] ∈ cs.splitOn c := by
  obtain ⟨front, back, rfl⟩ := h
  have hfront : (front ++ [c, c] ++ back).splitOn c = front.splitOn c ++ (c :: back).splitOn c := by
    rw [List.append_assoc]
    exact List.splitOnP_append_cons _ _ (by simp)
  rw [hfront, List.splitOn_cons_eq_if_modifyHead]
  simp

end Text

namespace Specifier

/-! ## Path texts -/

/-- A path text that starts with a dot or a slash, has no empty segment and no mark of a suffix. -/
structure PathText (s : String) : Prop where
  plain : ∀ c ∈ s.toList, c ≠ '#' ∧ c ≠ '?'
  single : ¬ ['/', '/'] <:+: s.toList
  lead : ∃ c ∈ ['.', '/'], s.toList.head? = some c
  last : s.toList.getLast? ≠ some '/'

/-- An anchor, a query or nothing, which names no site. -/
structure Suffix (s : String) : Prop where
  marked : s = "" ∨ startsWith s "#" = true ∨ startsWith s "?" = true
  internal : occursIn "://" s = false

theorem Suffix.head {s : String} (h : Suffix s) : ∀ c ∈ s.toList.head?, c = '#' ∨ c = '?' := by
  have hlead : ∀ {m : Char}, startsWith s (String.singleton m) = true → s.toList.head? = some m := by
    intro m hm
    obtain ⟨rest, hrest⟩ := List.isPrefixOf_iff_prefix.mp hm
    rw [← hrest]
    simp
  intro c hc
  rcases h.marked with rfl | hanchor | hquery
  · simp at hc
  · rw [hlead (m := '#') hanchor] at hc
    exact Or.inl (Option.some.inj hc).symm
  · rw [hlead (m := '?') hquery] at hc
    exact Or.inr (Option.some.inj hc).symm

theorem splitSuffix_append {s suffix : String} (hplain : ∀ c ∈ s.toList, c ≠ '#' ∧ c ≠ '?') (hsuffix : Suffix suffix) :
    splitSuffix (s ++ suffix) = (s, suffix) := by
  have hall : ∀ c ∈ s.toList, (c != '#' && c != '?') = true := by
    intro c hc
    simpa using hplain c hc
  have hnone : suffix.toList.takeWhile (fun c => c != '#' && c != '?') = [] ∧
      suffix.toList.dropWhile (fun c => c != '#' && c != '?') = suffix.toList := by
    have hhead := hsuffix.head
    cases hlist : suffix.toList with
    | nil => exact ⟨rfl, rfl⟩
    | cons c rest =>
      rcases hhead c (by simp [hlist]) with rfl | rfl <;> simp
  unfold splitSuffix
  rw [String.toList_append, List.span_eq_takeWhile_dropWhile, List.takeWhile_append_of_pos hall,
    List.dropWhile_append_of_pos hall, hnone.1, hnone.2]
  simp

/-- No scheme is written across the end of a path text. -/
theorem not_scheme_append {suffix : List Char} (hhead : ∀ c ∈ suffix.head?, c = '#' ∨ c = '?')
    (hsuffix : ¬ [':', '/', '/'] <:+: suffix) :
    ∀ {cs : List Char}, ¬ ['/', '/'] <:+: cs → ¬ [':', '/', '/'] <:+: cs ++ suffix
  | [], _ => hsuffix
  | c :: cs, hsingle => by
    have hrest : ¬ ['/', '/'] <:+: cs := fun h => hsingle (h.trans (List.suffix_cons c cs).isInfix)
    have hslash : ∀ rest, suffix ≠ '/' :: rest := by
      rintro rest rfl
      rcases hhead '/' rfl with h | h <;> cases h
    rw [List.cons_append, List.infix_cons_iff]
    rintro (hlead | hlater)
    · obtain ⟨rest, hrest'⟩ := hlead
      simp only [List.cons_append, List.nil_append, List.cons.injEq] at hrest'
      obtain ⟨rfl, hboth⟩ := hrest'
      -- the two slashes stand in the path text, on its end, or in the suffix
      rcases cs with _ | ⟨a, _ | ⟨b, cs⟩⟩
      · exact hslash _ hboth.symm
      · simp only [List.cons_append, List.nil_append, List.cons.injEq] at hboth
        exact hslash _ hboth.2.symm
      · simp only [List.cons_append, List.cons.injEq] at hboth
        obtain ⟨rfl, rfl, -⟩ := hboth
        exact hrest ⟨[], cs, rfl⟩
    · exact not_scheme_append hhead hsuffix hrest hlater

theorem isExternal_append {s suffix : String} (hsingle : ¬ ['/', '/'] <:+: s.toList)
    (hlead : ∃ c ∈ ['.', '/'], s.toList.head? = some c) (hsuffix : Suffix suffix) : isExternal (s ++ suffix) = false := by
  have hscheme : occursIn "://" (s ++ suffix) = false := by
    have hlocal := hsuffix.internal
    rw [occursIn, ← Bool.not_eq_true, Text.contains_iff_infix] at hlocal ⊢
    rw [String.toList_append]
    exact not_scheme_append hsuffix.head hlocal hsingle
  obtain ⟨c, hc, hhead⟩ := hlead
  obtain ⟨rest, hrest⟩ : ∃ rest, (s ++ suffix).toList = c :: rest := by
    obtain ⟨tail, htail⟩ := List.head?_eq_some_iff.mp hhead
    exact ⟨tail ++ suffix.toList, by rw [String.toList_append, htail, List.cons_append]⟩
  have hother : ∀ {m : Char} {scheme : String}, scheme.toList.head? = some m → m ∉ ['.', '/'] →
      startsWith (s ++ suffix) scheme = false := by
    intro m scheme hm hnot
    obtain ⟨tail, htail⟩ := List.head?_eq_some_iff.mp hm
    have hne : (m == c) = false := by
      rw [beq_eq_false_iff_ne]
      rintro rfl
      exact hnot hc
    rw [startsWith, hrest, htail, List.isPrefixOf, hne, Bool.false_and]
  unfold isExternal
  rw [hscheme, hother (m := '#') rfl (by decide), hother (m := 'm') rfl (by decide), hother (m := 'd') rfl (by decide),
    hother (m := 't') rfl (by decide)]
  rfl

/-! ## Resolving a path text -/

theorem dropWhileEnd_slash {s : String} (hs : PathText s) : Text.dropWhileEnd (· == '/') s.toList = s.toList := by
  have hlast := hs.last
  rw [List.getLast?_eq_head?_reverse] at hlast
  unfold Text.dropWhileEnd
  cases hback : s.toList.reverse with
  | nil => rw [List.reverse_eq_nil_iff.mp hback]; rfl
  | cons c rest =>
    rw [hback] at hlast
    rw [List.dropWhile_cons_of_neg (by simpa using hlast), ← hback, List.reverse_reverse]

end Specifier

namespace KnownFiles

theorem isFile_congr {p q : Path} (h : (p == q) = true) (k : KnownFiles) : k.isFile p = k.isFile q :=
  PathSet.contains_congr h k.files

theorem exactly?_cons {k : KnownFiles} {p : Path} (hp : k.isFile p = true) (base : SpecifierBase)
    (others : List (SpecifierBase × Path)) : k.exactly? ((base, p) :: others) = some (.resolved p base none) := by
  simp [exactly?, hp]

/-- A path text is resolved to the first place that it may mean, when that is a known file. -/
theorem resolve_pathText {k : KnownFiles} {root importer p : Path} {base : SpecifierBase} {s suffix : String}
    (hs : Specifier.PathText s) (hsuffix : Specifier.Suffix suffix) {others : List (SpecifierBase × Path)}
    (hbases : bases root importer s = (base, p) :: others) (hp : k.isFile p = true) :
    k.resolve root importer (s ++ suffix) = .resolved p base none := by
  have hne : (s == "") = false := by
    obtain ⟨c, _, hhead⟩ := hs.lead
    rw [beq_eq_false_iff_ne]
    rintro rfl
    cases hhead
  unfold resolve
  dsimp only
  rw [Specifier.isExternal_append hs.single hs.lead hsuffix, Specifier.splitSuffix_append hs.plain hsuffix, if_neg (by simp),
    Specifier.dropWhileEnd_slash hs, String.ofList_toList, hne, if_neg (by simp), hbases, exactly?_cons hp]
  rfl

end KnownFiles

/-! ## Formatted specifiers -/

/-- A style that shows the extension and names the target itself, from the directory of the file with a dot or from the root
with a slash. -/
structure SpecifierStyle.Explicit (style : SpecifierStyle) : Prop where
  extension : style.explicitExtension = true
  itself : style.index = false
  lead : (style.base = .importingFile ∧ style.lead = .dot) ∨ (style.base = .projectRoot ∧ style.lead = .slash)

namespace Specifier

/-! ### Texts of segments -/

section

variable {ss : List String} (h : ∀ s ∈ ss, IsSegment s)

include h

theorem joinWith_single : ¬ ['/', '/'] <:+: (joinWith "/" ss).toList := by
  intro hinfix
  by_cases hne : ss = []
  · have hlength := hinfix.length_le
    simp [hne, joinWith] at hlength
  · have hempty := Text.nil_mem_splitOn hinfix
    rw [Path.splitOn_joinWith h hne] at hempty
    obtain ⟨t, ht, htext⟩ := List.mem_map.mp hempty
    exact (h t ht).1 (String.toList_eq_nil_iff.mp htext)

theorem joinWith_last : (joinWith "/" ss).toList.getLast? ≠ some '/' := by
  cases ss using List.reverseRecOn with
  | nil => simp [joinWith]
  | append_singleton ss t =>
    have ht := h t (by simp)
    rw [Path.getLast?_joinWith ht.1]
    exact fun hslash => ht.2.2 (List.mem_of_getLast? hslash)

theorem joinWith_ne_empty (hne : ss ≠ []) : joinWith "/" ss ≠ "" := by
  intro hempty
  have hparts := Path.splitOn_joinWith h hne
  have hnil : [] ∈ ss.map String.toList := by
    rw [← hparts, hempty]
    exact List.mem_singleton_self []
  obtain ⟨t, ht, htext⟩ := List.mem_map.mp hnil
  exact (h t ht).1 (String.toList_eq_nil_iff.mp htext)

end

theorem mem_joinWith {c : Char} : ∀ {ss : List String}, c ∈ (joinWith "/" ss).toList → c = '/' ∨ ∃ s ∈ ss, c ∈ s.toList
  | [], hc => by simp [joinWith] at hc
  | [s], hc => Or.inr ⟨s, by simp, hc⟩
  | s :: t :: rest, hc => by
    rw [joinWith, String.toList_append, String.toList_append, List.mem_append, List.mem_append] at hc
    rcases hc with (hc | hc) | hc
    · exact Or.inr ⟨s, by simp, hc⟩
    · exact Or.inl (by simpa using hc)
    · obtain hslash | ⟨u, hu, hcu⟩ := mem_joinWith hc
      · exact Or.inl hslash
      · exact Or.inr ⟨u, List.mem_cons_of_mem s hu, hcu⟩

/-! ### Path texts of segments -/

section

variable {ss : List String} (h : ∀ s ∈ ss, IsSegment s) (hplain : ∀ s ∈ ss, ∀ c ∈ s.toList, c ≠ '#' ∧ c ≠ '?')

include hplain in
theorem joinWith_plain : ∀ c ∈ (joinWith "/" ss).toList, c ≠ '#' ∧ c ≠ '?' := by
  intro c hc
  rcases mem_joinWith hc with rfl | ⟨s, hs, hcs⟩
  · decide
  · exact hplain s hs c hcs

include h hplain

theorem pathText_slash (hne : ss ≠ []) : PathText ("/" ++ joinWith "/" ss) where
  plain := by
    intro c hc
    rw [String.toList_append, List.mem_append] at hc
    rcases hc with hc | hc
    · rw [List.mem_singleton.mp hc]
      decide
    · exact joinWith_plain hplain c hc
  single := by
    rw [String.toList_append]
    show ¬ ['/', '/'] <:+: '/' :: (joinWith "/" ss).toList
    rw [List.infix_cons_iff]
    rintro (⟨rest, hrest⟩ | hlater)
    · -- a second slash at the start would make the text an absolute one
      have hrelative := Path.joinWith_not_absolute h
      simp only [List.cons_append, List.nil_append, List.cons.injEq, true_and] at hrest
      simp [Path.isAbsolute, Refactor.startsWith, ← hrest] at hrelative
    · exact joinWith_single h hlater
  lead := ⟨'/', by simp, by simp⟩
  last := by
    rw [String.toList_append, List.getLast?_append]
    cases hlast : (joinWith "/" ss).toList.getLast? with
    | none => exact absurd (String.toList_eq_nil_iff.mp (List.getLast?_eq_none_iff.mp hlast)) (joinWith_ne_empty h hne)
    | some c =>
      rw [Option.some_or, ← hlast]
      exact joinWith_last h

theorem pathText_dot (hne : ss ≠ []) : PathText ("./" ++ joinWith "/" ss) := by
  have hslash := pathText_slash h hplain hne
  have htext : ("./" ++ joinWith "/" ss).toList = '.' :: ("/" ++ joinWith "/" ss).toList := by simp
  have hsome : ("/" ++ joinWith "/" ss).toList ≠ [] := by simp
  refine ⟨?_, ?_, ⟨'.', by simp, by simp⟩, ?_⟩
  · rw [htext, List.forall_mem_cons]
    exact ⟨by decide, hslash.plain⟩
  · rw [htext, List.infix_cons_iff]
    rintro (⟨rest, hrest⟩ | hlater)
    · simp at hrest
    · exact hslash.single hlater
  · rw [htext, List.getLast?_cons_of_ne_nil hsome]
    exact hslash.last

/-- The text of a way, with a dot in front where it does not climb. -/
theorem pathText_way {s : String} (hs : s = (if startsWith (joinWith "/" ss) ".." then joinWith "/" ss
      else if joinWith "/" ss == "" then "." else "./" ++ joinWith "/" ss)) :
    PathText s ∧ (Path.mk s).isAbsolute = false ∧ Path.inner s = ss.map Path.componentOf := by
  subst hs
  split
  · rename_i hclimbs
    obtain ⟨rest, hrest⟩ := List.isPrefixOf_iff_prefix.mp hclimbs
    refine ⟨⟨joinWith_plain hplain, joinWith_single h, ⟨'.', by simp, ?_⟩, joinWith_last h⟩, Path.joinWith_not_absolute h,
      Path.inner_joinWith h⟩
    rw [← hrest]
    rfl
  · by_cases hne : ss = []
    · subst hne
      rw [if_pos (by decide)]
      exact ⟨⟨by simp, by decide, ⟨'.', by decide⟩, by decide⟩, by decide, by decide⟩
    · rw [if_neg (by simpa using joinWith_ne_empty h hne)]
      refine ⟨pathText_dot h hplain hne, ?_, ?_⟩
      · simp [Path.isAbsolute, Refactor.startsWith, List.isPrefixOf]
      · have hdot : "./" ++ joinWith "/" ss = "." ++ "/" ++ joinWith "/" ss := rfl
        rw [hdot, Path.inner_append, Path.inner_joinWith h]
        rfl

end

/-! ### Formatting and resolving -/

theorem endsWith_append (s suffix : String) : endsWith (s ++ suffix) suffix = true := by
  rw [endsWith, String.toList_append, List.reverse_append, List.isPrefixOf_iff_prefix]
  exact List.prefix_append _ _

theorem bases_slash (root importer : Path) (s : String) :
    KnownFiles.bases root importer ("/" ++ s) = [(.projectRoot, (root.join ⟨s⟩).normalize)] := by
  have hlead : afterLead? ("/" ++ s) "/" = some s := by
    rw [afterLead?, String.toList_append, Text.dropLead?_append, Option.map_some, String.ofList_toList]
  rw [KnownFiles.bases, hlead]

/-- A relative path text is seen from the directory of the file first. -/
theorem bases_relative (root : Path) {importer dir : Path} (hdir : importer.parent? = some dir) {s : String}
    (hs : (Path.mk s).isAbsolute = false) :
    ∃ others, KnownFiles.bases root importer s = (.importingFile, (dir.join ⟨s⟩).normalize) :: others := by
  have hlead : afterLead? s "/" = none := by
    rw [afterLead?, Option.map_eq_none_iff, Text.dropLead?_eq_none_iff, ← List.isPrefixOf_iff_prefix]
    exact Bool.not_eq_true _ ▸ hs
  unfold KnownFiles.bases
  rw [hlead, hdir, Option.getD_some]
  dsimp only
  split
  · exact ⟨_, rfl⟩
  · exact ⟨_, rfl⟩

section

variable {style : SpecifierStyle} (hstyle : style.Explicit) {root importer target : Path}

include hstyle

theorem referenced_explicit : referenced style target = target := by
  rw [referenced, hstyle.itself, hstyle.extension, Bool.false_and, if_neg (by simp), Bool.not_true, if_neg (by simp)]

/-- From the directory of the file, a specifier is the text of the way to the target. -/
theorem format_dot {dir : Path} (hdir : importer.parent? = some dir) {rs is ns : List String}
    (hnames : ∀ n ∈ rs ++ ns, Path.IsName n) (hplain : ∀ n ∈ ns, ∀ c ∈ n.toList, c ≠ '#' ∧ c ≠ '?')
    (hcomponents : dir.components = .root :: (rs ++ is).map .name)
    (htarget : target.components = .root :: (rs ++ ns).map .name)
    (hbase : style.base = .importingFile) (hlead : style.lead = .dot) :
    ∃ s p others, format style root importer target = s ++ style.suffix ∧ PathText s ∧
      KnownFiles.bases root importer s = (style.base, p) :: others ∧ (p == target) = true := by
  obtain ⟨shared, down, up, rfl, rfl, hway⟩ :=
    Path.relativeTo?_names (fun n hn => hnames n (List.mem_append_right _ hn)) htarget hcomponents
  rw [← List.append_assoc] at hcomponents htarget hnames
  have hdown : ∀ n ∈ down, Path.IsName n := fun n hn => hnames n (List.mem_append_right _ hn)
  have hsegments := Path.isSegment_way up hdown
  have hwayPlain : ∀ s ∈ way up down, ∀ c ∈ s.toList, c ≠ '#' ∧ c ≠ '?' := by
    intro s hs
    rcases List.mem_append.mp hs with hs | hs
    · rw [List.eq_of_mem_replicate hs]
      simp
    · exact hplain s (List.mem_append_right _ hs)
  obtain ⟨hpath, hrelative, hinner⟩ := pathText_way hsegments hwayPlain rfl
  obtain ⟨others, hbases⟩ := bases_relative root hdir hrelative
  refine ⟨_, _, others, ?_, hpath, hbase ▸ hbases, ?_⟩
  · unfold format
    rw [referenced_explicit hstyle, hbase, hlead]
    dsimp only
    rw [hdir, Option.getD_some, hway, Option.getD_some, Path.slashed_joinWith hsegments]
  · rw [Path.beq_iff, htarget]
    exact Path.components_normalize_way hcomponents hnames hrelative hinner

/-- From the root, a specifier is a slash and the names of the target. -/
theorem format_slash {rs ns : List String} (hnames : ∀ n ∈ rs ++ ns, Path.IsName n) (hne : ns ≠ [])
    (hplain : ∀ n ∈ ns, ∀ c ∈ n.toList, c ≠ '#' ∧ c ≠ '?') (hroot : root.components = .root :: rs.map .name)
    (htarget : target.components = .root :: (rs ++ ns).map .name)
    (hbase : style.base = .projectRoot) (hlead : style.lead = .slash) :
    ∃ s p others, format style root importer target = s ++ style.suffix ∧ PathText s ∧
      KnownFiles.bases root importer s = (style.base, p) :: others ∧ (p == target) = true := by
  have hsegments : ∀ n ∈ ns, IsSegment n := fun n hn => (hnames n (List.mem_append_right _ hn)).1
  have hroot' : root.components = .root :: (rs ++ []).map .name := by rw [List.append_nil, hroot]
  obtain ⟨shared, down, up, rfl, hnil, hway⟩ :=
    Path.relativeTo?_names (fun n hn => hnames n (List.mem_append_right _ hn)) htarget hroot'
  obtain ⟨rfl, rfl⟩ := List.append_eq_nil_iff.mp hnil.symm
  refine ⟨_, _, [], ?_, pathText_slash hsegments hplain hne, hbase ▸ bases_slash root importer _, ?_⟩
  · unfold format
    rw [referenced_explicit hstyle, hbase, hlead]
    dsimp only
    rw [hway, Option.getD_some]
    show "/" ++ (Path.mk (joinWith "/" ([] ++ down))).slashed ++ style.suffix = _
    rw [Path.slashed_joinWith hsegments]
  · rw [Path.beq_iff, htarget]
    exact Path.components_normalize_way hroot' hnames (Path.joinWith_not_absolute hsegments) (Path.inner_joinWith hsegments)

end

/-- A specifier that is formatted for a target, with its extension and from the directory of the file or from the root, is
resolved to that target, whatever other files are known, and ends with the suffix. -/
theorem resolve_format {root importer target : Path} (hroot : root.Normal) (himporter : root.Below importer)
    (htarget : root.Below target)
    (hplain : ∀ c ∈ root.componentsBelow target, '#' ∉ c.text.toList ∧ '?' ∉ c.text.toList) {k : KnownFiles}
    (hknown : k.isFile target = true) {style : SpecifierStyle} (hstyle : style.Explicit) (hsuffix : Suffix style.suffix) :
    (∃ p, k.resolve root importer (format style root importer target) = .resolved p style.base none ∧
      (p == target) = true) ∧ endsWith (format style root importer target) style.suffix = true := by
  obtain ⟨rs, ns, hnames, hne, hrs, hns, hbelow⟩ := htarget.names hroot
  have hplainNames : ∀ n ∈ ns, ∀ c ∈ n.toList, c ≠ '#' ∧ c ≠ '?' := by
    intro n hn c hc
    obtain ⟨hanchor, hquery⟩ := hplain (.name n) (hbelow ▸ List.mem_map_of_mem hn)
    exact ⟨fun h => hanchor (h ▸ hc), fun h => hquery (h ▸ hc)⟩
  have hformat : ∃ s p others, format style root importer target = s ++ style.suffix ∧ PathText s ∧
      KnownFiles.bases root importer s = (style.base, p) :: others ∧ (p == target) = true := by
    rcases hstyle.lead with ⟨hbase, hlead⟩ | ⟨hbase, hlead⟩
    · obtain ⟨is, _, dir, hdir, hcomponents, -⟩ := himporter.parent? hroot hrs
      exact format_dot hstyle hdir hnames hplainNames hcomponents hns hbase hlead
    · exact format_slash hstyle hnames hne hplainNames hrs hns hbase hlead
  obtain ⟨s, p, others, htext, hpath, hbases, hp⟩ := hformat
  rw [htext]
  refine ⟨⟨p, ?_, hp⟩, endsWith_append s style.suffix⟩
  exact KnownFiles.resolve_pathText hpath hsuffix hbases (KnownFiles.isFile_congr hp k ▸ hknown)

/-- From one directory to the next one, with an anchor, beside a file that the extension left out would mean. -/
theorem resolve_format_sibling :
    (∃ p, (KnownFiles.ofFiles ⟨"/r"⟩ [⟨"/r/c/d.js"⟩, ⟨"/r/c/d.js.ts"⟩]).resolve ⟨"/r"⟩ ⟨"/r/a/b.ts"⟩
        (format ⟨.importingFile, .dot, true, false, "#x"⟩ ⟨"/r"⟩ ⟨"/r/a/b.ts"⟩ ⟨"/r/c/d.js"⟩) =
          .resolved p .importingFile none ∧ (p == ⟨"/r/c/d.js"⟩) = true) ∧
      endsWith (format ⟨.importingFile, .dot, true, false, "#x"⟩ ⟨"/r"⟩ ⟨"/r/a/b.ts"⟩ ⟨"/r/c/d.js"⟩) "#x" = true :=
  resolve_format
    ⟨by decide +kernel, by decide +kernel⟩
    ⟨⟨by decide +kernel, by decide +kernel⟩, by decide +kernel, by decide +kernel⟩
    ⟨⟨by decide +kernel, by decide +kernel⟩, by decide +kernel, by decide +kernel⟩
    (by decide +kernel) (by decide +kernel) ⟨rfl, rfl, Or.inl ⟨rfl, rfl⟩⟩
    ⟨Or.inr (Or.inl (by decide +kernel)), by decide +kernel⟩

end Specifier

end Refactor
