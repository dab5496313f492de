import Refactor.Proofs.Path.Resolution
import Refactor.Proofs.Reference.Rewritten

/-!
# References that follow their targets

A reference that starts with a dot is written anew when it or its target moves. The way in which it stood for its target is
seen in its text again: what it showed of the name decides its style. So the new text stands for the new place of the target
in the same way, and it is resolved to it where no other file is meant by the same path.

* `KnownFiles.written_of_resolve` — where the extension that is written for another one comes from
* `Specifier.shows_infer` — the style of a resolved specifier can write its target
* `Moves.place` — where a path is after the moves
* `References.updated_resolves` — a reference is resolved to the new place of its target after the moves
-/

namespace Refactor

open Path (IsName)
open KnownFiles (implicitExtensions sourceExtensions variants pathPart)

/-! ## Last segments -/

namespace Path

/-- A path text whose last segment is a name leads to a path with that name, whatever its dots are. -/
theorem fileName?_normalize_join {dir : Path} (hdir : dir.isAbsolute = true) {t l : String}
    (ht : (Path.mk t).isAbsolute = false) (hl : IsName l) (hlast : (t.toList.splitOn '/').getLastD [] = l.toList) :
    (dir.join ⟨t⟩).normalize.fileName? = some l := by
  obtain ⟨front, hfront⟩ : ∃ front, t.toList.splitOn '/' = front ++ [l.toList] := by
    refine ⟨(t.toList.splitOn '/').dropLast, ?_⟩
    rw [← hlast, List.getLastD_eq_getLast?, List.getLast?_eq_getLast_of_ne_nil (List.splitOn_ne_nil _ _), Option.getD_some,
      List.dropLast_append_getLast]
  obtain ⟨cs, hcs⟩ : ∃ cs, inner t = cs ++ [.name l] := by
    refine ⟨(front.map String.ofList).filterMap innerComponent?, ?_⟩
    rw [inner, hfront, List.map_append, List.filterMap_append, List.map_singleton, String.ofList_toList, List.filterMap_cons,
      innerComponent?_of_not_blank hl.1.not_blank, componentOf_name hl]
    rfl
  have hbearing : ∃ b : Bearing, (dir.join ⟨t⟩).bearing = b.step (.name l) := by
    rw [bearing, components_join hdir ht, hcs, ← List.append_assoc, List.foldl_append]
    exact ⟨_, rfl⟩
  obtain ⟨b, hb⟩ := hbearing
  rw [fileName?, components_normalize_eq, hb]
  simp [Bearing.step, Bearing.folded, Bearing.components]

end Path

namespace Specifier

theorem lastSegment_eq (s : String) :
    ((pathPart s).toList.splitOn '/').getLastD [] = (lastSegment (splitSuffix s).1).toList ∧
      '/' ∉ (lastSegment (splitSuffix s).1).toList := by
  have htext : ((pathPart s).toList.splitOn '/').getLastD [] = (lastSegment (splitSuffix s).1).toList := by
    rw [lastSegment, pathPart, String.toList_ofList, String.toList_ofList]
  refine ⟨htext, ?_⟩
  rw [← htext, List.getLastD_eq_getLast?, List.getLast?_eq_getLast_of_ne_nil (List.splitOn_ne_nil _ _), Option.getD_some]
  exact Text.not_mem_of_mem_splitOn (List.getLast_mem _)

/-- A last segment that is longer than two dots is the last name of the path that is meant. -/
theorem fileName?_of_lastSegment {dir : Path} (hdir : dir.isAbsolute = true) {s : String}
    (hdot : SpecifierLead.ofText (pathPart s) = .dot) (hlong : 2 < (lastSegment (splitSuffix s).1).length) :
    (dir.join ⟨pathPart s⟩).normalize.fileName? = some (lastSegment (splitSuffix s).1) := by
  obtain ⟨htext, hslash⟩ := lastSegment_eq s
  refine Path.fileName?_normalize_join hdir (KnownFiles.relative_of_dot hdot) ⟨⟨?_, ?_, hslash⟩, ?_⟩ htext
  all_goals
    intro hshort
    rw [hshort] at hlong
    exact absurd hlong (by decide)

/-! ## What stands behind the path -/

theorem splitSuffix_toList (s : String) :
    (splitSuffix s).1.toList = (s.toList.takeWhile fun c => c != '#' && c != '?') ∧
      (splitSuffix s).2.toList = s.toList.dropWhile fun c => c != '#' && c != '?' := by
  rw [splitSuffix, List.span_eq_takeWhile_dropWhile]
  exact ⟨String.toList_ofList, String.toList_ofList⟩

theorem suffix_splitSuffix {s : String} (h : isExternal s = false) : Suffix (splitSuffix s).2 := by
  have hrest := (splitSuffix_toList s).2
  constructor
  · cases hlist : (splitSuffix s).2.toList with
    | nil => exact Or.inl (String.toList_eq_nil_iff.mp hlist)
    | cons c rest =>
      have hc := List.head?_dropWhile_not (fun c => c != '#' && c != '?') s.toList
      rw [← hrest, hlist] at hc
      have hmark : c = '#' ∨ c = '?' := by simpa [or_iff_not_imp_left] using hc
      have hlead : ∀ m : String, m.toList <+: c :: rest → startsWith (splitSuffix s).2 m = true := by
        intro m hm
        rw [startsWith, hlist]
        exact List.isPrefixOf_iff_prefix.mpr hm
      refine Or.inr (hmark.imp ?_ ?_) <;> rintro rfl <;> exact hlead _ ⟨rest, rfl⟩
  · have hscheme : occursIn "://" s = false := by
      unfold isExternal at h
      simp only [Bool.or_eq_false_iff] at h
      exact h.1.1.1.1
    rw [occursIn, ← Bool.not_eq_true, Text.contains_iff_infix] at hscheme ⊢
    rw [hrest]
    exact fun hoccurs => hscheme (hoccurs.trans (List.dropWhile_suffix _).isInfix)

/-- A path text starts with a dot when one or two dots stand before a slash or alone. -/
theorem lead_eq_dot_iff {t : String} : SpecifierLead.ofText t = .dot ↔ ∃ dots rest : List Char,
    (dots = ['.'] ∨ dots = ['.', '.']) ∧ (∀ c ∈ rest.head?, c = '/') ∧ t.toList = dots ++ rest := by
  constructor
  · intro h
    rcases KnownFiles.dot_cases h with h | rfl | rfl
    · rw [Bool.or_eq_true] at h
      rcases h with h | h <;> obtain ⟨rest, hrest⟩ := List.isPrefixOf_iff_prefix.mp h
      · exact ⟨['.'], '/' :: rest, Or.inl rfl, by simp, by rw [← hrest]; rfl⟩
      · exact ⟨['.', '.'], '/' :: rest, Or.inr rfl, by simp, by rw [← hrest]; rfl⟩
    · exact ⟨['.'], [], Or.inl rfl, by simp, rfl⟩
    · exact ⟨['.', '.'], [], Or.inr rfl, by simp, rfl⟩
  · rintro ⟨dots, rest, hdots, hrest, htext⟩
    have ht : t = String.ofList (dots ++ rest) := String.toList_injective (htext.trans String.toList_ofList.symm)
    subst ht
    unfold SpecifierLead.ofText
    refine if_pos ?_
    cases rest with
    | nil => rcases hdots with rfl | rfl <;> decide
    | cons c rest =>
      obtain rfl := hrest c rfl
      rcases hdots with rfl | rfl <;> simp [startsWith, List.isPrefixOf]

theorem lead_pathPart {s : String} (h : SpecifierLead.ofText (splitSuffix s).1 = .dot) :
    SpecifierLead.ofText (pathPart s) = .dot := by
  obtain ⟨slashes, hslashes, hsplit⟩ : ∃ slashes : List Char, (∀ c ∈ slashes, c = '/') ∧
      (splitSuffix s).1.toList = (pathPart s).toList ++ slashes := by
    refine ⟨((splitSuffix s).1.toList.reverse.takeWhile (· == '/')).reverse, fun c hc => ?_, ?_⟩
    · simpa using List.mem_takeWhile_imp (List.mem_reverse.mp hc)
    · rw [pathPart, String.toList_ofList, Text.dropWhileEnd, ← List.reverse_append, List.takeWhile_append_dropWhile,
        List.reverse_reverse]
  rw [lead_eq_dot_iff] at h ⊢
  obtain ⟨dots, rest, hdots, hrest, htext⟩ := h
  rcases List.append_eq_append_iff.mp (hsplit.symm.trans htext) with ⟨front, hfront, hback⟩ | ⟨back, hback, hfront⟩
  · -- the dots would end in a slash
    cases front using List.reverseRecOn with
    | nil => exact ⟨dots, [], hdots, by simp, by rw [hfront, List.append_nil, List.append_nil]⟩
    | append_singleton front c =>
      obtain rfl := hslashes c (by simp [hback])
      rw [← List.append_assoc] at hfront
      have hlast := congrArg List.getLast? hfront
      rw [List.getLast?_concat] at hlast
      rcases hdots with rfl | rfl <;> cases hlast
  · refine ⟨dots, back, hdots, fun c hc => hrest c ?_, hback⟩
    rw [hfront, List.head?_append, Option.mem_def.mp hc]
    rfl

end Specifier

namespace KnownFiles

/-! ## Extensions that are written for others -/

/-- What a specifier is resolved to with another extension is tried for a place that it may mean. -/
theorem written_of_resolve {k : KnownFiles} {root importer target : Path} {base : SpecifierBase} {s x : String}
    (h : k.resolve root importer s = .resolved target base (some x)) :
    ∃ p, (base, p) ∈ bases root importer (pathPart s) ∧ (target, some x) ∈ variants p := by
  have hplaces : k.answer (bases root importer (pathPart s)) = .resolved target base (some x) := by
    rw [resolve_eq_answer] at h
    split at h
    · cases h
    · split at h
      · cases h
      · exact h
  unfold answer at hplaces
  cases hexactly : k.exactly? (bases root importer (pathPart s)) with
  | some resolution =>
    rw [hexactly, Option.getD_some] at hplaces
    obtain ⟨b, -, heq⟩ := Option.map_eq_some_iff.mp hexactly
    cases heq.trans hplaces
  | none =>
    rw [hexactly, Option.getD_none] at hplaces
    cases hextension : k.byExtension? (bases root importer (pathPart s)) with
    | some resolution =>
      rw [hextension, Option.getD_some] at hplaces
      obtain ⟨⟨b, p⟩, hmem, hfound⟩ := List.exists_of_findSome?_eq_some hextension
      obtain ⟨⟨v, ext⟩, hv, heq⟩ := Option.map_eq_some_iff.mp hfound
      cases heq.trans hplaces
      exact ⟨p, hmem, List.mem_of_find?_eq_some hv⟩
    | none =>
      rw [hextension, Option.getD_none] at hplaces
      cases hdirectory : k.byDirectory? (bases root importer (pathPart s)) with
      | some resolution =>
        rw [hdirectory, Option.getD_some] at hplaces
        obtain ⟨⟨b, p⟩, -, heq⟩ := Option.map_eq_some_iff.mp hdirectory
        subst heq
        dsimp only at hplaces
        split at hplaces <;> cases hplaces
      | none =>
        rw [hdirectory, Option.getD_none, byCase] at hplaces
        dsimp only at hplaces
        split at hplaces <;> cases hplaces

theorem isExternal_of_resolve {k : KnownFiles} {root importer target : Path} {base : SpecifierBase} {s : String}
    {w : Option String} (h : k.resolve root importer s = .resolved target base w) : Specifier.isExternal s = false := by
  rw [resolve_eq_answer] at h
  split at h
  · cases h
  · rename_i hlocal
    simpa using hlocal

end KnownFiles

/-- A path that writes another extension stands for a source with the same stem. -/
theorem StandsFor.written {ds fs : List Component} {x : String} (h : StandsFor ds fs (some x)) :
    ∃ cs stem es e, stem ≠ "" ∧ (x, es) ∈ sourceExtensions ∧ e ∈ es ∧
      ds = cs ++ [.name (stem ++ "." ++ x)] ∧ fs = cs ++ [.name (stem ++ "." ++ e)] := by
  cases h with
  | replaced cs stem hstem hx he => exact ⟨cs, stem, _, _, hstem, hx, he, rfl, rfl⟩

namespace KnownFiles

/-- A specifier that starts with a dot writes another extension only for that of a source next to it. -/
theorem standsFor_of_resolve {root importer dir target : Path} (hroot : root.Normal) {files : List Path}
    (hfiles : ∀ f ∈ files, root.Below f) (hdir : importer.parent? = some dir) (habs : dir.isAbsolute = true) {s x : String}
    (hdot : SpecifierLead.ofText (pathPart s) = .dot) {base : SpecifierBase}
    (h : (ofFiles root files).resolve root importer s = .resolved target base (some x))
    (hknown : (ofFiles root files).isFile target = true) :
    StandsFor ((dir.join ⟨pathPart s⟩).normalize).components target.components (some x) := by
  obtain ⟨p, hp, hvariant⟩ := written_of_resolve h
  obtain ⟨others, hbases, hothers⟩ := bases_dot root hdir hdot
  rw [hbases, List.mem_cons] at hp
  rcases hp with hp | hp
  · rw [Prod.mk.injEq] at hp
    rw [hp.2] at hvariant
    exact standsFor_of_mem_variants (Path.isAbsolute_normalize (Path.isAbsolute_join habs)) hvariant
  · obtain ⟨ht, hplace⟩ := hothers _ hp
    dsimp only at hplace
    rw [hplace] at hvariant
    have hsilent := (silent_root hroot hfiles ht).2 _ hvariant
    rw [hknown] at hsilent
    cases hsilent

end KnownFiles

/-! ## Styles of resolved specifiers -/

theorem lowered_toList (s : String) : (lowered s).toList = s.toList.map Char.toLower := String.toList_ofList

/-- Letter case aside, a name with the extension of a source is not that with the extension written for it. -/
theorem lowered_written_ne {stem x e : String} {es : List String} (hx : (x, es) ∈ sourceExtensions) (he : e ∈ es) :
    lowered (stem ++ "." ++ x) ≠ lowered (stem ++ "." ++ e) := by
  have hall : ∀ y ∈ sourceExtensions, ∀ e ∈ y.2, y.1.toList.map Char.toLower ≠ e.toList.map Char.toLower := by decide
  intro hsame
  have hlist := congrArg String.toList hsame
  simp only [lowered_toList, String.toList_append, List.map_append] at hlist
  exact hall _ hx e he (List.append_cancel_left hlist)

namespace SpecifierStyle

variable {s : String} {base : SpecifierBase} {target : Path}

/-- The last segment of a specifier and the name of its target decide what is shown of the name. -/
theorem infer_eq (s : String) (base : SpecifierBase) (target : Path) : infer s base target =
    { base, suffix := (Specifier.splitSuffix s).2, lead := .ofText (Specifier.splitSuffix s).1
      explicitExtension := lowered (Specifier.lastSegment (Specifier.splitSuffix s).1) == lowered (target.fileName?.getD "") &&
        target.extension?.isSome
      index := target.fileStem?.getD "" == "index" &&
        lowered (Specifier.lastSegment (Specifier.splitSuffix s).1) != lowered (target.fileName?.getD "") &&
        lowered (Specifier.lastSegment (Specifier.splitSuffix s).1) != lowered (target.fileStem?.getD "") } := rfl

theorem infer_lead (s : String) (base : SpecifierBase) (target : Path) :
    (infer s base target).lead = .ofText (Specifier.splitSuffix s).1 := by
  rw [infer_eq]

theorem infer_itself (h : (infer s base target).explicitExtension = true) :
    (infer s base target).index = false ∧ target.extension?.isSome = true := by
  rw [infer_eq] at h ⊢
  dsimp only at h ⊢
  obtain ⟨hlast, hextension⟩ := Bool.and_eq_true_iff.mp h
  rw [beq_iff_eq.mp hlast, bne_self_eq_false, Bool.and_false, Bool.false_and]
  exact ⟨rfl, hextension⟩

/-- A specifier that shows the extension of its target or leaves out one that may be left out has a style in which every
target with that extension can be written. -/
theorem shows_infer {target' : Path} (hextension : target'.extension? = target.extension?)
    (hshown : lowered (Specifier.lastSegment (Specifier.splitSuffix s).1) = lowered (target.fileName?.getD "") ∨
      ∃ e ∈ implicitExtensions, target.extension? = some e) : (infer s base target).Shows target' none where
  itself h := ⟨(infer_itself h).1, rfl⟩
  left_out h _ := by
    rw [hextension]
    refine hshown.symm.imp_right fun hlast => ?_
    rw [infer_eq] at h ⊢
    dsimp only at h ⊢
    rw [hlast, beq_self_eq_true, Bool.true_and] at h
    rw [hlast, bne_self_eq_false, Bool.and_false, Bool.false_and]
    exact ⟨by simpa using h, rfl⟩
  replaced _ := by simp

/-- A specifier that writes another extension does not show that of its target. -/
theorem infer_written {dir : Path} (hdir : dir.isAbsolute = true) (hdot : SpecifierLead.ofText (pathPart s) = .dot)
    {x : String} (hstands : StandsFor ((dir.join ⟨pathPart s⟩).normalize).components target.components (some x)) :
    (infer s base target).explicitExtension = false ∧
      ∃ es, (x, es) ∈ sourceExtensions ∧ ∃ e ∈ es, target.extension? = some e := by
  obtain ⟨cs, stem, es, e, hstem, hx, he, hpath, htarget⟩ := hstands.written
  have hpathName : (dir.join ⟨pathPart s⟩).normalize.fileName? = some (stem ++ "." ++ x) := by
    rw [Path.fileName?, hpath, List.getLast?_concat]
  have hname : target.fileName? = some (stem ++ "." ++ e) := by
    rw [Path.fileName?, htarget, List.getLast?_concat]
  have hdiffers : lowered (Specifier.lastSegment (Specifier.splitSuffix s).1) ≠ lowered (stem ++ "." ++ e) := by
    intro hsame
    by_cases hlong : 2 < (Specifier.lastSegment (Specifier.splitSuffix s).1).length
    · have hlast := (Specifier.fileName?_of_lastSegment hdir hdot hlong).symm.trans hpathName
      rw [Option.some.inj hlast] at hsame
      exact lowered_written_ne hx he hsame
    · -- the name of the target has at least three characters
      have hlength := congrArg (fun s => s.toList.length) hsame
      simp only [lowered_toList, List.length_map, String.length_toList, String.length_append] at hlength
      have hpos : ∀ {t : String}, t ≠ "" → 0 < t.length := fun ht => Nat.pos_of_ne_zero (mt String.length_eq_zero_iff.mp ht)
      have hdot : ".".length = 1 := rfl
      have := hpos hstem
      have := hpos (IsKnownExtension.plain (Or.inr ⟨_, hx, Or.inr he⟩)).1
      omega
  refine ⟨?_, es, hx, e, he, ?_⟩
  · rw [infer_eq]
    dsimp only
    rw [hname, Option.getD_some, beq_eq_false_iff_ne.mpr hdiffers, Bool.false_and]
  · rw [Path.extension?, hname, Option.bind_some, cutName_dotted hstem (Or.inr ⟨_, hx, Or.inr he⟩)]

/-- A specifier that writes another extension has a style in which every target with that extension can be written, unless
it stands for an index file. -/
theorem shows_infer_written {dir : Path} (hdir : dir.isAbsolute = true) (hdot : SpecifierLead.ofText (pathPart s) = .dot)
    {x : String} (hstands : StandsFor ((dir.join ⟨pathPart s⟩).normalize).components target.components (some x))
    {target' : Path} (hextension : target'.extension? = target.extension?) (hindex : target.fileStem? ≠ some "index") :
    (infer s base target).Shows target' (some x) := by
  obtain ⟨hexplicit, hsource⟩ :=
    (infer_written hdir hdot hstands : (infer s base target).explicitExtension = false ∧ _)
  have hstem : (target.fileStem?.getD "" == "index") = false := by
    rw [beq_eq_false_iff_ne]
    intro hsame
    cases hfile : target.fileStem? with
    | none =>
      rw [hfile] at hsame
      exact absurd hsame (by decide)
    | some stem =>
      rw [hfile, Option.getD_some] at hsame
      exact hindex (hfile.trans (congrArg some hsame))
  refine ⟨fun h => absurd (hexplicit.symm.trans h) (by simp), fun _ h => by simp at h, fun _ y hy => ?_⟩
  obtain rfl := Option.some.inj hy
  refine ⟨?_, by rwa [hextension]⟩
  rw [infer_eq]
  dsimp only
  rw [hstem, Bool.false_and, Bool.false_and]

end SpecifierStyle

/-! ## Places after moves -/

def Moves.place (m : Moves) (p : Path) : Path := (m.newLocation? p).getD p

namespace Path

variable {p q : Path} (h : p.components = q.components)

include h

theorem startsWith_congr (old : Path) : p.startsWith old = q.startsWith old := by
  rw [startsWith, startsWith, h]

theorem normalize_congr : p.normalize = q.normalize := by
  rw [normalize, normalize, h]

/-- Texts of one path are at one place below another directory. -/
theorem rebase?_congr (hp : p.isAbsolute = true) {old new : Path} (hold : old.isAbsolute = true)
    (hnew : new.isAbsolute = true) : (p.rebase? old new).map components = (q.rebase? old new).map components := by
  have hsome := (rebase?_isSome p old new).trans ((startsWith_congr h old).trans (rebase?_isSome q old new).symm)
  cases hplace : p.rebase? old new with
  | none =>
    rw [hplace, Option.isSome_none] at hsome
    rw [Option.isSome_eq_false_iff.mp hsome.symm |> Option.isNone_iff_eq_none.mp]
  | some p' =>
    rw [hplace, Option.isSome_some] at hsome
    obtain ⟨q', hq'⟩ := Option.isSome_iff_exists.mp hsome.symm
    rw [hq', Option.map_some, Option.map_some, components_rebase? hp hold hnew hplace,
      components_rebase? ((isAbsolute_congr h).symm.trans hp) hold hnew hq', h]

end Path

/-- Texts of one path are at one place after the moves. -/
theorem Moves.place_congr {m : Moves} (hdirs : ∀ d ∈ m.dirs, d.1.isAbsolute = true ∧ d.2.isAbsolute = true) {p q : Path}
    (hp : p.isAbsolute = true) (h : p.components = q.components) : (m.place p).components = (m.place q).components := by
  have hbelow : ∀ {ds : List (Path × Path)}, (∀ d ∈ ds, d.1.isAbsolute = true ∧ d.2.isAbsolute = true) →
      (ds.findSome? fun d => p.rebase? d.1 d.2).map Path.components =
        (ds.findSome? fun d => q.rebase? d.1 d.2).map Path.components := by
    intro ds
    induction ds with
    | nil => exact fun _ => rfl
    | cons d ds ih =>
      intro hds
      rw [List.forall_mem_cons] at hds
      have hd := Path.rebase?_congr h hp hds.1.1 hds.1.2
      rw [List.findSome?_cons, List.findSome?_cons]
      cases hplace : p.rebase? d.1 d.2 <;> cases hplace' : q.rebase? d.1 d.2 <;> rw [hplace, hplace'] at hd
      · exact ih hds.2
      · cases hd
      · cases hd
      · exact hd
  unfold place
  rw [← Option.getD_map Path.components, ← Option.getD_map Path.components, h, newLocation?, newLocation?, Option.map_or,
    Option.map_or, PathMap.find?_congr h]
  exact congrArg (fun found => Option.getD (Option.or _ found) _) (hbelow hdirs)

/-! ## Updated specifiers -/

namespace References

/-- The text of a specifier after its update. -/
def SpecifierUpdate.textOf (old : String) : SpecifierUpdate → String
  | .changed new => new
  | .unchanged | .ambiguous _ | .unresolved => old

/-- The text of a specifier in a file after the moves. -/
def updated (r : References) (known : KnownFiles) (m : Moves) (importer : Path) (s : String) : String :=
  (r.updateSpecifier known m importer (m.place importer) s).textOf s

/-- The style in which a specifier is written anew: a directory is named by itself. -/
def styleOf (known : KnownFiles) (s : String) (base : SpecifierBase) (target : Path) : SpecifierStyle :=
  if known.isDir target then { SpecifierStyle.infer s base target with explicitExtension := true, index := false }
  else .infer s base target

/-- What a reference needs to follow its target. -/
structure Follows (r : References) (known : KnownFiles) (m : Moves) (importer target : Path) (s : String)
    (w : Option String) : Prop where
  extension : (m.place target).extension? = target.extension?
  /-- The names of the new place can be written. -/
  plain : ∀ n, .name n ∈ r.root.componentsBelow (m.place target) → Specifier.Plain n
  /-- The extension is shown or may be left out. -/
  shown : w = none → lowered (Specifier.lastSegment (Specifier.splitSuffix s).1) = lowered (target.fileName?.getD "") ∨
    ∃ e ∈ implicitExtensions, target.extension? = some e
  /-- Another extension is written behind a name that the path does not lose. -/
  written : ∀ x ∈ w, target.fileStem? ≠ some "index" ∧ known.isDir target = false ∧
    (m.place importer).startsWith ((m.place target).withExtension "") = false
  /-- Where nothing moves, the target is not found by its letters alone. -/
  unmoved : (m.place target == target) = true → (m.place importer == importer) = true → ∀ dir, importer.parent? = some dir →
    StandsFor ((dir.join ⟨pathPart s⟩).normalize).components target.components w

section

variable {r : References} {known : KnownFiles} {m : Moves} {importer target : Path} {s : String} {base : SpecifierBase}
  {w : Option String}

/-- Whether neither the target nor, for a reference from the directory of its file, the file moves. -/
def unmoved (m : Moves) (importer target : Path) (base : SpecifierBase) : Bool :=
  m.place target == target && (m.place importer == importer || base == .projectRoot)

theorem updated_of_resolved (hresolve : known.resolve r.root importer s = .resolved target base w) :
    r.updated known m importer s = if unmoved m importer target base then s
      else dress s (Specifier.format (styleOf known s base target) r.root (m.place importer) (m.place target)) w := by
  unfold updated updateSpecifier
  rw [hresolve]
  dsimp only
  change SpecifierUpdate.textOf s (if unmoved m importer target base = true then _ else _) = _
  split
  · rfl
  · change SpecifierUpdate.textOf s (if (dress s (Specifier.format (styleOf known s base target) r.root (m.place importer)
      (m.place target)) w == s) = true then _ else _) = _
    split
    · rename_i hsame
      exact (beq_iff_eq.mp hsame).symm
    · rfl

variable (known s base target) in
theorem styleOf_spec : (styleOf known s base target).base = base ∧
    (styleOf known s base target).lead = .ofText (Specifier.splitSuffix s).1 ∧
    (styleOf known s base target).suffix = (Specifier.splitSuffix s).2 := by
  rw [styleOf, SpecifierStyle.infer_eq]
  split <;> simp only [and_self]

end

section

variable {r : References} (hroot : r.root.Normal) {files : List Path} (hfiles : ∀ f ∈ files, r.root.Below f) {m : Moves}
  {importer target : Path} {s : String} {w : Option String} (hlead : SpecifierLead.ofText (Specifier.splitSuffix s).1 = .dot)

include hroot hfiles hlead

/-- The style of a reference that can follow its target writes the new place. -/
theorem Follows.shows (h : r.Follows (.ofFiles r.root files) m importer target s w) {base : SpecifierBase} {dir : Path}
    (hdir : importer.parent? = some dir) (habs : dir.isAbsolute = true)
    (hresolve : (KnownFiles.ofFiles r.root files).resolve r.root importer s = .resolved target base w)
    (hknown : (KnownFiles.ofFiles r.root files).isFile target = true) :
    (styleOf (.ofFiles r.root files) s base target).Shows (m.place target) w := by
  have hdot := Specifier.lead_pathPart hlead
  unfold styleOf
  cases w with
  | none =>
    split
    · exact ⟨fun _ => ⟨rfl, rfl⟩, by simp, by simp⟩
    · exact SpecifierStyle.shows_infer h.extension (h.shown rfl)
  | some x =>
    obtain ⟨hindex, hfile, -⟩ := h.written x rfl
    rw [hfile, if_neg (by simp)]
    exact SpecifierStyle.shows_infer_written habs hdot
      (KnownFiles.standsFor_of_resolve hroot hfiles hdir habs hdot hresolve hknown) h.extension hindex

variable (hplaces : ∀ f ∈ files, r.root.Below (m.place f)) (hdirs : ∀ d ∈ m.dirs, d.1.isAbsolute = true ∧ d.2.isAbsolute = true)
  (himporter : importer ∈ files)
  (hresolve : (KnownFiles.ofFiles r.root files).resolve r.root importer s = .resolved target .importingFile w)
  (hknown : (KnownFiles.ofFiles r.root files).isFile target = true)
  (hfollows : r.Follows (.ofFiles r.root files) m importer target s w)

include hplaces hdirs hknown

omit hlead hroot in
theorem isFile_place : r.root.Below (m.place target) ∧
    (KnownFiles.ofFiles r.root (files.map m.place)).isFile (m.place target) = true := by
  obtain ⟨g, hg, htarget⟩ := ((KnownFiles.records_ofFiles r.root files).isFile target).mp hknown
  rw [Path.beq_iff] at htarget
  have hplace : (m.place target).components = (m.place g).components :=
    m.place_congr hdirs ((hfiles g hg).congr htarget).absolute htarget
  refine ⟨(hplaces g hg).congr hplace, ((KnownFiles.records_ofFiles _ _).isFile _).mpr ⟨_, List.mem_map_of_mem hg, ?_⟩⟩
  exact (Path.beq_iff _ _).mpr hplace

include himporter hresolve hfollows

/-- The text that a reference gets when something moves. -/
theorem updated_written (hmoves : unmoved m importer target .importingFile = false) :
    ∃ dir n up down, (m.place importer).parent? = some dir ∧ (m.place importer).components = dir.components ++ [.name n] ∧
      dir.isAbsolute = true ∧ Specifier.WrittenAnew dir (styleOf (.ofFiles r.root files) s .importingFile target) (m.place target)
        w s (r.updated (.ofFiles r.root files) m importer s) up down := by
  obtain ⟨rs, ns, hnames, hne, hrs, hns, hbelow⟩ := (isFile_place hfiles hplaces hdirs hknown).1.names hroot
  obtain ⟨_, _, dir, hdir, hcomponents, -⟩ := (hfiles importer himporter).parent? hroot hrs
  obtain ⟨_, n, dir', hdir', hcomponents', himporterComponents'⟩ := (hplaces importer himporter).parent? hroot hrs
  obtain ⟨hbase, hstyleLead, hsuffix⟩ := styleOf_spec (.ofFiles r.root files) target s .importingFile
  have hplain : ∀ n ∈ ns, Specifier.Plain n := fun n hn => hfollows.plain n (hbelow ▸ List.mem_map_of_mem hn)
  have hapart : ∀ x ∈ w, ¬ ((m.place target).withExtension "").components <+: dir'.components := by
    intro x hx hprefix
    have hnot := (hfollows.written x hx).2.2
    rw [← Bool.not_eq_true, Path.startsWith_iff] at hnot
    exact hnot (himporterComponents' ▸ hprefix.trans (List.prefix_append _ _))
  obtain ⟨up, down, hwritten⟩ := Specifier.dress_format r.root hdir' hbase (hstyleLead.trans hlead)
    (hsuffix ▸ Specifier.suffix_splitSuffix (KnownFiles.isExternal_of_resolve hresolve))
    (fun n hn => hnames n (List.mem_append_left _ hn)) hcomponents' hns hne hplain
    (hfollows.shows hroot hfiles hlead hdir (Path.isAbsolute_of_components hcomponents) hresolve hknown) hapart s
  refine ⟨dir', n, up, down, hdir', himporterComponents', Path.isAbsolute_of_components hcomponents', ?_⟩
  rw [updated_of_resolved hresolve, hmoves, if_neg (by simp)]
  exact hwritten

/-- A reference that is resolved to a project file before the moves and can follow it is resolved after them, in the new
place of its own file and with its updated text, to the new place of that file. -/
theorem updated_resolves (hrivals : KnownFiles.Unrivalled (files.map m.place) (m.place target)) :
    ∃ q, (KnownFiles.ofFiles r.root (files.map m.place)).resolve r.root (m.place importer)
        (r.updated (.ofFiles r.root files) m importer s) = .resolved q .importingFile w ∧ (q == m.place target) = true := by
  have hlocal := KnownFiles.isExternal_of_resolve hresolve
  have hplaces' : ∀ f ∈ files.map m.place, r.root.Below f := by
    intro f hf
    obtain ⟨g, hg, rfl⟩ := List.mem_map.mp hf
    exact hplaces g hg
  have hknown' := (isFile_place hfiles hplaces hdirs hknown).2
  cases hmoves : unmoved m importer target .importingFile with
  | true =>
    -- nothing moves, and the text is what it was
    rw [updated_of_resolved hresolve, hmoves, if_pos rfl]
    obtain ⟨hstays, himporterStays⟩ := Bool.and_eq_true_iff.mp hmoves
    have himporterStays : (m.place importer == importer) = true :=
      (Bool.or_eq_true_iff.mp himporterStays).resolve_right (by decide)
    have hdot := Specifier.lead_pathPart hlead
    obtain ⟨rs, _, _, _, hrs, _, _⟩ := (hfiles importer himporter).names hroot
    obtain ⟨_, _, dir, hdir, hcomponents, himporterComponents⟩ := (hfiles importer himporter).parent? hroot hrs
    obtain ⟨_, _, dir', hdir', hcomponents', himporterComponents'⟩ := (hplaces importer himporter).parent? hroot hrs
    have habs' := Path.isAbsolute_of_components hcomponents'
    have hsame : dir'.components = dir.components := by
      have hboth := (Path.beq_iff _ _).mp himporterStays
      rw [himporterComponents, himporterComponents'] at hboth
      exact (List.append_inj' hboth rfl).1
    have hjoin : (dir'.join ⟨pathPart s⟩).components = (dir.join ⟨pathPart s⟩).components := by
      rw [Path.components_join habs' (KnownFiles.relative_of_dot hdot),
        Path.components_join (Path.isAbsolute_of_components hcomponents) (KnownFiles.relative_of_dot hdot), hsame]
    have hstands := hfollows.unmoved hstays himporterStays dir hdir
    rw [← (Path.beq_iff _ _).mp hstays, ← Path.normalize_congr hjoin] at hstands
    exact KnownFiles.resolve_of_unrivalled hroot hplaces' hdir' habs' hlocal rfl hdot hstands hknown' hrivals
  | false =>
    obtain ⟨dir, _, up, down, hdir, -, habs, hwritten⟩ :=
      updated_written hroot hfiles hlead hplaces hdirs himporter hresolve hknown hfollows hmoves
    obtain ⟨hpath, hlocal'⟩ := hwritten.pathPart_text
      ((styleOf_spec _ _ _ _).2.2 ▸ Specifier.suffix_splitSuffix hlocal)
    exact KnownFiles.resolve_of_unrivalled hroot hplaces' hdir habs hlocal' hpath (Specifier.lead_dotted up down)
      hwritten.stands hknown' hrivals

end

def inR : References := { root := ⟨"/r"⟩, registry := [], ignoredDirs := [], textExtensions := [], maxFileSize := 0 }

def sourceFiles : List Path := [⟨"/r/app/main.ts"⟩, ⟨"/r/a.ts"⟩]

def sourceMove : Moves := { files := [(⟨"/r/a.ts"⟩, ⟨"/r/lib/a.ts"⟩)] }

theorem below_source : ∀ f ∈ sourceFiles, inR.root.Below f ∧ inR.root.Below (sourceMove.place f) := by
  intro f hf
  rcases List.mem_pair.mp hf with rfl | rfl <;>
    exact ⟨⟨⟨by decide +kernel, by decide +kernel⟩, by decide +kernel, by decide +kernel⟩,
      ⟨⟨by decide +kernel, by decide +kernel⟩, by decide +kernel, by decide +kernel⟩⟩

/-- The source can be followed where it is referred to with the extension of its outcome. -/
theorem follows_source : inR.Follows (.ofFiles ⟨"/r"⟩ sourceFiles) sourceMove ⟨"/r/app/main.ts"⟩ ⟨"/r/a.ts"⟩ "../a.js?raw"
    (some "js") := by
  refine ⟨by decide +kernel, ?_, by simp, ?_, fun hstays => absurd hstays (by decide +kernel)⟩
  · have hnames : inR.root.componentsBelow (sourceMove.place ⟨"/r/a.ts"⟩) = [.name "lib", .name "a.ts"] := by decide +kernel
    rw [hnames]
    intro n hn
    have hn : n = "lib" ∨ n = "a.ts" := by simpa using hn
    rcases hn with rfl | rfl <;> exact ⟨by decide, by simp, by decide +kernel⟩
  · rintro _ ⟨⟩
    decide +kernel

/-- With a query behind the extension of the outcome. -/
theorem updated_resolves_source :
    (KnownFiles.ofFiles ⟨"/r"⟩ sourceFiles).resolve ⟨"/r"⟩ ⟨"/r/app/main.ts"⟩ "../a.js?raw" =
      .resolved ⟨"/r/a.ts"⟩ .importingFile (some "js") ∧
    inR.updated (.ofFiles ⟨"/r"⟩ sourceFiles) sourceMove ⟨"/r/app/main.ts"⟩ "../a.js?raw" = "../lib/a.js?raw" ∧
    ∃ q, (KnownFiles.ofFiles ⟨"/r"⟩ [⟨"/r/app/main.ts"⟩, ⟨"/r/lib/a.ts"⟩]).resolve ⟨"/r"⟩ ⟨"/r/app/main.ts"⟩ "../lib/a.js?raw" =
      .resolved q .importingFile (some "js") ∧ (q == ⟨"/r/lib/a.ts"⟩) = true := by
  have hresolve : (KnownFiles.ofFiles ⟨"/r"⟩ sourceFiles).resolve ⟨"/r"⟩ ⟨"/r/app/main.ts"⟩ "../a.js?raw" =
      .resolved ⟨"/r/a.ts"⟩ .importingFile (some "js") := by decide +kernel
  have htext : inR.updated (.ofFiles ⟨"/r"⟩ sourceFiles) sourceMove ⟨"/r/app/main.ts"⟩ "../a.js?raw" = "../lib/a.js?raw" := by
    decide +kernel
  have hresolves := updated_resolves (r := inR) ⟨by decide +kernel, by decide +kernel⟩ (fun f hf => (below_source f hf).1)
    (by decide +kernel) (fun f hf => (below_source f hf).2) (by decide) List.mem_cons_self hresolve (by decide +kernel)
    follows_source (KnownFiles.unrivalled_of_spellings (by decide +kernel))
  exact ⟨hresolve, htext, htext ▸ hresolves⟩

end References

end Refactor
