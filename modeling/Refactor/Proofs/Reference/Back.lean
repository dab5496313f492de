import Refactor.Proofs.Reference.Exact

/-!
# References that come back

What is written anew shows of the name what the old text showed, so its style is inferred again from it. Once all files are
back in their places, a reference gets the text that is written for its target there, and that is the old one when it was
written so in the first place. With its references, a file gets its text back.

* `Specifier.lastSegment_written` — the last segment of a specifier that is written anew
* `SpecifierStyle.infer_written_anew` — its style is the one in which it is written
* `References.updated_back` — the moves and the moves back leave the text of a reference as it was
* `References.planRefs_back` — and that of a file
-/

namespace Refactor

open Path (IsName way)
open KnownFiles (implicitExtensions sourceExtensions variants pathPart)

/-! ## Letter case -/

theorem length_lowered (s : String) : (lowered s).length = s.length := by
  rw [← String.length_toList, lowered_toList, List.length_map, String.length_toList]

theorem lowered_ne_of_length {s t : String} (h : s.length ≠ t.length) : lowered s ≠ lowered t := by
  intro hsame
  have hlength := congrArg String.length hsame
  rw [length_lowered, length_lowered] at hlength
  exact h hlength

/-! ## Last segments of ways -/

namespace Specifier

def steps (up down : List String) : List String := if up = [] then "." :: down else way up down

theorem dotted_eq_joinWith (up down : List String) : dotted up down = joinWith "/" (steps up down) := by
  unfold dotted steps
  split
  · cases down <;> rfl
  · rfl

section

variable {up down : List String} (hdown : ∀ n ∈ down, Plain n)

include hdown

theorem splitOn_dotted : (dotted up down).toList.splitOn '/' = (steps up down).map String.toList := by
  have hslash : ∀ l ∈ (steps up down).map String.toList, '/' ∉ l := by
    intro l hl
    obtain ⟨t, ht, rfl⟩ := List.mem_map.mp hl
    unfold steps at ht
    split at ht
    · rcases List.mem_cons.mp ht with rfl | ht
      · decide
      · exact (hdown t ht).name.1.2.2
    · exact (Path.isSegment_way up (fun n hn => (hdown n hn).name) t ht).2.2
  have hne : (steps up down).map String.toList ≠ [] := by
    unfold steps
    split
    · simp
    · rename_i hup
      simp [way, hup]
  rw [dotted_eq_joinWith, joinWith_toList, List.splitOn_intercalate _ hslash hne]

/-- The last segment of the text of a way is its last step. -/
theorem lastSegment_dotted {suffix : String} (hsuffix : Suffix suffix) (old : String) :
    (steps up down).getLast? = some (lastSegment (splitSuffix (dotted up down ++ slashOf old ++ suffix)).1) := by
  obtain ⟨hlast, -⟩ := lastSegment_eq (dotted up down ++ slashOf old ++ suffix)
  rw [(pathPart_dotted hdown hsuffix old).1, splitOn_dotted hdown] at hlast
  cases hsteps : (steps up down).getLast? with
  | none =>
    have hnil := congrArg (List.map String.toList) (List.getLast?_eq_none_iff.mp hsteps)
    rw [← splitOn_dotted hdown] at hnil
    exact absurd hnil (List.splitOn_ne_nil _ _)
  | some t =>
    rw [List.getLastD_eq_getLast?, List.getLast?_map, hsteps, Option.map_some, Option.getD_some] at hlast
    rw [String.toList_injective hlast]

end

section

variable {dir target : Path} {style : SpecifierStyle} {w : Option String} {old text : String} {up down : List String}
  (h : WrittenAnew dir style target w old text up down) (hsuffix : Suffix style.suffix)

include h hsuffix

/-- The last segment of a specifier that is written anew is the last name of the path that it leads to, unless that is the
directory of its file or lies above it. -/
theorem lastSegment_written :
    (dir.join ⟨dotted up down⟩).normalize.fileName? = some (lastSegment (splitSuffix text).1) ∨
      (lastSegment (splitSuffix text).1).length < 3 ∧
        (dir.join ⟨dotted up down⟩).normalize.components <+: dir.components := by
  have hlast : (steps up down).getLast? = some (lastSegment (splitSuffix text).1) := by
    rw [h.text]
    exact lastSegment_dotted h.plain hsuffix old
  obtain ⟨shared, hdir, hpath⟩ := h.way
  cases down using List.reverseRecOn with
  | nil =>
    refine Or.inr ⟨?_, ?_⟩
    · have hshort : ∀ t ∈ steps up [], t.length < 3 := by
        intro t ht
        unfold steps at ht
        split at ht
        · rw [List.mem_singleton.mp ht]
          decide
        · rw [way, List.append_nil] at ht
          rw [List.eq_of_mem_replicate ht]
          decide
      exact hshort _ (List.mem_of_getLast? hlast)
    · rw [hdir, hpath, List.append_nil, List.map_append]
      exact (List.prefix_cons_inj _).mpr (List.prefix_append _ _)
  | append_singleton down n =>
    refine Or.inl ?_
    have hn : (steps up (down ++ [n])).getLast? = some n := by
      unfold steps
      split
      · rw [← List.cons_append, List.getLast?_concat]
      · rw [way, ← List.append_assoc, List.getLast?_concat]
    rw [hn] at hlast
    rw [← Option.some.inj hlast, Path.fileName?, hpath, ← List.append_assoc, List.map_append, List.map_singleton,
      ← List.cons_append, List.getLast?_concat]

/-- A specifier that is written anew starts with a dot, and it ends as the old one did. -/
theorem lead_written : SpecifierLead.ofText (splitSuffix text).1 = .dot ∧ (splitSuffix text).2 = style.suffix ∧
    endsWith (splitSuffix text).1 "/" = endsWith (splitSuffix old).1 "/" ∧ pathPart text = dotted up down := by
  have hsplit := h.splitSuffix_text hsuffix
  refine ⟨?_, by rw [hsplit], ?_, (h.pathPart_text hsuffix).1⟩
  · rw [hsplit]
    obtain ⟨dots, rest, hdots, hrest, htext⟩ := lead_eq_dot_iff.mp (lead_dotted up down)
    refine lead_eq_dot_iff.mpr ⟨dots, rest ++ (slashOf old).toList, hdots, ?_, ?_⟩
    · cases rest with
      | cons c rest => exact hrest
      | nil => rcases slashOf_cases old with hslash | hslash <;> rw [hslash] <;> simp
    · rw [String.toList_append, htext, List.append_assoc]
  · rw [hsplit]
    dsimp only
    unfold slashOf
    split
    · rename_i hslash
      rw [hslash, endsWith_append]
    · rename_i hslash
      rw [Bool.not_eq_true] at hslash
      rw [String.append_empty, endsWith_dotted h.plain, hslash]

end

theorem Plain.isName_stem {n : String} (hn : Plain n) : IsName (Path.cutName n).1 := by
  cases hcut : (Path.cutName n).2 with
  | none =>
    rw [Path.cutName_eq_none (show Path.cutName n = ((Path.cutName n).1, none) from Prod.ext rfl hcut)]
    exact hn.name
  | some e =>
    obtain ⟨hsplit, hne, -⟩ := Path.cutName_eq_some_iff.mp (show Path.cutName n = ((Path.cutName n).1, some e) by rw [← hcut])
    exact ((hsplit ▸ hn : Plain ((Path.cutName n).1 ++ "." ++ e)).stem hne).name

end Specifier

/-! ## Styles of specifiers that are written anew -/

/-- What keeps the style of a specifier that is written anew: the way goes down to the target, and a directory that is named
for its index file does not have the name of one. -/
structure SpecifierStyle.Stays (style : SpecifierStyle) (dir target : Path) : Prop where
  down : ¬ target.components <+: dir.components ∧ ¬ (target.withExtension "").components <+: dir.components
  index : style.index = true → target.fileStem? = some "index" ∧ ∀ d, target.parent? = some d → ∀ m, d.fileName? = some m →
    lowered m ≠ lowered (target.fileName?.getD "") ∧ lowered m ≠ "index"

namespace SpecifierStyle

open Specifier (WrittenAnew lastSegment splitSuffix Plain)

section

variable {style : SpecifierStyle} {target dir : Path} {old text : String} {up down : List String}
  (hwritten : WrittenAnew dir style target none old text up down) (hsuffix : Specifier.Suffix style.suffix)
  (hshows : style.Shows target none) (hstays : style.Stays dir target)
  (hextension : style.explicitExtension = true → target.extension?.isSome = true)
  {cs : List Component} {n : String} (htarget : target.components = .root :: (cs ++ [.name n])) (hn : Plain n)

include hwritten hsuffix hshows hstays hextension htarget hn

/-- The last segment that is written anew shows of the name what the style shows. -/
theorem lastSegment_shows :
    (lowered (lastSegment (splitSuffix text).1) == lowered n && (Path.cutName n).2.isSome) = style.explicitExtension ∧
      ((Path.cutName n).1 == "index" && lowered (lastSegment (splitSuffix text).1) != lowered n &&
        lowered (lastSegment (splitSuffix text).1) != lowered (Path.cutName n).1) = style.index := by
  have hnamed := hwritten.named rfl
  have hlast := Specifier.lastSegment_written hwritten hsuffix
  have hstem := Path.fileStem?_of_components htarget
  rw [Path.extension?_of_components htarget] at hextension
  generalize lastSegment (splitSuffix text).1 = l at hlast ⊢
  generalize (dir.join ⟨Specifier.dotted up down⟩).normalize = p at hnamed hlast
  -- where the path named is not above the file, its name is what is seen
  have hseen : ∀ {m : String} {as : List Component}, p.components = .root :: (as ++ [.name m]) →
      ¬ p.components <+: dir.components → l = m := by
    intro m as hp hdown
    have hfile := (hlast.resolve_right fun hup => hdown hup.2).symm.trans (Path.fileName?_of_components hp)
    exact Option.some.inj hfile
  have hcut : ∀ {e : String}, (Path.cutName n).2 = some e →
      n = (Path.cutName n).1 ++ "." ++ e ∧ (Path.cutName n).1.length < n.length := by
    intro e he
    obtain ⟨hsplit, -, -⟩ := Path.cutName_eq_some_iff.mp (show Path.cutName n = ((Path.cutName n).1, some e) by rw [← he])
    have hlength := congrArg String.length hsplit
    rw [String.length_append, String.length_append] at hlength
    have hdot : ".".length = 1 := rfl
    exact ⟨hsplit, by omega⟩
  cases hexplicit : style.explicitExtension with
  | true =>
    have hindex := (hshows.itself hexplicit).1
    rw [Specifier.referenced_itself hindex hexplicit] at hnamed
    obtain rfl := hseen (hnamed.trans htarget) (by rw [hnamed]; exact hstays.down.1)
    rw [hindex, hextension hexplicit]
    simp
  | false =>
    cases hindex : style.index with
    | true =>
      -- the directory of an index file
      obtain ⟨hfile, hdirectory⟩ := hstays.index hindex
      rw [hstem, Option.some.injEq] at hfile
      obtain ⟨e, he⟩ : ∃ e, (Path.cutName n).2 = some e := by
        rcases hshows.left_out hexplicit rfl with ⟨e, -, he⟩ | ⟨-, hno⟩
        · exact ⟨e, (Path.extension?_of_components htarget).symm.trans he⟩
        · rw [hindex] at hno
          cases hno
      obtain ⟨d, hd, hdComponents⟩ := Path.components_parent? htarget
      have hparent : Specifier.referenced style target = d :=
        Specifier.referenced_directory hindex (hstem.trans (congrArg some hfile)) hd
      have hlength := (hcut he).2
      rw [hfile] at hlength ⊢
      have hindexLength : "index".length = 5 := rfl
      obtain ⟨hname, hother⟩ : lowered l ≠ lowered n ∧ lowered l ≠ "index" := by
        rcases hlast with hlast | ⟨hshort, -⟩
        · rw [Path.fileName?_of_components htarget] at hdirectory
          refine hdirectory d hd l ?_
          rw [hparent] at hnamed
          rwa [Path.fileName?, ← hnamed]
        · refine ⟨lowered_ne_of_length (by omega), fun hsame => ?_⟩
          have hsameLength := congrArg String.length hsame
          rw [length_lowered] at hsameLength
          omega
      have hlowered : lowered "index" = "index" := by decide
      simp [hname, hother, hlowered]
    | false =>
      rw [Specifier.referenced_stem (by simp [hindex]) hexplicit] at hnamed
      have hcomponents := Path.components_withExtension htarget "" rfl hn.isName_stem
      obtain rfl := hseen (hnamed.trans hcomponents) (by rw [hnamed]; exact hstays.down.2)
      cases he : (Path.cutName n).2 with
      | none => simp [Path.cutName_eq_none (show Path.cutName n = ((Path.cutName n).1, none) from Prod.ext rfl he)]
      | some e => simp [lowered_ne_of_length (Nat.ne_of_lt (hcut he).2)]

end

/-- The style of a specifier that is written anew is the one in which it is written. -/
theorem infer_written_anew {style : SpecifierStyle} {target q dir : Path} {w : Option String} {old text : String}
    {up down : List String} (hwritten : WrittenAnew dir style target w old text up down)
    (hsuffix : Specifier.Suffix style.suffix) (hbase : style.base = .importingFile) (hlead : style.lead = .dot)
    (hshows : style.Shows target w) (hstays : style.Stays dir target) (habs : dir.isAbsolute = true)
    (hextension : style.explicitExtension = true → target.extension?.isSome = true)
    (hindex : ∀ x ∈ w, target.fileStem? ≠ some "index") {cs : List Component} {n : String}
    (htarget : target.components = .root :: (cs ++ [.name n])) (hn : Plain n) (hq : q.components = target.components) :
    infer text .importingFile q = style := by
  obtain ⟨hleadText, hsuffixText, -, hpath⟩ := Specifier.lead_written hwritten hsuffix
  have hq' := hq.trans htarget
  have hfields : style = ⟨style.base, style.lead, style.explicitExtension, style.index, style.suffix⟩ := rfl
  rw [infer_eq, hfields, mk.injEq]
  refine ⟨hbase.symm, hleadText.trans hlead.symm, ?_⟩
  rw [← and_assoc]
  refine ⟨?_, hsuffixText⟩
  cases w with
  | none =>
    rw [Path.fileName?_of_components hq', Path.fileStem?_of_components hq', Path.extension?_of_components hq',
      Option.getD_some, Option.getD_some]
    exact lastSegment_shows hwritten hsuffix hshows hstays hextension htarget hn
  | some x =>
    have hexplicit : style.explicitExtension = false := by
      rw [← Bool.not_eq_true]
      intro h
      simpa using (hshows.itself h).2
    have hdot : SpecifierLead.ofText (pathPart text) = .dot := hpath ▸ Specifier.lead_dotted up down
    have hstands : StandsFor ((dir.join ⟨pathPart text⟩).normalize).components q.components (some x) := by
      rw [hpath, hq]
      exact hwritten.stands
    have hhidden : (infer text .importingFile q).explicitExtension = false := (infer_written habs hdot hstands).1
    rw [infer_eq] at hhidden
    dsimp only at hhidden
    have hstem := hindex x rfl
    rw [Path.fileStem?_of_components htarget, ne_eq, Option.some.injEq] at hstem
    rw [hexplicit, (hshows.replaced hexplicit x rfl).1]
    refine ⟨hhidden, ?_⟩
    rw [Path.fileStem?_of_components hq', Option.getD_some, beq_eq_false_iff_ne.mpr hstem, Bool.false_and, Bool.false_and]

end SpecifierStyle

/-! ## Formatting for the same paths -/

namespace Path

theorem relativeTo?_congr {p p' base base' : Path} (hp : p.components = p'.components)
    (hbase : base.components = base'.components) (habs : p.isAbsolute = true) (habs' : base.isAbsolute = true) :
    p.relativeTo? base = p'.relativeTo? base' := by
  unfold relativeTo?
  rw [← isAbsolute_congr hp, ← isAbsolute_congr hbase, habs, habs', hp, hbase]
  rfl

end Path

namespace Specifier

theorem referenced_congr (style : SpecifierStyle) {target target' : Path} {cs : List Component} {n : String}
    (htarget : target.components = .root :: (cs ++ [.name n])) (hn : IsName (Path.cutName n).1)
    (hsame : target'.components = target.components) :
    (referenced style target').components = (referenced style target).components ∧
      (referenced style target').isAbsolute = true := by
  have htarget' := hsame.trans htarget
  obtain ⟨d, hd, hcomponents⟩ := Path.components_parent? htarget
  obtain ⟨d', hd', hcomponents'⟩ := Path.components_parent? htarget'
  unfold referenced
  rw [Path.fileStem?_of_components htarget, Path.fileStem?_of_components htarget', hd, hd']
  split
  · exact ⟨hcomponents'.trans hcomponents.symm, Path.isAbsolute_of_components hcomponents'⟩
  · split
    · have hwithout := Path.components_withExtension htarget "" rfl hn
      have hwithout' := Path.components_withExtension htarget' "" rfl hn
      exact ⟨hwithout'.trans hwithout.symm, Path.isAbsolute_of_components hwithout'⟩
    · exact ⟨hsame, Path.isAbsolute_of_components htarget'⟩

/-- Texts of the same paths get the same specifier. -/
theorem format_congr {style : SpecifierStyle} {root importer importer' target target' : Path} {ds cs : List Component}
    {c : Component} {n : String} (himporter : importer.components = .root :: (ds ++ [c]))
    (himporter' : importer'.components = importer.components) (htarget : target.components = .root :: (cs ++ [.name n]))
    (hn : Plain n) (htarget' : target'.components = target.components) (hbase : style.base = .importingFile) :
    format style root importer' target' = format style root importer target := by
  obtain ⟨d, hd, hcomponents⟩ := Path.components_parent? himporter
  obtain ⟨d', hd', hcomponents'⟩ := Path.components_parent? (himporter'.trans himporter)
  obtain ⟨hnamed, habs⟩ := referenced_congr style htarget hn.isName_stem htarget'
  have hway := Path.relativeTo?_congr hnamed (hcomponents'.trans hcomponents.symm) habs
    (Path.isAbsolute_of_components hcomponents')
  have hslashed : (((referenced style target').relativeTo? d').getD (referenced style target')).slashed =
      (((referenced style target).relativeTo? d).getD (referenced style target)).slashed := by
    rw [hway]
    cases (referenced style target).relativeTo? d with
    | some way => rfl
    | none => rw [Option.getD_none, Option.getD_none, Path.slashed, Path.slashed, hnamed]
  unfold format
  rw [hbase, hd, hd']
  dsimp only
  rw [Option.getD_some, Option.getD_some, hslashed]

/-- Of the old specifier, only its slash at the end counts. -/
theorem dress_congr {old old' : String} (h : endsWith (splitSuffix old').1 "/" = endsWith (splitSuffix old).1 "/")
    (new : String) (w : Option String) : References.dress old' new w = References.dress old new w := by
  unfold References.dress
  rw [h]

end Specifier

/-! ## There and back -/

namespace References

/-- What a reference needs to get its text back once it and its target are back. -/
structure Returns (r : References) (files : List Path) (m : Moves) (importer target : Path) (s : String) (w : Option String) :
    Prop extends r.Follows (.ofFiles r.root files) m importer target s w where
  /-- The text is the one that is written for the target in its old place. -/
  canonical : dress s (Specifier.format (.infer s .importingFile target) r.root importer target) w = s
  home : ∀ n, target.fileName? = some n → Specifier.Plain n
  /-- The target is not a directory as well. -/
  file : (KnownFiles.ofFiles r.root files).isDir target = false ∧
    (KnownFiles.ofFiles r.root (files.map m.place)).isDir (m.place target) = false
  apart : (m.place importer).startsWith ((m.place target).withExtension "") = false
  /-- The target stays what the style takes it for, an index file of a directory with another name or no index file. -/
  index : (SpecifierStyle.infer s .importingFile target).index = true → (m.place target).fileStem? = some "index" ∧
    ∀ d, (m.place target).parent? = some d → ∀ n, d.fileName? = some n →
      lowered n ≠ lowered ((m.place target).fileName?.getD "") ∧ lowered n ≠ "index"
  source : ∀ x ∈ w, (m.place target).fileStem? ≠ some "index"

section

variable {r : References} (hroot : r.root.Normal) {files : List Path} (hfiles : ∀ f ∈ files, r.root.Below f) {m m' : Moves}
  {importer target : Path} {s : String} {w : Option String} (hlead : SpecifierLead.ofText (Specifier.splitSuffix s).1 = .dot)
  (hplaces : ∀ f ∈ files, r.root.Below (m.place f)) (hdirs : ∀ d ∈ m.dirs, d.1.isAbsolute = true ∧ d.2.isAbsolute = true)
  (himporter : importer ∈ files)
  (hresolve : (KnownFiles.ofFiles r.root files).resolve r.root importer s = .resolved target .importingFile w)
  (hknown : (KnownFiles.ofFiles r.root files).isFile target = true) (hreturns : r.Returns files m importer target s w)

include hroot hfiles hlead hplaces hdirs himporter hresolve hknown hreturns

/-- The style of a reference that is written anew is the one in which it is written, whatever text its target has. -/
theorem Returns.styleOf_updated (hmoves : unmoved m importer target .importingFile = false) {q : Path}
    (hq : q.components = (m.place target).components) :
    styleOf (.ofFiles r.root (files.map m.place)) (r.updated (.ofFiles r.root files) m importer s) .importingFile q =
      .infer s .importingFile target ∧
    endsWith (Specifier.splitSuffix (r.updated (.ofFiles r.root files) m importer s)).1 "/" =
      endsWith (Specifier.splitSuffix s).1 "/" := by
  obtain ⟨dir, _, up, down, hdir, himporterComponents, habs, hwritten⟩ :=
    updated_written hroot hfiles hlead hplaces hdirs himporter hresolve hknown hreturns.toFollows hmoves
  have hinside : dir.components <+: (m.place importer).components := himporterComponents ▸ List.prefix_append _ _
  obtain ⟨hbelow, -⟩ := isFile_place hfiles hplaces hdirs hknown
  obtain ⟨rs, -, -, -, hrs, -, -⟩ := hbelow.names hroot
  obtain ⟨front, n, hlast, hname⟩ := hbelow.last hroot hrs
  have hn : Specifier.Plain n := hreturns.plain n hname
  have hstyle : styleOf (.ofFiles r.root files) s .importingFile target = .infer s .importingFile target := by
    rw [styleOf, hreturns.file.1, if_neg (by simp)]
  obtain ⟨_, _, home, hhome, hhomeComponents, -⟩ := (hfiles importer himporter).parent? hroot hrs
  have hshows :=
    hreturns.toFollows.shows hroot hfiles hlead hhome (Path.isAbsolute_of_components hhomeComponents) hresolve hknown
  rw [hstyle] at hwritten hshows
  have hsuffix : Specifier.Suffix (SpecifierStyle.infer s .importingFile target).suffix :=
    Specifier.suffix_splitSuffix (KnownFiles.isExternal_of_resolve hresolve)
  have hfile : (KnownFiles.ofFiles r.root (files.map m.place)).isDir q = false :=
    (PathSet.contains_congr ((Path.beq_iff _ _).mpr hq) _).trans hreturns.file.2
  have hexplicit : (SpecifierStyle.infer s .importingFile target).explicitExtension = true →
      (m.place target).extension?.isSome = true := by
    intro h
    rw [hreturns.extension]
    exact (SpecifierStyle.infer_itself h).2
  have hstays : (SpecifierStyle.infer s .importingFile target).Stays dir (m.place target) := by
    refine ⟨⟨fun hup => ?_, fun hup => ?_⟩, hreturns.index⟩
    · -- the target would be a directory with the file below it
      have hdirectory : (KnownFiles.ofFiles r.root (files.map m.place)).isDir (m.place target) = true := by
        refine ((KnownFiles.records_ofFiles _ _).isDir _).mpr ⟨hbelow.inside, _, List.mem_map_of_mem himporter,
          hup.trans hinside, fun hsame => ?_, hbelow.absolute.trans (hplaces importer himporter).absolute.symm⟩
        have hlength := hup.length_le
        rw [hsame, himporterComponents, List.length_append, List.length_singleton] at hlength
        omega
      rw [hreturns.file.2] at hdirectory
      cases hdirectory
    · have hnot := hreturns.apart
      rw [← Bool.not_eq_true, Path.startsWith_iff] at hnot
      exact hnot (hup.trans hinside)
  rw [styleOf, hfile, if_neg (by simp)]
  refine ⟨?_, (Specifier.lead_written hwritten hsuffix).2.2.1⟩
  exact SpecifierStyle.infer_written_anew hwritten hsuffix rfl ((SpecifierStyle.infer_lead _ _ _).trans hlead) hshows hstays
    habs hexplicit hreturns.source hlast hn hq

/-- The moves and the moves back leave the text of a reference as it was. -/
theorem updated_back (hrivals : KnownFiles.Unrivalled (files.map m.place) (m.place target))
    (hdirs' : ∀ d ∈ m'.dirs, d.1.isAbsolute = true ∧ d.2.isAbsolute = true)
    (hback : ∀ f ∈ files, (m'.place (m.place f) == f) = true) :
    r.updated (.ofFiles r.root (files.map m.place)) m' (m.place importer) (r.updated (.ofFiles r.root files) m importer s) =
      s := by
  obtain ⟨q, hq, hqTarget⟩ := updated_resolves hroot hfiles hlead hplaces hdirs himporter hresolve hknown hreturns.toFollows
    hrivals
  rw [Path.beq_iff] at hqTarget
  obtain ⟨g, hg, htarget⟩ := ((KnownFiles.records_ofFiles r.root files).isFile target).mp hknown
  rw [Path.beq_iff] at htarget
  have hplace : (m.place target).components = (m.place g).components :=
    m.place_congr hdirs ((hfiles g hg).congr htarget).absolute htarget
  have himporterBack : (m'.place (m.place importer)).components = importer.components :=
    (Path.beq_iff _ _).mp (hback importer himporter)
  have hqBack : (m'.place q).components = target.components := by
    rw [m'.place_congr hdirs' ((hplaces g hg).congr (hqTarget.trans hplace)).absolute (hqTarget.trans hplace),
      (Path.beq_iff _ _).mp (hback g hg), htarget]
  have hsameMoves : unmoved m' (m.place importer) q .importingFile = unmoved m importer target .importingFile := by
    have hsame : ∀ {a a' b b' : Path}, a.components = b'.components → a'.components = b.components →
        (a == a') = (b == b') := by
      intro a a' b b' ha ha'
      rw [Bool.eq_iff_iff, Path.beq_iff, Path.beq_iff, ha, ha', eq_comm]
    unfold unmoved
    rw [hsame hqBack hqTarget, hsame himporterBack rfl]
  rw [updated_of_resolved hq, hsameMoves]
  cases hmoves : unmoved m importer target .importingFile with
  | true => rw [if_pos rfl, updated_of_resolved hresolve, hmoves, if_pos rfl]
  | false =>
    obtain ⟨hstyle, hslash⟩ :=
      hreturns.styleOf_updated hroot hfiles hlead hplaces hdirs himporter hresolve hknown hmoves hqTarget
    obtain ⟨rs, -, -, -, hrs, -, -⟩ := (hfiles importer himporter).names hroot
    obtain ⟨_, n, hlast, -⟩ := ((hfiles g hg).congr htarget).last hroot hrs
    obtain ⟨_, _, himporterLast, -⟩ := (hfiles importer himporter).last hroot hrs
    have hn : Specifier.Plain n := hreturns.home n (Path.fileName?_of_components hlast)
    have hbase : (SpecifierStyle.infer s .importingFile target).base = .importingFile := rfl
    rw [if_neg (by simp), hstyle, Specifier.dress_congr hslash,
      Specifier.format_congr himporterLast himporterBack hlast hn hqBack hbase, hreturns.canonical]

end

/-- A reference that gets its text back: it follows a project file, or it names nothing before the moves and after them. -/
inductive ComesBack (r : References) (files : List Path) (m : Moves) (importer : Path) (s : String) : Prop
  | follows {target : Path} {w : Option String} (hlead : SpecifierLead.ofText (Specifier.splitSuffix s).1 = .dot)
    (hresolve : (KnownFiles.ofFiles r.root files).resolve r.root importer s = .resolved target .importingFile w)
    (hknown : (KnownFiles.ofFiles r.root files).isFile target = true) (hreturns : r.Returns files m importer target s w)
    (hrivals : KnownFiles.Unrivalled (files.map m.place) (m.place target))
  | foreign (h : (KnownFiles.ofFiles r.root files).resolve r.root importer s = .unresolved)
    (h' : (KnownFiles.ofFiles r.root (files.map m.place)).resolve r.root (m.place importer) s = .unresolved)

theorem updated_of_unresolved {r : References} {known : KnownFiles} {m : Moves} {importer : Path} {s : String}
    (h : known.resolve r.root importer s = .unresolved) : r.updated known m importer s = s := by
  unfold updated updateSpecifier
  rw [h]
  rfl

section

variable {r : References} (hroot : r.root.Normal) {files : List Path} (hfiles : ∀ f ∈ files, r.root.Below f) {m m' : Moves}
  (hplaces : ∀ f ∈ files, r.root.Below (m.place f)) (hdirs : ∀ d ∈ m.dirs, d.1.isAbsolute = true ∧ d.2.isAbsolute = true)
  (hdirs' : ∀ d ∈ m'.dirs, d.1.isAbsolute = true ∧ d.2.isAbsolute = true)
  (hback : ∀ f ∈ files, (m'.place (m.place f) == f) = true) {file : Path} (hfile : file ∈ files)

include hroot hfiles hplaces hdirs hdirs' hback hfile

theorem ComesBack.updated {s : String} (h : r.ComesBack files m file s) :
    r.updated (.ofFiles r.root (files.map m.place)) m' (m.place file) (r.updated (.ofFiles r.root files) m file s) = s := by
  cases h with
  | follows hlead hresolve hknown hreturns hrivals =>
    exact updated_back hroot hfiles hlead hplaces hdirs hfile hresolve hknown hreturns hrivals hdirs' hback
  | foreign h h' => rw [updated_of_unresolved h, updated_of_unresolved h']

theorem updated_parts {parts : List (List Char × String)} (hcomes : ∀ part ∈ parts, r.ComesBack files m file part.2) :
    (parts.map fun part => (part.1, r.updated (.ofFiles r.root files) m file part.2)).map (fun part =>
      (part.1, r.updated (.ofFiles r.root (files.map m.place)) m' (m.place file) part.2)) = parts := by
  rw [List.map_map]
  conv_rhs => rw [← List.map_id parts]
  refine List.map_congr_left fun part hpart => ?_
  exact Prod.ext rfl ((hcomes part hpart).updated hroot hfiles hplaces hdirs hdirs' hback hfile)

/-- The edits of the moves and those of the moves back give a file its text again, when its references stand where they
stood and each of them gets its text back. -/
theorem planRefs_back {content : List Char} {refs refs' : List ImportRef} {parts : List (List Char × String)}
    {rest : List Char} (hcut : Cut content refs parts rest) (hcomes : ∀ part ∈ parts, r.ComesBack files m file part.2)
    {content' : List Char}
    (hcut' : Cut content' refs' (parts.map fun part => (part.1, r.updated (.ofFiles r.root files) m file part.2)) rest)
    (generic : Bool) (path path' : String) :
    TextEdit.applyAll path (String.ofList content)
        (r.planRefs (.ofFiles r.root files) m (m.place file) generic refs [] { path := file }).edits =
      .ok (String.ofList content') ∧
    TextEdit.applyAll path' (String.ofList content')
        (r.planRefs (.ofFiles r.root (files.map m.place)) m' (m'.place (m.place file)) generic refs' []
          { path := m.place file }).edits = .ok (String.ofList content) := by
  rw [planRefs_weaves hcut, planRefs_weaves hcut', hcut'.text, hcut.text]
  refine ⟨rfl, congrArg (fun parts => Except.ok (String.ofList (weave parts rest))) ?_⟩
  exact updated_parts hroot hfiles hplaces hdirs hdirs' hback hfile hcomes

end

def sourceReturn : Moves := { files := [(⟨"/r/lib/a.ts"⟩, ⟨"/r/a.ts"⟩)] }

theorem returns_source : inR.Returns sourceFiles sourceMove ⟨"/r/app/main.ts"⟩ ⟨"/r/a.ts"⟩ "../a.js?raw" (some "js") where
  toFollows := follows_source
  canonical := by decide +kernel
  home := by
    have hname : (⟨"/r/a.ts"⟩ : Path).fileName? = some "a.ts" := by decide +kernel
    rw [hname]
    rintro _ ⟨⟩
    exact ⟨by decide, by simp, by decide +kernel⟩
  file := by decide +kernel
  apart := by decide +kernel
  index := fun h => absurd h (by decide +kernel)
  source := by
    rintro _ ⟨⟩
    decide +kernel

/-- With a second reference that names nothing. -/
theorem planRefs_back_source :
    TextEdit.applyAll "/r/app/main.ts" "import '../a.js?raw';\nimport './b';\n"
      (inR.planRefs (.ofFiles ⟨"/r"⟩ sourceFiles) sourceMove ⟨"/r/app/main.ts"⟩ false
        [⟨"../a.js?raw", .importFrom, some ⟨0, 8, 0, 19⟩⟩, ⟨"./b", .importFrom, some ⟨1, 8, 1, 11⟩⟩] []
        { path := ⟨"/r/app/main.ts"⟩ }).edits = .ok "import '../lib/a.js?raw';\nimport './b';\n" ∧
    TextEdit.applyAll "/r/app/main.ts" "import '../lib/a.js?raw';\nimport './b';\n"
      (inR.planRefs (.ofFiles ⟨"/r"⟩ [⟨"/r/app/main.ts"⟩, ⟨"/r/lib/a.ts"⟩]) sourceReturn ⟨"/r/app/main.ts"⟩ false
        [⟨"../lib/a.js?raw", .importFrom, some ⟨0, 8, 0, 23⟩⟩, ⟨"./b", .importFrom, some ⟨1, 8, 1, 11⟩⟩] []
        { path := ⟨"/r/app/main.ts"⟩ }).edits = .ok "import '../a.js?raw';\nimport './b';\n" := by
  have hcut : Cut "import '../a.js?raw';\nimport './b';\n".toList
      [⟨"../a.js?raw", .importFrom, some ⟨0, 8, 0, 19⟩⟩, ⟨"./b", .importFrom, some ⟨1, 8, 1, 11⟩⟩]
      [("import '".toList, "../a.js?raw"), ("';\nimport '".toList, "./b")] "';\n".toList := by
    have htext : "import '../a.js?raw';\nimport './b';\n".toList =
        weave [("import '".toList, "../a.js?raw"), ("';\nimport '".toList, "./b")] "';\n".toList := by decide
    refine ⟨htext, ?_, by decide +kernel⟩
    rw [htext]
    exact Hit.allExact_ofParts _ (by decide +kernel)
  have hforeign : (KnownFiles.ofFiles inR.root sourceFiles).resolve inR.root ⟨"/r/app/main.ts"⟩ "./b" = .unresolved := by
    decide +kernel
  have hnew : inR.updated (.ofFiles inR.root sourceFiles) sourceMove ⟨"/r/app/main.ts"⟩ "../a.js?raw" = "../lib/a.js?raw" := by
    decide +kernel
  have hcut' : Cut "import '../lib/a.js?raw';\nimport './b';\n".toList
      [⟨"../lib/a.js?raw", .importFrom, some ⟨0, 8, 0, 23⟩⟩, ⟨"./b", .importFrom, some ⟨1, 8, 1, 11⟩⟩]
      ([("import '".toList, "../a.js?raw"), ("';\nimport '".toList, "./b")].map fun part =>
        (part.1, inR.updated (.ofFiles inR.root sourceFiles) sourceMove ⟨"/r/app/main.ts"⟩ part.2)) "';\n".toList := by
    rw [List.map_cons, List.map_singleton, hnew, updated_of_unresolved hforeign]
    have htext : "import '../lib/a.js?raw';\nimport './b';\n".toList =
        weave [("import '".toList, "../lib/a.js?raw"), ("';\nimport '".toList, "./b")] "';\n".toList := by decide
    refine ⟨htext, ?_, by decide +kernel⟩
    rw [htext]
    exact Hit.allExact_ofParts _ (by decide +kernel)
  have hcomes : ∀ part ∈ [("import '".toList, "../a.js?raw"), ("';\nimport '".toList, "./b")],
      inR.ComesBack sourceFiles sourceMove ⟨"/r/app/main.ts"⟩ part.2 := by
    intro part hpart
    rcases List.mem_pair.mp hpart with rfl | rfl
    · exact .follows (by decide +kernel) (by decide +kernel) (by decide +kernel) returns_source
        (KnownFiles.unrivalled_of_spellings (by decide +kernel))
    · exact .foreign hforeign (by decide +kernel)
  exact planRefs_back (r := inR) ⟨by decide +kernel, by decide +kernel⟩
    (fun f hf => (below_source f hf).1) (fun f hf => (below_source f hf).2) (by decide) (by decide) (by decide +kernel)
    List.mem_cons_self hcut hcomes hcut' false "/r/app/main.ts" "/r/app/main.ts"

end References

end Refactor
