import Refactor.Proofs.Reference.Meanings
import Refactor.Reference.Update

/-!
# Specifiers that are written anew

A specifier that starts with a dot is written anew as the text of the way from the directory of its file to what its style
names of the target. Behind it stand the extension that the old one wrote and its suffix, so where the text leads stands for
the target in the way that the style says.

* `Specifier.dotted`, `Specifier.pathPart_dotted` — the text of a way, and what is read from it
* `SpecifierStyle.Shows` — styles in which a target can be written
* `Specifier.referenced_spec` — what is named of a target stands for it
* `Specifier.WrittenAnew`, `Specifier.dress_format` — what a specifier is that is written anew
-/

namespace Refactor

open Path (IsName IsSegment way)
open KnownFiles (implicitExtensions sourceExtensions)

namespace Specifier

/-! ## Texts of ways -/

/-- The text of a way, with a dot in front where it does not climb. -/
def dotted (up down : List String) : String :=
  if up = [] then if down = [] then "." else "./" ++ joinWith "/" down else joinWith "/" (way up down)

/-- A name that a specifier can hold: it has no mark of a suffix and does not look like a step upwards. -/
structure Plain (n : String) : Prop where
  name : IsName n
  unmarked : ∀ c ∈ n.toList, c ≠ '#' ∧ c ≠ '?'
  low : startsWith n ".." = false

section

variable {up down : List String}

theorem startsWith_dots_iff {s : String} : startsWith s ".." = true ↔ ['.', '.'] <+: s.toList :=
  List.isPrefixOf_iff_prefix

/-- Only a way that climbs starts with two dots. -/
theorem startsWith_way (hdown : ∀ n ∈ down, Plain n) : startsWith (joinWith "/" (way up down)) ".." = !up.isEmpty := by
  rw [Bool.eq_iff_iff, startsWith_dots_iff, joinWith_toList]
  cases up with
  | cons u up =>
    refine iff_of_true ?_ rfl
    rw [way, List.length_cons, List.replicate_succ, List.cons_append, List.map_cons]
    cases List.replicate up.length ".." ++ down with
    | nil => exact ⟨[], by simp [List.intercalate]⟩
    | cons t rest => exact ⟨'/' :: ['/'].intercalate ((t :: rest).map String.toList), by simp⟩
  | nil =>
    refine iff_of_false ?_ (by simp)
    rw [way, List.length_nil, List.replicate_zero, List.nil_append]
    cases down with
    | nil => simp
    | cons n down =>
      have hn := hdown n (by simp)
      have hlow : ¬ ['.', '.'] <+: n.toList := by
        rw [← startsWith_dots_iff, hn.low]
        simp
      obtain ⟨tail, htail⟩ : ∃ tail, ['/'].intercalate ((n :: down).map String.toList) = n.toList ++ tail := by
        cases down with
        | nil => exact ⟨[], by simp [List.intercalate]⟩
        | cons m down => exact ⟨_, by rw [List.map_cons, List.map_cons, List.intercalate_cons_cons, List.append_assoc]⟩
      rw [htail]
      rintro hdots
      rcases Nat.lt_or_ge n.toList.length 2 with hshort | hlong
      · -- a name of one character would be a dot
        obtain ⟨c, hc⟩ : ∃ c, n.toList = [c] :=
          List.length_eq_one_iff.mp (by have := List.length_pos_iff.mpr (mt String.toList_eq_nil_iff.mp hn.name.1.1); omega)
        rw [hc, List.cons_append] at hdots
        obtain rfl := (List.cons_prefix_cons.mp hdots).1
        exact hn.name.1.2.1 (String.toList_injective hc)
      · exact hlow (List.prefix_of_prefix_length_le hdots (List.prefix_append _ _) hlong)

/-- A way is written with a dot in front where it does not climb. -/
theorem dotted_eq (hdown : ∀ n ∈ down, Plain n) :
    (if startsWith (joinWith "/" (way up down)) ".." then joinWith "/" (way up down)
      else if joinWith "/" (way up down) == "" then "." else "./" ++ joinWith "/" (way up down)) = dotted up down := by
  rw [startsWith_way hdown, dotted]
  cases up with
  | cons u up => simp
  | nil =>
    cases down with
    | nil => rfl
    | cons n down =>
      have hne : joinWith "/" (n :: down) ≠ "" := joinWith_ne_empty (fun s hs => (hdown s hs).name.1) (by simp)
      have hway : way [] (n :: down) = n :: down := rfl
      rw [hway]
      simp [hne]

theorem way_plain (hdown : ∀ n ∈ down, Plain n) : ∀ s ∈ way up down, ∀ c ∈ s.toList, c ≠ '#' ∧ c ≠ '?' := by
  intro s hs
  rcases List.mem_append.mp hs with hs | hs
  · rw [List.eq_of_mem_replicate hs]
    simp
  · exact (hdown s hs).unmarked

theorem dotted_spec (hdown : ∀ n ∈ down, Plain n) :
    PathText (dotted up down) ∧ Path.inner (dotted up down) = (way up down).map Path.componentOf := by
  have hspec := pathText_way (Path.isSegment_way up fun n hn => (hdown n hn).name) (way_plain hdown)
    (dotted_eq hdown).symm
  exact ⟨hspec.1, hspec.2.2⟩

theorem lead_dotted (up down : List String) : SpecifierLead.ofText (dotted up down) = .dot := by
  have hprefix : ∀ {s lead : String}, lead.toList <+: s.toList → startsWith s lead = true := List.isPrefixOf_iff_prefix.mpr
  unfold dotted SpecifierLead.ofText
  refine if_pos ?_
  cases up with
  | nil =>
    cases down with
    | nil => decide
    | cons n down =>
      have hdot : startsWith ("./" ++ joinWith "/" (n :: down)) "./" = true :=
        hprefix (by rw [String.toList_append]; exact List.prefix_append _ _)
      simp [hdot]
  | cons u up =>
    rw [if_neg (by simp), way, List.length_cons, List.replicate_succ, List.cons_append]
    cases List.replicate up.length ".." ++ down with
    | nil => decide
    | cons t rest =>
      have hdots : startsWith (joinWith "/" (".." :: t :: rest)) "../" = true :=
        hprefix ⟨(joinWith "/" (t :: rest)).toList, by simp [joinWith]⟩
      simp [hdots]

theorem dotted_concat (up down : List String) (n e : String) :
    dotted up (down ++ [n]) ++ "." ++ e = dotted up (down ++ [n ++ "." ++ e]) := by
  have hjoin : ∀ ss : List String, joinWith "/" (ss ++ [n]) ++ "." ++ e = joinWith "/" (ss ++ [n ++ "." ++ e]) := by
    intro ss
    cases ss with
    | nil => rfl
    | cons s ss =>
      rw [joinWith_append (by simp) (by simp), joinWith_append (by simp) (by simp)]
      simp [joinWith, String.append_assoc]
  have hne : ∀ m : String, down ++ [m] ≠ [] := by simp
  unfold dotted
  rw [if_neg (hne _), if_neg (hne _), way, way, ← List.append_assoc, ← List.append_assoc, ← hjoin, ← hjoin]
  split <;> simp [String.append_assoc]

end

/-! ## Names with another extension -/

theorem Plain.dotted {n x : String} (hn : Plain n) (hx : IsKnownExtension x) (hmarks : ∀ c ∈ x.toList, c ≠ '#' ∧ c ≠ '?') :
    Plain (n ++ "." ++ x) where
  name := Path.isName_dotted hn.name.1.1 hn.name.1.2.2 hx.plain.1 hx.plain.2.2
  unmarked := by
    intro c hc
    rw [String.toList_append, String.toList_append, List.mem_append, List.mem_append] at hc
    rcases hc with (hc | hc) | hc
    · exact hn.unmarked c hc
    · rw [List.mem_singleton.mp hc]
      decide
    · exact hmarks c hc
  low := by
    have hlow := hn.low
    rw [← Bool.not_eq_true, startsWith_dots_iff] at hlow ⊢
    rintro ⟨rest, hrest⟩
    rw [String.toList_append, String.toList_append] at hrest
    rcases hlist : n.toList with _ | ⟨c, _ | ⟨d, cs⟩⟩
    · exact hn.name.1.1 (String.toList_eq_nil_iff.mp hlist)
    · rw [hlist] at hrest
      obtain rfl := (List.cons.inj hrest).1
      exact hn.name.1.2.1 (String.toList_injective hlist)
    · rw [hlist] at hrest
      obtain ⟨rfl, hnext⟩ := List.cons.inj hrest
      obtain ⟨rfl, -⟩ := List.cons.inj hnext
      exact hlow (hlist ▸ ⟨cs, rfl⟩)

theorem Plain.stem {stem e : String} (hn : Plain (stem ++ "." ++ e)) (hstem : stem ≠ "") : Plain stem where
  name := by
    have hlow := hn.low
    rw [← Bool.not_eq_true, startsWith_dots_iff] at hlow
    refine ⟨⟨hstem, ?_, fun hslash => hn.name.1.2.2 (by simp [hslash])⟩, ?_⟩
    · rintro rfl
      exact hlow ⟨e.toList, by simp⟩
    · rintro rfl
      exact hlow ⟨'.' :: e.toList, by simp⟩
  unmarked := fun c hc => hn.unmarked c (by simp [hc])
  low := by
    have hlow := hn.low
    rw [← Bool.not_eq_true, startsWith_dots_iff] at hlow ⊢
    rintro hdots
    exact hlow (hdots.trans ⟨'.' :: e.toList, by simp⟩)

/-! ## Formatting and dressing -/

section

variable {style : SpecifierStyle} {root importer target dir : Path} (hdir : importer.parent? = some dir)
  (hbase : style.base = .importingFile) (hlead : style.lead = .dot)

include hdir hbase hlead

/-- From the directory of the file, a specifier is the text of the way to the path that it names. -/
theorem format_dotted {rs is ns : List String} (hcomponents : dir.components = .root :: (rs ++ is).map .name)
    (hnamed : (referenced style target).components = .root :: (rs ++ ns).map .name) (hplain : ∀ n ∈ ns, Plain n) :
    ∃ shared down up, ns = shared ++ down ∧ is = shared ++ up ∧
      format style root importer target = dotted up down ++ style.suffix := by
  obtain ⟨shared, down, up, rfl, rfl, hway⟩ :=
    Path.relativeTo?_names (fun n hn => (hplain n hn).name) hnamed hcomponents
  have hdown : ∀ n ∈ down, Plain n := fun n hn => hplain n (List.mem_append_right _ hn)
  refine ⟨shared, down, up, rfl, rfl, ?_⟩
  unfold format
  rw [hbase, hlead]
  dsimp only
  rw [hdir, Option.getD_some, hway, Option.getD_some, Path.slashed_joinWith
    (Path.isSegment_way up fun n hn => (hdown n hn).name), dotted_eq hdown]

end

def slashOf (s : String) : String := if endsWith (splitSuffix s).1 "/" then "/" else ""

def extended (t : String) : Option String → String
  | some x => t ++ "." ++ x
  | none => t

theorem dress_eq {t suffix : String} (hplain : ∀ c ∈ t.toList, c ≠ '#' ∧ c ≠ '?') (hsuffix : Suffix suffix) (old : String)
    {w : Option String} (hlast : endsWith (extended t w) "/" = false) :
    References.dress old (t ++ suffix) w = extended t w ++ slashOf old ++ suffix := by
  have hdress : References.dress old (t ++ suffix) w =
      (if endsWith (splitSuffix old).1 "/" && !endsWith (extended t w) "/" then extended t w ++ "/" else extended t w) ++
        suffix := by
    unfold References.dress
    rw [splitSuffix_append hplain hsuffix]
    cases w <;> rfl
  rw [hdress, hlast, slashOf, Bool.not_false, Bool.and_true]
  split
  · rfl
  · rw [String.append_empty]

section

variable {up down : List String} (hdown : ∀ n ∈ down, Plain n) {suffix : String} (hsuffix : Suffix suffix) (old : String)

theorem slashOf_cases : slashOf old = "" ∨ slashOf old = "/" := by
  unfold slashOf
  split
  · exact Or.inr rfl
  · exact Or.inl rfl

include hdown

theorem endsWith_dotted : endsWith (dotted up down) "/" = false := by
  rw [← Bool.not_eq_true, Path.endsWith_slash_iff]
  exact (dotted_spec hdown).1.last

include hsuffix

theorem splitSuffix_dotted :
    splitSuffix (dotted up down ++ slashOf old ++ suffix) = (dotted up down ++ slashOf old, suffix) := by
  refine splitSuffix_append (fun c hc => ?_) hsuffix
  rw [String.toList_append, List.mem_append] at hc
  refine hc.elim ((dotted_spec hdown).1.plain c) fun hc => ?_
  rcases slashOf_cases old with hslash | hslash <;> rw [hslash] at hc
  · simp at hc
  · rw [List.mem_singleton.mp hc]
    decide

theorem pathPart_dotted : KnownFiles.pathPart (dotted up down ++ slashOf old ++ suffix) = dotted up down ∧
    isExternal (dotted up down ++ slashOf old ++ suffix) = false := by
  have hpath : PathText (dotted up down) := (dotted_spec hdown).1
  obtain ⟨c, hc, hhead⟩ := hpath.lead
  obtain ⟨rest, hrest⟩ := List.head?_eq_some_iff.mp hhead
  have hsingle : ¬ ['/', '/'] <:+: (dotted up down ++ slashOf old).toList := by
    rcases slashOf_cases old with hslash | hslash <;> rw [hslash]
    · simpa using hpath.single
    · rw [String.toList_append]
      show ¬ _ <:+: _ ++ ['/']
      rw [List.infix_concat_iff]
      rintro (hend | hinner)
      · -- the path itself would end in a slash
        obtain ⟨front, hfront⟩ := hend
        have hboth : (front ++ ['/']) ++ ['/'] = (dotted up down).toList ++ ['/'] := by simpa using hfront
        have hsplit := (List.append_inj' hboth rfl).1
        exact hpath.last (by rw [← hsplit, List.getLast?_concat])
      · exact hpath.single hinner
  constructor
  · unfold KnownFiles.pathPart
    rw [splitSuffix_dotted hdown hsuffix]
    rcases slashOf_cases old with hslash | hslash <;> rw [hslash]
    · rw [String.append_empty, dropWhileEnd_slash hpath, String.ofList_toList]
    · have hdrop : Text.dropWhileEnd (· == '/') ((dotted up down).toList ++ ['/']) = (dotted up down).toList := by
        have hsame := dropWhileEnd_slash hpath
        unfold Text.dropWhileEnd at hsame ⊢
        rw [List.reverse_append, List.reverse_singleton, List.singleton_append, List.dropWhile_cons_of_pos (by simp), hsame]
      rw [String.toList_append]
      show String.ofList (Text.dropWhileEnd _ (_ ++ ['/'])) = _
      rw [hdrop, String.ofList_toList]
  · exact isExternal_append hsingle ⟨c, hc, by rw [String.toList_append, hrest]; rfl⟩ hsuffix

end

end Specifier

/-! ## Styles in which a target can be written -/

/-- A style in which a target can be written, with an extension that stands for its own: the target itself is named, or it
has no extension or one that may be left out, or it is a source and another extension is written. -/
structure SpecifierStyle.Shows (style : SpecifierStyle) (target : Path) (w : Option String) : Prop where
  itself : style.explicitExtension = true → style.index = false ∧ w = none
  left_out : style.explicitExtension = false → w = none → (∃ e ∈ implicitExtensions, target.extension? = some e) ∨
    target.extension? = none ∧ style.index = false
  replaced : style.explicitExtension = false → ∀ x ∈ w, style.index = false ∧
    ∃ es, (x, es) ∈ sourceExtensions ∧ ∃ e ∈ es, target.extension? = some e

namespace Specifier

/-- Extensions that are written for others have no mark of a suffix. -/
theorem unmarked_of_source {x : String} {es : List String} (h : (x, es) ∈ sourceExtensions) :
    ∀ c ∈ x.toList, c ≠ '#' ∧ c ≠ '?' := by
  have hall : ∀ y ∈ sourceExtensions, ∀ c ∈ y.1.toList, c ≠ '#' ∧ c ≠ '?' := by simp [sourceExtensions]
  exact hall _ h

theorem root_names_concat (rs front : List String) (m : String) :
    .root :: (rs ++ (front ++ [m])).map Component.name = (.root :: (rs ++ front).map .name) ++ [.name m] := by
  rw [← List.append_assoc, List.map_append]
  rfl

section

variable {style : SpecifierStyle} {target : Path}

theorem referenced_itself (hindex : style.index = false) (hexplicit : style.explicitExtension = true) :
    referenced style target = target := by
  rw [referenced, hindex, hexplicit]
  rfl

/-- Without its extension, the target is named unless the directory of an index file is. -/
theorem referenced_stem (hindex : style.index = true → target.fileStem? ≠ some "index")
    (hexplicit : style.explicitExtension = false) : referenced style target = target.withExtension "" := by
  rw [referenced, hexplicit, if_neg (by simpa using hindex)]
  rfl

/-- For an index file its directory is named. -/
theorem referenced_directory (hindex : style.index = true) (hstem : target.fileStem? = some "index") {dir : Path}
    (hdir : target.parent? = some dir) : referenced style target = dir := by
  rw [referenced, hindex, hstem, hdir]
  rfl

variable {rs front : List String} {n : String} (htarget : target.components = .root :: (rs ++ (front ++ [n])).map .name)

include htarget

theorem components_last : target.components = .root :: ((rs ++ front).map .name ++ [.name n]) :=
  htarget.trans (root_names_concat rs front n)

variable (hplain : ∀ m ∈ front ++ [n], Plain m)

include hplain

/-- A target without its extension. -/
theorem stem_of_extension? {e : String} (he : target.extension? = some e) : ∃ stem, n = stem ++ "." ++ e ∧ stem ≠ "" ∧
    target.fileStem? = some stem ∧ (∀ m ∈ front ++ [stem], Plain m) ∧
    (target.withExtension "").components = .root :: (rs ++ (front ++ [stem])).map .name := by
  have hlast := components_last htarget
  rw [Path.extension?_of_components hlast] at he
  obtain ⟨stem, hstem⟩ : ∃ stem, Path.cutName n = (stem, some e) := ⟨_, by rw [← he]⟩
  obtain ⟨rfl, hne, -⟩ := Path.cutName_eq_some_iff.mp hstem
  obtain ⟨hfront, hn⟩ := List.forall_mem_append.mp hplain
  have hstemPlain := (hn _ List.mem_cons_self).stem hne
  refine ⟨stem, rfl, hne, by rw [Path.fileStem?_of_components hlast, hstem],
    List.forall_mem_append.mpr ⟨hfront, List.forall_mem_singleton.mpr hstemPlain⟩, ?_⟩
  rw [Path.components_withExtension hlast "" (by rw [hstem]; rfl) hstemPlain.name, root_names_concat]
  rfl

/-- What a specifier names stands for the target, with the extension that is written behind it. -/
theorem referenced_spec {w : Option String} (hshows : style.Shows target w) : ∃ ms, (∀ m ∈ ms, Plain m) ∧
    (referenced style target).components = .root :: (rs ++ ms).map .name ∧
    (w = none → StandsFor (.root :: (rs ++ ms).map .name) target.components none) ∧
    ∀ x ∈ w, referenced style target = target.withExtension "" ∧ ∃ front stem, ms = front ++ [stem] ∧
      Plain (stem ++ "." ++ x) ∧
      StandsFor (.root :: (rs ++ (front ++ [stem ++ "." ++ x])).map .name) target.components (some x) := by
  have hlast := components_last htarget
  cases hexplicit : style.explicitExtension with
  | true =>
    obtain ⟨hindex, rfl⟩ := hshows.itself hexplicit
    exact ⟨front ++ [n], hplain, by rw [referenced_itself hindex hexplicit, htarget], fun _ => htarget ▸ .itself _, by simp⟩
  | false =>
    cases w with
    | some x =>
      obtain ⟨hindex, es, hx, e, he, hextension⟩ := hshows.replaced hexplicit x rfl
      obtain ⟨stem, rfl, hne, -, hstems, hcomponents⟩ := stem_of_extension? htarget hplain hextension
      have hnamed : referenced style target = target.withExtension "" := referenced_stem (by simp [hindex]) hexplicit
      refine ⟨front ++ [stem], hstems, by rw [hnamed, hcomponents], by simp, ?_⟩
      rintro _ ⟨⟩
      have hdotted := (hstems stem (by simp)).dotted (Or.inr ⟨_, hx, Or.inl rfl⟩) (unmarked_of_source hx)
      refine ⟨hnamed, front, stem, rfl, hdotted, ?_⟩
      rw [htarget, root_names_concat, root_names_concat]
      exact .replaced _ stem hne hx he
    | none =>
      rcases hshows.left_out hexplicit rfl with ⟨e, he, hextension⟩ | ⟨hextension, hindex⟩
      · obtain ⟨stem, rfl, hne, hfile, hstems, hcomponents⟩ := stem_of_extension? htarget hplain hextension
        by_cases hindex : style.index = true ∧ stem = "index"
        · -- the directory of an index file
          obtain ⟨hindex, rfl⟩ := hindex
          obtain ⟨dir, hdir, hdirComponents⟩ := Path.components_parent? hlast
          refine ⟨front, fun m hm => hplain m (List.mem_append_left _ hm),
            by rw [referenced_directory hindex hfile hdir, hdirComponents], fun _ => ?_, by simp⟩
          rw [htarget, root_names_concat]
          exact .index _ he
        · have hother : style.index = true → target.fileStem? ≠ some "index" := fun h hsame =>
            hindex ⟨h, Option.some.inj (hfile.symm.trans hsame)⟩
          refine ⟨front ++ [stem], hstems, by rw [referenced_stem hother hexplicit, hcomponents], fun _ => ?_, by simp⟩
          rw [htarget, root_names_concat, root_names_concat]
          exact .left_out _ stem hne he
      · -- a name without an extension is its own stem
        rw [Path.extension?_of_components hlast] at hextension
        have hstem : (Path.cutName n).1 = n := Path.cutName_eq_none (by rw [← hextension])
        refine ⟨front ++ [n], hplain, ?_, fun _ => htarget ▸ .itself _, by simp⟩
        rw [referenced_stem (by simp [hindex]) hexplicit,
          Path.components_withExtension hlast "" (by rw [hstem]; rfl) (hplain n (by simp)).name, root_names_concat]
        rfl

end

/-- What a specifier is that is written anew: the text of a way from the directory of its file to a path that stands for the
target. -/
structure WrittenAnew (dir : Path) (style : SpecifierStyle) (target : Path) (w : Option String) (old text : String)
    (up down : List String) : Prop where
  plain : ∀ n ∈ down, Plain n
  text : text = dotted up down ++ slashOf old ++ style.suffix
  way : ∃ shared, dir.components = .root :: (shared ++ up).map .name ∧
    ((dir.join ⟨dotted up down⟩).normalize).components = .root :: (shared ++ down).map .name
  stands : StandsFor ((dir.join ⟨dotted up down⟩).normalize).components target.components w
  named : w = none → ((dir.join ⟨dotted up down⟩).normalize).components = (referenced style target).components

section

variable {dir target : Path} {style : SpecifierStyle} {w : Option String} {old text : String} {up down : List String}
  (h : WrittenAnew dir style target w old text up down) (hsuffix : Suffix style.suffix)

include h hsuffix

theorem WrittenAnew.splitSuffix_text : splitSuffix text = (dotted up down ++ slashOf old, style.suffix) := by
  rw [h.text]
  exact splitSuffix_dotted h.plain hsuffix old

theorem WrittenAnew.pathPart_text : KnownFiles.pathPart text = dotted up down ∧ isExternal text = false := by
  rw [h.text]
  exact pathPart_dotted h.plain hsuffix old

end

/-- A specifier that is written anew is the text of a way, and the path where the way leads stands for the target as the
style says. -/
theorem dress_format {style : SpecifierStyle} (root : Path) {importer target dir : Path} (hdir : importer.parent? = some dir)
    (hbase : style.base = .importingFile) (hlead : style.lead = .dot) (hsuffix : Suffix style.suffix) {rs is ns : List String}
    (hrs : ∀ n ∈ rs, IsName n) (hcomponents : dir.components = .root :: (rs ++ is).map .name)
    (htarget : target.components = .root :: (rs ++ ns).map .name) (hne : ns ≠ []) (hplain : ∀ n ∈ ns, Plain n)
    {w : Option String} (hshows : style.Shows target w)
    (hapart : ∀ x ∈ w, ¬ (target.withExtension "").components <+: dir.components) (old : String) :
    ∃ up down, WrittenAnew dir style target w old (References.dress old (format style root importer target) w) up down := by
  obtain ⟨front, n, rfl⟩ := List.eq_nil_or_concat ns |>.resolve_left hne
  rw [List.concat_eq_append] at htarget hplain
  obtain ⟨ms, hms, hnamed, hnone, hsome⟩ := referenced_spec htarget hplain hshows
  obtain ⟨shared, down, up, rfl, rfl, hformat⟩ := format_dotted hdir hbase hlead hcomponents hnamed hms
  have hdownPlain : ∀ m ∈ down, Plain m := fun m hm => hms m (List.mem_append_right _ hm)
  rw [← List.append_assoc] at hcomponents
  have hleads : ∀ {down : List String}, (∀ m ∈ down, Plain m) → ((dir.join ⟨dotted up down⟩).normalize).components =
      .root :: (rs ++ shared ++ down).map .name := by
    intro down hdown
    refine Path.components_normalize_way hcomponents (fun m hm => ?_)
      (KnownFiles.relative_of_dot (lead_dotted up down)) (dotted_spec hdown).2
    rw [List.mem_append, List.mem_append] at hm
    rcases hm with (hm | hm) | hm
    · exact hrs m hm
    · exact (hms m (List.mem_append_left _ hm)).name
    · exact (hdown m hm).name
  have hunmarked := (show PathText (dotted up down) from (dotted_spec hdownPlain).1).plain
  rw [hformat]
  cases w with
  | none =>
    refine ⟨up, down, hdownPlain, dress_eq hunmarked hsuffix old (endsWith_dotted hdownPlain),
      ⟨_, hcomponents, hleads hdownPlain⟩, ?_, fun _ => ?_⟩ <;> rw [hleads hdownPlain, List.append_assoc]
    · exact hnone rfl
    · exact hnamed.symm
  | some x =>
    obtain ⟨hwithout, front', stem, hsplit, hstemPlain, hstands⟩ := hsome x rfl
    -- the path named is not the directory of the file nor above it, so the way goes down
    obtain ⟨down, m, rfl⟩ := List.eq_nil_or_concat down |>.resolve_left fun hnil => by
      subst hnil
      refine hapart x rfl ?_
      rw [← hwithout, hnamed, hcomponents, List.append_nil]
      exact (List.prefix_cons_inj _).mpr ((List.prefix_append _ up).map _)
    rw [List.concat_eq_append] at hdownPlain hsplit hunmarked ⊢
    rw [← List.append_assoc] at hsplit
    obtain ⟨rfl, hlast⟩ := List.append_inj' hsplit rfl
    obtain rfl : m = stem := List.head_eq_of_cons_eq hlast
    have hdown' : ∀ k ∈ down ++ [m ++ "." ++ x], Plain k := by
      intro k hk
      rcases List.mem_append.mp hk with hk | hk
      · exact hdownPlain k (List.mem_append_left _ hk)
      · exact List.mem_singleton.mp hk ▸ hstemPlain
    have hextended : extended (dotted up (down ++ [m])) (some x) = dotted up (down ++ [m ++ "." ++ x]) :=
      dotted_concat up down m x
    refine ⟨up, down ++ [m ++ "." ++ x], hdown', ?_, ⟨_, hcomponents, hleads hdown'⟩, ?_, by simp⟩
    · rw [dress_eq hunmarked hsuffix old (by rw [hextended]; exact endsWith_dotted hdown'), hextended]
    · rw [hleads hdown', List.append_assoc, ← List.append_assoc shared]
      exact hstands

end Specifier

end Refactor
