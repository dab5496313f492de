import Refactor.Proofs.Path.Endings
import Refactor.Proofs.Reference.Formatted
import Refactor.Proofs.Reference.Known

/-!
# What a path may stand for

Letter case aside, a path of a specifier may stand for itself, for a file with its extension left out or written in place
of that of its source, or for an index file. A known file that shares no such path with another one is what each of them is
resolved to.

* `StandsFor` — what components may stand for
* `KnownFiles.standsFor_of_mem_variants`, `KnownFiles.exists_of_standsFor` — the files that are tried for a path
* `StandsFor.unique` — a path stands for a file in one way
* `KnownFiles.Unrivalled` — a file that no path stands for together with another one
* `StandsFor.mem_spellings`, `KnownFiles.unrivalled_of_spellings` — what stands for a file, written down
* `KnownFiles.answer_of_unrivalled` — what a path is resolved to when it stands for such a file
-/

namespace Refactor

open Path (IsName)
open KnownFiles (implicitExtensions sourceExtensions variants)

namespace Path

/-! ## Names of absolute paths -/

theorem isName_of_mem {p : Path} (h : p.isAbsolute = true) {m : String} (hm : .name m ∈ p.components) : IsName m := by
  obtain ⟨ss, hss, hcomponents⟩ := components_absolute h
  rw [hcomponents, List.mem_cons] at hm
  obtain ⟨s, hs, heq⟩ := List.mem_map.mp (hm.resolve_left (by simp))
  unfold componentOf at heq
  split at heq
  · cases heq
  · rename_i hdots
    obtain rfl := Component.name.inj heq
    exact ⟨hss s hs, by simpa using hdots⟩

theorem components_of_fileName? {p : Path} (h : p.isAbsolute = true) {m : String} (hm : p.fileName? = some m) :
    IsName m ∧ ∃ cs, p.components = .root :: (cs ++ [.name m]) := by
  have hlast : p.components.getLast? = some (.name m) := by
    unfold fileName? at hm
    split at hm
    · rename_i s hs
      rw [hs, Option.some.inj hm]
    · cases hm
  refine ⟨isName_of_mem h (List.mem_of_getLast? hlast), ?_⟩
  obtain ⟨front, hfront⟩ := List.getLast?_eq_some_iff.mp hlast
  obtain ⟨_, _, hcomponents⟩ := components_absolute h
  rw [hcomponents] at hfront
  cases front with
  | nil => cases hfront
  | cons c cs => exact ⟨cs, by rw [hcomponents, hfront, (List.cons.inj hfront).1]; rfl⟩

theorem isName_dotted {stem e : String} (hstem : stem ≠ "") (hslash : '/' ∉ stem.toList) (he : e ≠ "")
    (heslash : '/' ∉ e.toList) : IsName (stem ++ "." ++ e) := by
  have hlong : ∀ s : String, stem ++ "." ++ e = s → 3 ≤ s.length := by
    rintro _ rfl
    have hpos : ∀ {t : String}, t ≠ "" → 0 < t.length := fun ht =>
      Nat.pos_of_ne_zero (mt String.length_eq_zero_iff.mp ht)
    have hdot : ".".length = 1 := rfl
    rw [String.length_append, String.length_append]
    have := hpos hstem
    have := hpos he
    omega
  refine ⟨⟨fun h => absurd (hlong _ h) (by decide), fun h => absurd (hlong _ h) (by decide), ?_⟩,
    fun h => absurd (hlong _ h) (by decide)⟩
  simp [hslash, heslash]

theorem isAbsolute_normalize {p : Path} (h : p.isAbsolute = true) : p.normalize.isAbsolute = true := by
  obtain ⟨ss, _, hnormal⟩ := normalize_absolute h
  rw [hnormal]
  exact isAbsolute_pathOf ss

theorem Below.congr {root p q : Path} (h : root.Below q) (hpq : p.components = q.components) : root.Below p where
  absolute := (isAbsolute_congr hpq).trans h.absolute
  down := hpq ▸ h.down
  inside := by
    rw [startsWith_iff, hpq]
    exact (startsWith_iff q root).mp h.inside
  proper := by
    rw [beq_eq_false_iff, hpq]
    exact (beq_eq_false_iff q root).mp h.proper

end Path

/-! ## Extensions -/

/-- Extensions that may be left out, those of sources and those that are written for them. -/
def IsKnownExtension (e : String) : Prop :=
  e ∈ implicitExtensions ∨ ∃ x ∈ sourceExtensions, e = x.1 ∨ e ∈ x.2

theorem IsKnownExtension.plain {e : String} (h : IsKnownExtension e) : e ≠ "" ∧ '.' ∉ e.toList ∧ '/' ∉ e.toList := by
  have hall : ∀ e ∈ implicitExtensions ++ sourceExtensions.flatMap (fun x => x.1 :: x.2),
      e ≠ "" ∧ '.' ∉ e.toList ∧ '/' ∉ e.toList := by decide
  refine hall e (List.mem_append.mpr (h.imp_right ?_))
  rintro ⟨x, hx, he⟩
  exact List.mem_flatMap.mpr ⟨x, hx, List.mem_cons.mpr he⟩

theorem cutName_dotted {stem e : String} (hstem : stem ≠ "") (he : IsKnownExtension e) :
    Path.cutName (stem ++ "." ++ e) = (stem, some e) :=
  Path.cutName_eq_some_iff.mpr ⟨rfl, hstem, he.plain.2.1⟩

/-- What a specifier is resolved to can be compared with a path and its text. -/
instance (resolution : Resolution) (p : Path) (base : SpecifierBase) (w : Option String) :
    Decidable (resolution = .resolved p base w) :=
  match resolution with
  | .resolved p' base' w' =>
    decidable_of_iff (p'.raw = p.raw ∧ base' = base ∧ w' = w) <| by
      rw [Resolution.resolved.injEq, ← Path.mk.injEq]
  | .ambiguous _ => isFalse (by simp)
  | .unresolved => isFalse (by simp)

instance (resolution : Resolution) : Decidable (resolution = .unresolved) :=
  match resolution with
  | .resolved .. => isFalse (by simp)
  | .ambiguous _ => isFalse (by simp)
  | .unresolved => isTrue rfl

namespace KnownFiles

theorem lookup_sourceExtensions {x : String} {es : List String} :
    sourceExtensions.lookup x = some es ↔ (x, es) ∈ sourceExtensions := by
  constructor
  · intro h
    obtain ⟨front, back, hsplit, _⟩ := List.lookup_eq_some_iff.mp h
    rw [hsplit]
    simp
  · intro h
    have hall : ∀ y ∈ sourceExtensions, sourceExtensions.lookup y.1 = some y.2 := by decide
    exact hall _ h

/-- No source has an extension that is written for another one. -/
theorem not_source_of_written {x e : String} {es : List String} (h : (x, es) ∈ sourceExtensions) (he : e ∈ es) : e ≠ x := by
  have hall : ∀ y ∈ sourceExtensions, ∀ e ∈ y.2, e ≠ y.1 := by decide
  exact hall _ h e he

end KnownFiles

/-! ## What components may stand for -/

/-- What the components of a path may stand for, with the extension that is written for another one. -/
inductive StandsFor : List Component → List Component → Option String → Prop
  | itself (ds : List Component) : StandsFor ds ds none
  | left_out (cs : List Component) (m : String) {e : String} (hm : m ≠ "") (he : e ∈ implicitExtensions) :
    StandsFor (cs ++ [.name m]) (cs ++ [.name (m ++ "." ++ e)]) none
  | replaced (cs : List Component) (stem : String) {x e : String} {es : List String} (hstem : stem ≠ "")
      (hx : (x, es) ∈ sourceExtensions) (he : e ∈ es) :
    StandsFor (cs ++ [.name (stem ++ "." ++ x)]) (cs ++ [.name (stem ++ "." ++ e)]) (some x)
  | index (ds : List Component) {e : String} (he : e ∈ implicitExtensions) :
    StandsFor ds (ds ++ [.name ("index." ++ e)]) none

namespace StandsFor

variable {ds fs : List Component} {w w' : Option String}

/-- A path that writes another extension stands for the file in no other way. -/
theorem written_eq (h : StandsFor ds fs w) {cs : List Component} {stem x e : String} {es : List String}
    (hds : ds = cs ++ [.name (stem ++ "." ++ x)]) (hfs : fs = cs ++ [.name (stem ++ "." ++ e)]) (hstem : stem ≠ "")
    (hx : (x, es) ∈ sourceExtensions) (he : e ∈ es) : w = some x := by
  have hcutx := cutName_dotted hstem (Or.inr ⟨_, hx, Or.inl rfl⟩)
  have hcute := cutName_dotted hstem (Or.inr ⟨_, hx, Or.inr he⟩)
  have hlast : ∀ {as bs : List Component} {a b : String}, as ++ [Component.name a] = bs ++ [.name b] → a = b := by
    intro as bs a b heq
    exact Component.name.inj (List.head_eq_of_cons_eq (List.append_inj' heq rfl).2)
  cases h with
  | itself =>
    have hsame := hlast (hds.symm.trans hfs)
    rw [hsame, hcute] at hcutx
    exact absurd (Option.some.inj (Prod.mk.inj hcutx).2) (KnownFiles.not_source_of_written hx he)
  | left_out _ m hm he' =>
    -- the two stems would be the same, and the one the other with an extension
    rw [← hlast hfs, cutName_dotted hm (Or.inl he')] at hcute
    have hsame := hlast hds
    rw [(Prod.mk.inj hcute).1] at hsame
    have hlength := congrArg String.length hsame
    have hdot : ".".length = 1 := rfl
    rw [String.length_append, String.length_append] at hlength
    omega
  | replaced _ stem' hstem' hx' _ =>
    rw [← hlast hds, cutName_dotted hstem' (Or.inr ⟨_, hx', Or.inl rfl⟩)] at hcutx
    exact (Prod.mk.inj hcutx).2
  | index =>
    have hlength := congrArg List.length hfs
    rw [hds] at hlength
    simp at hlength

/-- A path stands for a file in one way. -/
theorem unique (h : StandsFor ds fs w) (h' : StandsFor ds fs w') : w = w' := by
  have hwritten : ∀ {x : String} {w : Option String}, StandsFor ds fs (some x) → StandsFor ds fs w → w = some x := by
    intro x w hx hw
    generalize hextension : some x = written at hx
    cases hx with
    | itself => cases hextension
    | left_out => cases hextension
    | replaced cs stem hstem hx he =>
      exact hw.written_eq rfl rfl hstem hx he
    | index => cases hextension
  cases w with
  | some x => exact (hwritten h h').symm
  | none =>
    cases w' with
    | some x => exact hwritten h' h
    | none => rfl

end StandsFor

/-- The components that stand for given ones. -/
def spellings (fs : List Component) : List (List Component) :=
  fs :: match fs.getLast? with
    | some (.name n) =>
      match Path.cutName n with
      | (stem, some e) =>
        (if e ∈ implicitExtensions then
          (fs.dropLast ++ [.name stem]) :: (if stem = "index" then [fs.dropLast] else []) else []) ++
          (sourceExtensions.filter fun x => e ∈ x.2).map fun x => fs.dropLast ++ [.name (stem ++ "." ++ x.1)]
      | _ => []
    | _ => []

theorem spellings_dotted (cs : List Component) {stem e : String} (hstem : stem ≠ "") (he : IsKnownExtension e) :
    spellings (cs ++ [.name (stem ++ "." ++ e)]) = (cs ++ [.name (stem ++ "." ++ e)]) ::
      ((if e ∈ implicitExtensions then (cs ++ [.name stem]) :: (if stem = "index" then [cs] else []) else []) ++
        (sourceExtensions.filter fun x => e ∈ x.2).map fun x => cs ++ [.name (stem ++ "." ++ x.1)]) := by
  rw [spellings, List.getLast?_concat]
  dsimp only
  rw [cutName_dotted hstem he]
  dsimp only
  rw [List.dropLast_concat]

theorem StandsFor.mem_spellings {ds fs : List Component} {w : Option String} (h : StandsFor ds fs w) : ds ∈ spellings fs := by
  cases h with
  | itself => exact List.mem_cons_self
  | left_out cs m hm he =>
    rw [spellings_dotted cs hm (Or.inl he), if_pos he]
    simp
  | replaced cs stem hstem hx he =>
    rw [spellings_dotted cs hstem (Or.inr ⟨_, hx, Or.inr he⟩)]
    refine List.mem_cons_of_mem _ (List.mem_append_right _ (List.mem_map.mpr ⟨_, List.mem_filter.mpr ⟨hx, ?_⟩, rfl⟩))
    simpa using he
  | index ds he =>
    have hspellings := spellings_dotted ds (show "index" ≠ "" by decide) (Or.inl he)
    rw [if_pos he, if_pos rfl] at hspellings
    show ds ∈ spellings (ds ++ [.name ("index" ++ "." ++ _)])
    rw [hspellings]
    simp

namespace KnownFiles

variable {p : Path}

/-- A file with another extension that is tried for a path has another last name. -/
theorem variants_spec (hp : p.isAbsolute = true) {v : Path} {w : Option String} (h : (v, w) ∈ variants p) :
    ∃ cs m m', p.components = cs ++ [.name m] ∧ v.components = cs ++ [.name m'] ∧
      StandsFor (cs ++ [.name m]) (cs ++ [.name m']) w := by
  unfold variants at h
  split at h
  · cases h
  · rename_i m hm
    obtain ⟨hname, cs, hcomponents⟩ := Path.components_of_fileName? hp hm
    rcases List.mem_append.mp h with h | h
    · obtain ⟨e, he, heq⟩ := List.mem_map.mp h
      obtain ⟨rfl, rfl⟩ := Prod.mk.inj heq
      have hplain := IsKnownExtension.plain (Or.inl he)
      exact ⟨.root :: cs, m, m ++ "." ++ e, hcomponents, Path.components_withFileName hcomponents
        (Path.isName_dotted hname.1.1 hname.1.2.2 hplain.1 hplain.2.2), .left_out _ m hname.1.1 he⟩
    · rw [Path.extension?_of_components hcomponents] at h
      split at h
      · cases h
      · rename_i x hx
        obtain ⟨e, he, heq⟩ := List.mem_map.mp h
        obtain ⟨rfl, rfl⟩ := Prod.mk.inj heq
        obtain ⟨es, hes⟩ : ∃ es, sourceExtensions.lookup x = some es := by
          cases hlookup : sourceExtensions.lookup x with
          | none => simp [hlookup] at he
          | some es => exact ⟨es, rfl⟩
        rw [hes, Option.getD_some] at he
        rw [lookup_sourceExtensions] at hes
        have hplain := IsKnownExtension.plain (Or.inr ⟨_, hes, Or.inr he⟩)
        obtain ⟨stem, hcut⟩ : ∃ stem, Path.cutName m = (stem, some x) := ⟨_, by rw [← hx]⟩
        obtain ⟨rfl, hstem, _⟩ := Path.cutName_eq_some_iff.mp hcut
        have hslash : '/' ∉ stem.toList := fun hmem => hname.1.2.2 (by simp [hmem])
        exact ⟨.root :: cs, stem ++ "." ++ x, stem ++ "." ++ e, hcomponents, Path.components_withExtension hcomponents e
          (by rw [if_neg (by simpa using hplain.1), hcut]) (Path.isName_dotted hstem hslash hplain.1 hplain.2.2),
          .replaced _ stem hstem hes he⟩

theorem standsFor_of_mem_variants (hp : p.isAbsolute = true) {v : Path} {w : Option String} (h : (v, w) ∈ variants p) :
    StandsFor p.components v.components w := by
  obtain ⟨cs, m, m', hm, hm', hstands⟩ := variants_spec hp h
  rw [hm, hm']
  exact hstands

theorem components_index (hp : p.isAbsolute = true) {e : String} (he : e ∈ implicitExtensions) :
    (p.join ⟨"index." ++ e⟩).components = p.components ++ [.name ("index." ++ e)] := by
  have hall : ∀ e ∈ implicitExtensions, IsName ("index." ++ e) := by decide
  exact Path.components_join_name hp (hall e he)

/-- What a path stands for is tried for it. -/
theorem exists_of_standsFor (hp : p.isAbsolute = true) {fs : List Component} {w : Option String}
    (h : StandsFor p.components fs w) : (p.components = fs ∧ w = none) ∨ (∃ v, (v, w) ∈ variants p ∧ v.components = fs) ∨
      w = none ∧ ∃ e ∈ implicitExtensions, (p.join ⟨"index." ++ e⟩).components = fs := by
  have hlast : ∀ {cs : List Component} {m : String}, p.components = cs ++ [.name m] →
      p.fileName? = some m ∧ IsName m ∧ ∃ cs', cs = .root :: cs' := by
    intro cs m heq
    have hm : p.fileName? = some m := by rw [Path.fileName?, heq, List.getLast?_concat]
    obtain ⟨hname, cs', hcomponents⟩ := Path.components_of_fileName? hp hm
    rw [heq, ← List.cons_append] at hcomponents
    exact ⟨hm, hname, cs', (List.append_inj' hcomponents rfl).1⟩
  generalize hds : p.components = ds at h
  cases h with
  | itself => exact Or.inl ⟨rfl, rfl⟩
  | left_out cs m hm he =>
    obtain ⟨hfile, hname, cs', rfl⟩ := hlast hds
    have hplain := IsKnownExtension.plain (Or.inl he)
    refine Or.inr (Or.inl ⟨_, ?_, Path.components_withFileName hds
      (Path.isName_dotted hm hname.1.2.2 hplain.1 hplain.2.2)⟩)
    unfold variants
    rw [hfile]
    exact List.mem_append_left _ (List.mem_map_of_mem he)
  | replaced cs stem hstem hx he =>
    rename_i x e es
    obtain ⟨hfile, hname, cs', rfl⟩ := hlast hds
    have hcut := cutName_dotted hstem (Or.inr ⟨_, hx, Or.inl rfl⟩)
    have hplain := IsKnownExtension.plain (Or.inr ⟨_, hx, Or.inr he⟩)
    have hslash : '/' ∉ stem.toList := fun hmem => hname.1.2.2 (by simp [hmem])
    refine Or.inr (Or.inl ⟨p.withExtension e, ?_, Path.components_withExtension hds e
      (by rw [if_neg (by simpa using hplain.1), hcut]) (Path.isName_dotted hstem hslash hplain.1 hplain.2.2)⟩)
    unfold variants
    rw [hfile, Path.extension?_of_components hds, hcut]
    dsimp only
    rw [lookup_sourceExtensions.mpr hx, Option.getD_some]
    exact List.mem_append_right _ (List.mem_map_of_mem he)
  | index _ he => exact Or.inr (Or.inr ⟨rfl, _, he, by rw [components_index hp he, hds]⟩)

/-! ## Resolving -/

/-- What the places that a path text may mean are resolved to. -/
def answer (k : KnownFiles) (bs : List (SpecifierBase × Path)) : Resolution :=
  (k.exactly? bs).getD ((k.byExtension? bs).getD ((k.byDirectory? bs).getD (k.byCase bs)))

/-- No file is tried with success for a place, apart from an index file. -/
def Silent (k : KnownFiles) (p : Path) : Prop := k.isFile p = false ∧ ∀ v ∈ variants p, k.isFile v.1 = false

/-- A file that no path stands for together with another file. -/
def Unrivalled (files : List Path) (f : Path) : Prop :=
  ∀ g ∈ files, ∀ ds w w', StandsFor ds g.components w → StandsFor ds f.components w' → (g == f) = true

theorem unrivalled_of_spellings {files : List Path} {f : Path}
    (h : ∀ g ∈ files, (g == f) = true ∨ ∀ ds ∈ spellings g.components, ds ∉ spellings f.components) :
    Unrivalled files f := by
  intro g hg ds w w' hds hds'
  exact (h g hg).resolve_right fun hapart => hapart ds hds.mem_spellings hds'.mem_spellings

section

variable {root f : Path} {files : List Path} {base : SpecifierBase} {others : List (SpecifierBase × Path)}

/-- A known file that a path stands for together with an unrivalled one is that one. -/
theorem Unrivalled.eq (h : Unrivalled files f) {w w' : Option String} (hf : StandsFor p.components f.components w)
    {q : Path} (hq : StandsFor p.components q.components w') (hknown : (ofFiles root files).isFile q = true) :
    (q == f) = true ∧ w' = w := by
  obtain ⟨g, hg, hqg⟩ := ((records_ofFiles root files).isFile q).mp hknown
  rw [Path.beq_iff] at hqg
  have hgf := (Path.beq_iff g f).mp (h g hg _ _ _ (hqg ▸ hq) hf)
  have hqf := hqg.trans hgf
  exact ⟨(Path.beq_iff q f).mpr hqf, (hqf ▸ hq).unique hf⟩

theorem exactly?_eq_none {k : KnownFiles} {bs : List (SpecifierBase × Path)} (h : ∀ x ∈ bs, k.isFile x.2 = false) :
    k.exactly? bs = none := by
  unfold exactly?
  rw [Option.map_eq_none_iff, List.find?_eq_none]
  intro x hx
  simp [h x hx]

theorem byExtension?_eq_none {k : KnownFiles} {bs : List (SpecifierBase × Path)}
    (h : ∀ x ∈ bs, ∀ v ∈ variants x.2, k.isFile v.1 = false) : k.byExtension? bs = none := by
  unfold byExtension?
  rw [List.findSome?_eq_none_iff]
  intro x hx
  rw [Option.map_eq_none_iff, List.find?_eq_none]
  intro v hv
  simp [h x hx v hv]

/-- A directory in the root that has a known index file is known. -/
theorem isDir_of_index (hp : p.isAbsolute = true) (hroot : p.startsWith root = true) {e : String}
    (he : e ∈ implicitExtensions) (hindex : (ofFiles root files).isFile (p.join ⟨"index." ++ e⟩) = true) :
    (ofFiles root files).isDir p = true := by
  obtain ⟨g, hg, heq⟩ := ((records_ofFiles root files).isFile _).mp hindex
  rw [Path.beq_iff, components_index hp he] at heq
  refine ((records_ofFiles root files).isDir p).mpr ⟨hroot, g, hg, ⟨_, heq⟩, fun hsame => ?_, ?_⟩
  · have hlength := congrArg List.length (heq.trans hsame.symm)
    simp at hlength
  · rw [Path.components_of_absolute hp, List.cons_append] at heq
    rw [hp, Path.isAbsolute_of_components heq.symm]

/-- A directory is resolved to its index file, when that one is unrivalled. -/
theorem byDirectory?_of_index (hp : p.isAbsolute = true) {e : String} (he : e ∈ implicitExtensions)
    (hindex : (p.join ⟨"index." ++ e⟩).components = f.components) (hknown : (ofFiles root files).isFile f = true)
    (hbelow : root.Below f) (h : Unrivalled files f) :
    ∃ q, (ofFiles root files).byDirectory? ((base, p) :: others) = some (.resolved q base none) ∧ (q == f) = true := by
  have hfile : (ofFiles root files).isFile (p.join ⟨"index." ++ e⟩) = true :=
    (isFile_congr ((Path.beq_iff _ f).mpr hindex) _).trans hknown
  have hinside : p.startsWith root = true := by
    have hprefix := (Path.startsWith_iff f root).mp hbelow.inside
    have hproper := (Path.beq_eq_false_iff f root).mp hbelow.proper
    rw [← hindex, components_index hp he] at hprefix hproper
    exact (Path.startsWith_iff p root).mpr
      ((List.prefix_concat_iff.mp hprefix).resolve_left fun hsame => hproper hsame.symm)
  have hfirst : ((base, p) :: others).find? (fun x => (ofFiles root files).isDir x.2) = some (base, p) :=
    List.find?_cons_of_pos (isDir_of_index hp hinside he hfile)
  have hmeans : ∀ e' ∈ implicitExtensions, StandsFor p.components (p.join ⟨"index." ++ e'⟩).components none := by
    intro e' he'
    rw [components_index hp he']
    exact .index _ he'
  have hstands : StandsFor p.components f.components none := by
    rw [← hindex]
    exact hmeans e he
  unfold byDirectory?
  rw [hfirst, Option.map_some]
  dsimp only
  cases hfind : (implicitExtensions.map fun e => p.join ⟨"index." ++ e⟩).find? (ofFiles root files).isFile with
  | none => exact absurd hfile (List.find?_eq_none.mp hfind _ (List.mem_map_of_mem he))
  | some q =>
    obtain ⟨e', he', rfl⟩ := List.mem_map.mp (List.mem_of_find?_eq_some hfind)
    exact ⟨_, rfl, (h.eq hstands (hmeans e' he') (List.find?_some hfind)).1⟩

/-- A path that stands for an unrivalled file is resolved to that file, if nothing is tried with success from elsewhere. -/
theorem answer_of_unrivalled (hp : p.isAbsolute = true) {w : Option String}
    (hstands : StandsFor p.components f.components w) (hknown : (ofFiles root files).isFile f = true)
    (hbelow : root.Below f) (h : Unrivalled files f)
    (hsilent : ∀ x ∈ others, (ofFiles root files).Silent x.2) :
    ∃ q, (ofFiles root files).answer ((base, p) :: others) = .resolved q base w ∧ (q == f) = true := by
  have hcongr : ∀ {q : Path}, q.components = f.components → (ofFiles root files).isFile q = true := fun hq =>
    (isFile_congr ((Path.beq_iff _ f).mpr hq) _).trans hknown
  unfold answer
  cases hitself : (ofFiles root files).isFile p with
  | true =>
    obtain ⟨heq, rfl⟩ := h.eq hstands (.itself _) hitself
    exact ⟨p, by rw [exactly?_cons hitself]; rfl, heq⟩
  | false =>
    rw [exactly?_eq_none (List.forall_mem_cons.mpr ⟨hitself, fun x hx => (hsilent x hx).1⟩), Option.getD_none]
    cases hvariant : (variants p).find? fun v => (ofFiles root files).isFile v.1 with
    | some v =>
      have hfound := List.find?_some hvariant
      obtain ⟨heq, hw⟩ := h.eq hstands (standsFor_of_mem_variants hp (List.mem_of_find?_eq_some hvariant)) hfound
      refine ⟨v.1, ?_, heq⟩
      rw [byExtension?, List.findSome?_cons]
      dsimp only
      rw [hvariant, Option.map_some, Option.getD_some, hw]
    | none =>
      have hno : ∀ v ∈ variants p, (ofFiles root files).isFile v.1 = false := fun v hv =>
        Bool.eq_false_iff.mpr (List.find?_eq_none.mp hvariant v hv)
      have hextension : (ofFiles root files).byExtension? ((base, p) :: others) = none :=
        byExtension?_eq_none (List.forall_mem_cons.mpr ⟨hno, fun x hx => (hsilent x hx).2⟩)
      rw [hextension, Option.getD_none]
      rcases exists_of_standsFor hp hstands with ⟨heq, -⟩ | ⟨v, hv, heq⟩ | ⟨rfl, e, he, hindex⟩
      · exact absurd (hcongr heq) (Bool.eq_false_iff.mp hitself)
      · exact absurd (hcongr heq) (Bool.eq_false_iff.mp (hno _ hv))
      · obtain ⟨q, hq, heq⟩ := byDirectory?_of_index hp he hindex hknown hbelow h
        exact ⟨q, by rw [hq, Option.getD_some], heq⟩

end

/-! ## Specifiers that start with a dot -/

/-- The path of a specifier, without slashes at its end. -/
def pathPart (s : String) : String :=
  String.ofList (Text.dropWhileEnd (· == '/') (Specifier.splitSuffix s).1.toList)

theorem resolve_eq_answer (k : KnownFiles) (root importer : Path) (s : String) : k.resolve root importer s =
    if Specifier.isExternal s then .unresolved else if pathPart s == "" then .unresolved
    else k.answer (bases root importer (pathPart s)) := rfl

theorem dot_cases {t : String} (h : SpecifierLead.ofText t = .dot) :
    (startsWith t "./" || startsWith t "../") = true ∨ t = "." ∨ t = ".." := by
  unfold SpecifierLead.ofText at h
  split at h
  · rename_i hdot
    simpa only [Bool.or_eq_true, beq_iff_eq, or_assoc] using hdot
  · split at h <;> cases h

theorem head_of_dot {t : String} (h : SpecifierLead.ofText t = .dot) : t.toList.head? = some '.' := by
  rcases dot_cases h with h | rfl | rfl
  · rw [Bool.or_eq_true] at h
    rcases h with h | h <;> obtain ⟨rest, hrest⟩ := List.isPrefixOf_iff_prefix.mp h <;> rw [← hrest] <;> rfl
  · decide
  · decide

theorem relative_of_dot {t : String} (h : SpecifierLead.ofText t = .dot) : (Path.mk t).isAbsolute = false := by
  obtain ⟨rest, hrest⟩ := List.head?_eq_some_iff.mp (head_of_dot h)
  rw [Path.isAbsolute, startsWith, hrest]
  rfl

/-- A path text that starts with a dot is seen from the directory of the file; the directory itself and the one above it are
also seen from the root. -/
theorem bases_dot (root : Path) {importer dir : Path} (hdir : importer.parent? = some dir) {t : String}
    (ht : SpecifierLead.ofText t = .dot) : ∃ others, bases root importer t =
      (.importingFile, (dir.join ⟨t⟩).normalize) :: others ∧
      ∀ x ∈ others, (t = "." ∨ t = "..") ∧ x.2 = (root.join ⟨t⟩).normalize := by
  have hlead : afterLead? t "/" = none := by
    rw [afterLead?, Option.map_eq_none_iff, Text.dropLead?_eq_none_iff, ← List.isPrefixOf_iff_prefix]
    exact Bool.not_eq_true _ ▸ relative_of_dot ht
  unfold bases
  rw [hlead, hdir, Option.getD_some]
  dsimp only
  split
  · exact ⟨[], rfl, by simp⟩
  · rename_i hnot
    refine ⟨_, rfl, fun x hx => ?_⟩
    rw [List.mem_singleton.mp hx]
    rw [Bool.or_eq_true, not_or] at hnot
    exact ⟨(dot_cases ht).resolve_left hnot.1, rfl⟩

section

variable {root : Path} (hroot : root.Normal) {files : List Path} (hfiles : ∀ f ∈ files, root.Below f)

include hroot hfiles

omit hfiles in
/-- The root and the directory above it have no more components than the root, or a step upwards. -/
theorem components_around_root {t : String} (ht : t = "." ∨ t = "..") :
    (root.join ⟨t⟩).normalize.isAbsolute = true ∧
      ((root.join ⟨t⟩).normalize.components.length ≤ root.components.length ∨
        (root.join ⟨t⟩).normalize.components = [.root, .parent]) := by
  obtain ⟨rs, hrs, hcomponents⟩ := Path.components_down hroot.absolute hroot.down
  have hway : ∀ {shared up : List String}, rs = shared ++ up →
      Path.inner t = (Path.way up []).map Path.componentOf → (Path.mk t).isAbsolute = false →
      (root.join ⟨t⟩).normalize.components = .root :: shared.map .name := by
    intro shared up hsplit hinner hrelative
    have habove : root.components = .root :: (shared ++ up).map .name := hsplit ▸ hcomponents
    have hnormal := Path.components_normalize_way habove
      (fun s hs => hrs s (hsplit ▸ List.mem_append_left _ (by simpa using hs))) hrelative hinner
    rwa [List.append_nil] at hnormal
  rcases ht with rfl | rfl
  · have heq := hway (List.append_nil rs).symm (by decide) (by decide)
    exact ⟨Path.isAbsolute_of_components heq, Or.inl (by rw [heq, hcomponents])⟩
  · cases rs using List.reverseRecOn with
    | nil =>
      have hjoin : (root.join ⟨".."⟩).components = .root :: [.parent] := by
        rw [Path.components_join hroot.absolute (by decide), hcomponents]
        rfl
      have hnormal : (root.join ⟨".."⟩).normalize.components = [.root, .parent] := by
        rw [Path.normalize_of_components hjoin]
        decide
      exact ⟨Path.isAbsolute_of_components hnormal, Or.inr hnormal⟩
    | append_singleton rs r =>
      have heq := hway rfl rfl (by decide)
      exact ⟨Path.isAbsolute_of_components heq, Or.inl (by rw [heq, hcomponents]; simp)⟩

theorem longer_of_isFile {q : Path} (h : (ofFiles root files).isFile q = true) :
    root.components.length < q.components.length ∧ .parent ∉ q.components := by
  obtain ⟨g, hg, heq⟩ := ((records_ofFiles root files).isFile q).mp h
  have hbelow := hfiles g hg
  obtain ⟨rs, ns, _, hne, hrs, hcomponents, _⟩ := hbelow.names hroot
  rw [(Path.beq_iff q g).mp heq]
  refine ⟨?_, hbelow.down⟩
  have hpos := List.length_pos_iff.mpr hne
  rw [hrs, hcomponents]
  simp only [List.length_cons, List.length_map, List.length_append]
  omega

/-- No project file is tried with success for the root or the directory above it. -/
theorem silent_root {t : String} (ht : t = "." ∨ t = "..") : (ofFiles root files).Silent (root.join ⟨t⟩).normalize := by
  obtain ⟨habs, hfew⟩ := components_around_root hroot ht
  refine ⟨Bool.not_eq_true _ ▸ fun hfile => ?_, fun ⟨v, w⟩ hv => Bool.not_eq_true _ ▸ fun hfile => ?_⟩
  · obtain ⟨hlonger, hdown⟩ := longer_of_isFile hroot hfiles hfile
    rcases hfew with hfew | hfew
    · exact absurd hlonger (by omega)
    · exact hdown (by rw [hfew]; simp)
  · obtain ⟨hlonger, -⟩ := longer_of_isFile hroot hfiles hfile
    obtain ⟨cs, m, m', hm, hm', -⟩ := variants_spec habs hv
    rcases hfew with hfew | hfew
    · dsimp only at hlonger
      rw [hm'] at hlonger
      rw [hm] at hfew
      simp only [List.length_append, List.length_singleton] at hlonger hfew
      omega
    · have hlast := congrArg List.getLast? (hfew.symm.trans hm)
      rw [List.getLast?_concat] at hlast
      cases hlast

/-- A specifier whose path starts with a dot and stands for an unrivalled project file is resolved to that file. -/
theorem resolve_of_unrivalled {importer dir f : Path} (hdir : importer.parent? = some dir) (habs : dir.isAbsolute = true)
    {s t : String} (hlocal : Specifier.isExternal s = false) (hpath : pathPart s = t)
    (hdot : SpecifierLead.ofText t = .dot) {w : Option String}
    (hstands : StandsFor ((dir.join ⟨t⟩).normalize).components f.components w)
    (hknown : (ofFiles root files).isFile f = true) (h : Unrivalled files f) :
    ∃ q, (ofFiles root files).resolve root importer s = .resolved q .importingFile w ∧ (q == f) = true := by
  obtain ⟨g, hg, hfg⟩ := ((records_ofFiles root files).isFile f).mp hknown
  obtain ⟨others, hbases, hothers⟩ := bases_dot root hdir hdot
  have hne : (t == "") = false := by
    rw [beq_eq_false_iff_ne]
    rintro rfl
    cases hdot
  rw [resolve_eq_answer, hlocal, hpath, hne, hbases, if_neg (by simp), if_neg (by simp)]
  refine answer_of_unrivalled (Path.isAbsolute_normalize (Path.isAbsolute_join habs)) hstands hknown
    ((hfiles g hg).congr ((Path.beq_iff f g).mp hfg)) h fun x hx => ?_
  obtain ⟨ht, hplace⟩ := hothers x hx
  rw [hplace]
  exact silent_root hroot hfiles ht

end

end KnownFiles

end Refactor
