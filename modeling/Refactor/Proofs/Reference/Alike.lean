import Refactor.Proofs.Reference.Transparent

/-!
# Caches that make no difference

Two caches are alike for a project when every file of it has the same references through both, as the files are. No
search takes a cache out of those that are alike, so searches of one tree that follow on each other see the same
references, whatever was cached before.

* `ImportCache.get_insert` — what is found after an entry was made
* `References.found` — the references that a file has through a cache
* `References.Alike` — caches through which all files have the same ones
* `References.scan_alike` — a file is read in the same way through caches that are alike
* `References.scan_seen` — so it is seen as it is without one
* `References.Faithful.alike` — two faithful caches are alike when no two contents have one checksum
-/

namespace Refactor

namespace ImportCache

/-! ## Lookups after a change -/

/-- A hit is an entry of a cache in use that has the fingerprint. -/
theorem get_answer (c : ImportCache) (file : Path) (fingerprint : String) :
    (c.get file fingerprint).1 = if c.enabled then (c.forward.find? file).bind fun info =>
      if info.fingerprint = fingerprint then some info.refs else none else none := by
  unfold get
  cases c.enabled with
  | false => rfl
  | true =>
    cases c.forward.find? file with
    | none => rfl
    | some info =>
      by_cases h : info.fingerprint = fingerprint
      · simp [h]
      · simp [h]

theorem get_enabled (c : ImportCache) (file : Path) (fingerprint : String) :
    (c.get file fingerprint).2.enabled = c.enabled := by
  unfold get
  split
  · rfl
  · split
    · split <;> rfl
    · rfl

theorem get_get (c : ImportCache) (p q : Path) (fingerprint fingerprint' : String) :
    ((c.get p fingerprint).2.get q fingerprint').1 = (c.get q fingerprint').1 := by
  rw [get_answer, get_answer, get_enabled, (get_spec c p fingerprint).1]

theorem removeReverse_enabled (c : ImportCache) (file : Path) : (c.removeReverse file).enabled = c.enabled := by
  unfold removeReverse
  split <;> rfl

/-- A new entry answers for its file when its fingerprint is asked for, and other files are as before. -/
theorem get_insert (c : ImportCache) (p q : Path) (info : FileImportInfo) (fingerprint : String) :
    ((c.insert p info).get q fingerprint).1 =
      if c.enabled && q == p then (if info.fingerprint = fingerprint then some info.refs else none)
      else (c.get q fingerprint).1 := by
  cases henabled : c.enabled with
  | false => simp [insert, henabled]
  | true =>
    have hinserted : (c.insert p info).enabled = true := by
      simp only [insert, henabled, Bool.not_true, Bool.false_eq_true, if_false, removeReverse_enabled]
    have hforward : (c.insert p info).forward = c.forward.insert p info := by
      simp only [insert, henabled, Bool.not_true, Bool.false_eq_true, if_false, removeReverse_forward]
    rw [get_answer, get_answer, hinserted, hforward, henabled, PathMap.find?_insert]
    cases q == p with
    | true => simp
    | false => simp

end ImportCache

namespace References

variable {r : References} {t : Tree} {c c' c'' : ImportCache}

/-! ## Caches that are alike -/

/-- The references that a file with a content has through a cache. -/
def found (r : References) (c : ImportCache) (file : Path) (bytes : ByteArray) : Option (List ImportRef) :=
  (c.get file (Checksum.ofBytes bytes)).1.or (r.parse file bytes)

/-- Through both caches every file of the project has the same references. -/
def Alike (r : References) (t : Tree) (c c' : ImportCache) : Prop :=
  ∀ file ∈ r.projectFiles t, ∀ bytes, t.read file = .ok bytes → r.found c file bytes = r.found c' file bytes

theorem Alike.refl (r : References) (t : Tree) (c : ImportCache) : r.Alike t c c := fun _ _ _ _ => rfl

theorem Alike.trans (h : r.Alike t c c') (h' : r.Alike t c' c'') : r.Alike t c c'' := fun file hfile bytes hread =>
  (h file hfile bytes hread).trans (h' file hfile bytes hread)

/-- Faithful caches are alike when no two contents have one checksum. -/
theorem Faithful.alike {S : Set ByteArray} (hS : Set.InjOn Checksum.ofBytes S)
    (ht : ∀ p b, t.read p = .ok b → b ∈ S) (hc : Faithful r S c) (hc' : Faithful r S c') : r.Alike t c c' := by
  have hparse : ∀ {c : ImportCache}, Faithful r S c → ∀ {file : Path} {bytes : ByteArray}, t.read file = .ok bytes →
      r.found c file bytes = r.parse file bytes := by
    intro c hc file bytes hread
    unfold found
    cases hget : (c.get file (Checksum.ofBytes bytes)).1 with
    | none => rfl
    | some refs => rw [hc.hit hS (ht file bytes hread) hget, Option.some_or]
  intro file _ bytes hread
  rw [hparse hc hread, hparse hc' hread]

/-! ## Searches -/

/-- The files of the project are each written in one way. -/
def Unambiguous (r : References) (t : Tree) : Prop :=
  ∀ p ∈ r.projectFiles t, ∀ q ∈ r.projectFiles t, (p == q) = true → p = q

/-- What a search keeps of a file is what the file has already. -/
theorem alike_insert (h : r.Unambiguous t) {file : Path} (hfile : file ∈ r.projectFiles t) {bytes : ByteArray}
    (hread : t.read file = .ok bytes) {refs : List ImportRef} (hrefs : r.found c file bytes = some refs)
    (targets : List Path) : r.Alike t c (c.insert file ⟨Checksum.ofBytes bytes, refs, targets⟩) := by
  intro q hq b hb
  rw [found, found, ImportCache.get_insert]
  split
  · rename_i hsame
    obtain rfl := h q hq file hfile (Bool.and_eq_true_iff.mp hsame).2
    obtain rfl : bytes = b := Except.ok.inj (hread.symm.trans hb)
    rw [if_pos rfl, Option.some_or, ← hrefs, found]
  · rfl

theorem alike_get (c : ImportCache) (p : Path) (fingerprint : String) : r.Alike t c (c.get p fingerprint).2 := by
  intro q _ b _
  rw [found, found, ImportCache.get_get]

/-- The references of a file are those that it has through the cache. -/
theorem cachedRefs_alike (h : r.Unambiguous t) (c : ImportCache) (known : KnownFiles) {file : Path}
    (hfile : file ∈ r.projectFiles t) {bytes : ByteArray} (hread : t.read file = .ok bytes) {extension content : String}
    (hext : file.extension?.map lowered = some extension) (htext : Bytes.text? bytes = some content) :
    Blind (r.Alike t c)
      (r.cachedRefs known file (r.registry.find? file) extension (Checksum.ofBytes bytes) content) := by
  have hparse : r.parse file bytes = refsOf (r.registry.find? file) extension content := by
    simp only [parse, hext, htext, Option.bind_eq_bind, Option.bind_some]
  refine ⟨r.found c file bytes, fun c₁ hc₁ => ?_⟩
  have hvia : r.found c₁ file bytes = (c₁.get file (Checksum.ofBytes bytes)).1.or
      (refsOf (r.registry.find? file) extension content) := by rw [found, hparse]
  have hget := alike_get (r := r) (t := t) c₁ file (Checksum.ofBytes bytes)
  have hkept := hc₁.trans hget
  have hsame := hget file hfile bytes hread
  rw [hc₁ file hfile bytes hread, cachedRefs_run]
  generalize c₁.get file (Checksum.ofBytes bytes) = hit at hvia hkept hsame ⊢
  obtain ⟨refs | refs, c₂⟩ := hit
  · rw [Option.none_or] at hvia
    rw [hvia] at hsame ⊢
    cases hrefs : refsOf (r.registry.find? file) extension content with
    | none => exact ⟨rfl, hkept⟩
    | some refs => exact ⟨rfl, hkept.trans (alike_insert h hfile hread (hsame.symm.trans hrefs) _)⟩
  · exact ⟨hvia.symm, hkept⟩

theorem scan_alike (h : r.Unambiguous t) (c : ImportCache) (known : KnownFiles) {file : Path}
    (hfile : file ∈ r.projectFiles t) : Blind (r.Alike t c) (r.scan t known file) :=
  scan_blind known fun _ _ _ hread hext htext => cachedRefs_alike h c known hfile hread hext htext

/-- What the search sees of a file with a content when nothing is kept of it. -/
def seen (r : References) (file : Path) (bytes : ByteArray) : Option Scanned :=
  (file.extension?.map lowered).bind fun extension =>
    let language := r.registry.find? file
    if language.isNone && !r.textExtensions.contains extension then none
    else if r.maxFileSize < bytes.size then none
    else (Bytes.text? bytes).bind fun content =>
      let whole := (language.bind Language.moveReferences?).map (Scanned.whole content.toList)
      if language.any (·.references?.isNone) then whole
      else ((refsOf language extension content).map (Scanned.refs · language.isNone)).or whole

theorem seen_eq_none {file : Path} (hlanguage : r.registry.find? file = none)
    (hlisted : ∀ extension ∈ file.extension?.map lowered, extension ∉ r.textExtensions) (bytes : ByteArray) :
    r.seen file bytes = none := by
  unfold seen
  cases hextension : file.extension?.map lowered with
  | none => rfl
  | some extension =>
    have hnot := hlisted extension hextension
    rw [Option.bind_some, hlanguage]
    simp [hnot]

theorem scan_run_empty (known : KnownFiles) {file : Path} {bytes : ByteArray} (hread : t.read file = .ok bytes) :
    ((r.scan t known file).run {}).1 = r.seen file bytes := by
  unfold scan seen
  cases file.extension?.map lowered with
  | none => rfl
  | some extension =>
    dsimp only [Option.bind_some]
    by_cases hother : ((r.registry.find? file).isNone && !r.textExtensions.contains extension) = true
    · rw [if_pos hother, if_pos hother]
      rfl
    rw [if_neg hother, if_neg hother, hread]
    dsimp only
    by_cases hlarge : r.maxFileSize < bytes.size
    · rw [if_pos hlarge, if_pos hlarge]
      rfl
    rw [if_neg hlarge, if_neg hlarge]
    cases Bytes.text? bytes with
    | none => rfl
    | some content =>
      dsimp only [Option.bind_some]
      by_cases hmoves : (r.registry.find? file).any (·.references?.isNone) = true
      · rw [if_pos hmoves, if_pos hmoves]
        rfl
      have hmiss : (ImportCache.get {} file (Checksum.ofBytes bytes)).1 = none := rfl
      rw [if_neg hmoves, if_neg hmoves, StateT.run_bind, cachedRefs_run]
      generalize ImportCache.get {} file (Checksum.ofBytes bytes) = answer at hmiss ⊢
      obtain ⟨_, c⟩ := answer
      subst hmiss
      cases refsOf (r.registry.find? file) extension content <;> rfl

/-- A file is seen as it is through a cache that makes no difference. -/
theorem scan_seen (h : r.Unambiguous t) {c : ImportCache} (hc : r.Alike t {} c) (known : KnownFiles) {file : Path}
    (hfile : file ∈ r.projectFiles t) {bytes : ByteArray} (hread : t.read file = .ok bytes) :
    ((r.scan t known file).run c).1 = r.seen file bytes :=
  ((scan_alike h {} known hfile).answer_eq hc (.refl r t {})).trans (scan_run_empty known hread)

end References

end Refactor
