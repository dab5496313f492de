import Mathlib.Data.Set.Function
import Refactor.Proofs.Disk.Locate
import Refactor.Proofs.Steps
import Refactor.Reference.Update

/-!
# The cache of references changes no answer

What is kept of a file is what its content would give again, so a search that hits the cache finds what a
search without a cache works out. The files may change in any way between two calls: an entry answers only for
a content with its fingerprint, and it depends on nothing but that content and the extension of the file.

* `Call`, `References.answer` — what is asked of an updater
* `Faithful` — every entry of a cache is what its content gives
* `cachedRefs_blind`, `scan_blind` — one file
* `answer_blind` — one call
* `answers_transparent` — a sequence of calls
-/

namespace Refactor

/-! ## Calls -/

/-- What is asked of an updater, of the files as they are then, and what is forgotten in between. -/
inductive Call where
  | planMoves (t : Tree) (moves : Moves)
  | dependents (t : Tree) (targets : List Path)
  | invalidate (ps : List Path)
  | clear

inductive Answer where
  | edits (e : ReferenceEdits)
  | dependents (found : List (Path × PathSet))
  | done

def Call.tree? : Call → Option Tree
  | .planMoves t _ | .dependents t _ => some t
  | .invalidate _ | .clear => none

def Call.contents (calls : List Call) : Set ByteArray :=
  {b | ∃ call ∈ calls, ∃ t, call.tree? = some t ∧ ∃ p, t.read p = .ok b}

theorem Path.extension?_congr {p q : Path} (h : p.components = q.components) : p.extension? = q.extension? := by
  simp only [extension?, fileName?, h]

namespace ImportCache

/-! ## What the operations keep -/

@[simp] theorem removeReverse_forward (c : ImportCache) (file : Path) : (c.removeReverse file).forward = c.forward := by
  unfold removeReverse
  split <;> rfl

theorem find?_forget {c : ImportCache} {p file : Path} {info : FileImportInfo}
    (h : (c.forget p).forward.find? file = some info) : c.forward.find? file = some info := by
  simp only [forget, removeReverse_forward, PathMap.find?_erase] at h
  split at h
  · cases h
  · exact h

theorem find?_insert {c : ImportCache} {p file : Path} {new info : FileImportInfo}
    (h : (c.insert p new).forward.find? file = some info) :
    (file == p) = true ∧ info = new ∨ c.forward.find? file = some info := by
  unfold insert at h
  split at h
  · exact Or.inr h
  · simp only [removeReverse_forward, PathMap.find?_insert] at h
    split at h
    · rename_i hfile
      exact Or.inl ⟨hfile, (Option.some.inj h).symm⟩
    · exact Or.inr h

/-- A hit is an entry with the fingerprint; asking changes the counters alone. -/
theorem get_spec (c : ImportCache) (file : Path) (fingerprint : String) :
    (c.get file fingerprint).2.forward = c.forward ∧ ∀ refs, (c.get file fingerprint).1 = some refs →
      ∃ info, c.forward.find? file = some info ∧ info.fingerprint = fingerprint ∧ info.refs = refs := by
  unfold get
  split
  · exact ⟨rfl, by simp⟩
  · split
    · rename_i info hfind
      split
      · rename_i hsame
        exact ⟨rfl, fun refs hrefs => ⟨info, hfind, hsame, Option.some.inj hrefs⟩⟩
      · exact ⟨rfl, by simp⟩
    · exact ⟨rfl, by simp⟩

end ImportCache

namespace References

variable {r : References} {S : Set ByteArray}

/-! ## Faithful caches -/

/-- The references that a file with a content has. -/
def parse (r : References) (file : Path) (bytes : ByteArray) : Option (List ImportRef) := do
  let extension ← file.extension?.map lowered
  let content ← Bytes.text? bytes
  refsOf (r.registry.find? file) extension content

theorem parse_congr {p q : Path} (h : p.components = q.components) (bytes : ByteArray) :
    r.parse p bytes = r.parse q bytes := by
  simp only [parse, Registry.find?, Path.extension?_congr h]

/-- What is kept of every file is what one of the contents gives. -/
def Faithful (r : References) (S : Set ByteArray) (c : ImportCache) : Prop :=
  ∀ file info, c.forward.find? file = some info →
    ∃ bytes ∈ S, info.fingerprint = Checksum.ofBytes bytes ∧ r.parse file bytes = some info.refs

theorem faithful_empty (c : ImportCache) (h : c.forward = []) : Faithful r S c := by
  intro file info hfind
  rw [h] at hfind
  cases hfind

theorem Faithful.insert {c : ImportCache} (hc : Faithful r S c) {file : Path} {bytes : ByteArray} (hbytes : bytes ∈ S)
    {refs : List ImportRef} (hparse : r.parse file bytes = some refs) (targets : List Path) :
    Faithful r S (c.insert file ⟨Checksum.ofBytes bytes, refs, targets⟩) := by
  intro q info hfind
  rcases ImportCache.find?_insert hfind with ⟨hq, rfl⟩ | hold
  · refine ⟨bytes, hbytes, rfl, ?_⟩
    rw [parse_congr ((Path.beq_iff q file).mp hq), hparse]
  · exact hc q info hold

theorem Faithful.invalidate {c : ImportCache} (hc : Faithful r S c) (ps : List Path) :
    Faithful r S (c.invalidate ps) := by
  induction ps generalizing c with
  | nil => exact hc
  | cons p ps ih =>
    have hforget : Faithful r S (c.forget p) := fun file info hfind => hc file info (ImportCache.find?_forget hfind)
    exact ih hforget

/-- A hit is what the content gives, as no other content has its fingerprint. -/
theorem Faithful.hit {c : ImportCache} (hc : Faithful r S c) (hS : Set.InjOn Checksum.ofBytes S) {file : Path}
    {bytes : ByteArray} (hbytes : bytes ∈ S) {refs : List ImportRef}
    (h : (c.get file (Checksum.ofBytes bytes)).1 = some refs) : r.parse file bytes = some refs := by
  obtain ⟨info, hfind, hprint, rfl⟩ := (c.get_spec file (Checksum.ofBytes bytes)).2 refs h
  obtain ⟨kept, hkept, hprint', hparse⟩ := hc file info hfind
  have hsame : kept = bytes := hS hkept hbytes (hprint'.symm.trans hprint)
  rwa [hsame] at hparse

/-! ## One file -/

/-- A hit answers; otherwise the references are worked out and kept. -/
theorem cachedRefs_run (known : KnownFiles) (file : Path) (language : Option Language)
    (extension fingerprint content : String) (c : ImportCache) :
    (r.cachedRefs known file language extension fingerprint content).run c = match c.get file fingerprint with
      | (some refs, c') => (some refs, c')
      | (none, c') => match refsOf language extension content with
        | none => (none, c')
        | some refs => (some refs, c'.insert file ⟨fingerprint, refs, r.targetsOf known file refs⟩) := by
  have hget : (modifyGet fun c => c.get file fingerprint : Searching (Option (List ImportRef))).run c =
      c.get file fingerprint := rfl
  rw [cachedRefs, StateT.run_bind, hget]
  rcases c.get file fingerprint with ⟨refs | refs, c'⟩
  · cases refsOf language extension content with
    | none => rfl
    | some refs => rfl
  · rfl

/-- The references of a content do not depend on what the cache holds. -/
theorem cachedRefs_blind (hS : Set.InjOn Checksum.ofBytes S) (known : KnownFiles) {file : Path} {bytes : ByteArray}
    (hbytes : bytes ∈ S) {extension content : String} (hext : file.extension?.map lowered = some extension)
    (htext : Bytes.text? bytes = some content) :
    Blind (Faithful r S)
      (r.cachedRefs known file (r.registry.find? file) extension (Checksum.ofBytes bytes) content) := by
  have hparse : r.parse file bytes = refsOf (r.registry.find? file) extension content := by
    simp only [parse, hext, htext, Option.bind_eq_bind, Option.bind_some]
  refine ⟨refsOf (r.registry.find? file) extension content, fun c hc => ?_⟩
  have hkept : Faithful r S (c.get file (Checksum.ofBytes bytes)).2 := by
    unfold Faithful
    rw [(c.get_spec file (Checksum.ofBytes bytes)).1]
    exact hc
  have hhit : ∀ refs, (c.get file (Checksum.ofBytes bytes)).1 = some refs →
      some refs = refsOf (r.registry.find? file) extension content := by
    intro refs hrefs
    rw [← hparse, hc.hit hS hbytes hrefs]
  rw [cachedRefs_run]
  generalize c.get file (Checksum.ofBytes bytes) = found at hkept hhit ⊢
  obtain ⟨refs | refs, c'⟩ := found
  · cases hrefs : refsOf (r.registry.find? file) extension content with
    | none => exact ⟨rfl, hkept⟩
    | some refs => exact ⟨rfl, hkept.insert hbytes (hparse.trans hrefs) _⟩
  · exact ⟨hhit refs rfl, hkept⟩

variable {t : Tree} {P : ImportCache → Prop}

/-- Reading a file depends on the cache where its references do. -/
theorem scan_blind (known : KnownFiles) {file : Path} (h : ∀ bytes extension content, t.read file = .ok bytes →
    file.extension?.map lowered = some extension → Bytes.text? bytes = some content →
    Blind P (r.cachedRefs known file (r.registry.find? file) extension (Checksum.ofBytes bytes) content)) :
    Blind P (r.scan t known file) := by
  unfold scan
  split
  · exact Blind.pure _
  rename_i extension hext
  dsimp only
  split
  · exact Blind.pure _
  split
  · exact Blind.pure _
  rename_i bytes hread
  split
  · exact Blind.pure _
  split
  · exact Blind.pure _
  rename_i content htext
  split
  · exact Blind.pure _
  refine (h bytes extension content hread hext htext).bind fun refs => ?_
  cases refs with
  | none => exact Blind.pure _
  | some refs => exact Blind.pure _

/-! ## Calls and sequences of calls -/

theorem planFile_blind {known : KnownFiles} {file : Path} (h : Blind P (r.scan t known file)) (moves : Moves) :
    Blind P (r.planFile t known moves file) := by
  unfold planFile
  refine h.bind fun scanned => ?_
  cases scanned with
  | none => exact Blind.pure _
  | some scanned => exact Blind.pure _

theorem planMoves_blind (h : ∀ known, ∀ file ∈ r.projectFiles t, Blind P (r.scan t known file)) (moves : Moves) :
    Blind P (r.planMoves t moves) := by
  unfold planMoves
  exact (Blind.mapM _ fun file hfile => planFile_blind (h _ file hfile) moves).bind fun outcomes => Blind.pure _

theorem dependents_blind (h : ∀ known, ∀ file ∈ r.projectFiles t, Blind P (r.scan t known file))
    (targets : List Path) : Blind P (r.dependents t targets) := by
  unfold dependents
  refine (Blind.mapM _ fun file hfile => ?_).bind fun found => Blind.pure _
  refine (h _ file (List.mem_of_mem_filter hfile)).bind fun scanned => ?_
  cases scanned with
  | none => exact Blind.pure _
  | some scanned => exact Blind.pure _

/-- What a call gives. -/
def answer (r : References) : Call → Searching Answer
  | .planMoves t moves => return .edits (← r.planMoves t moves)
  | .dependents t targets => return .dependents (← r.dependents t targets)
  | .invalidate ps => do
    modify (·.invalidate ps)
    return .done
  | .clear => do
    modify ImportCache.clear
    return .done

theorem answer_blind (hS : Set.InjOn Checksum.ofBytes S) {call : Call}
    (hcall : ∀ t, call.tree? = some t → ∀ p b, t.read p = .ok b → b ∈ S) : Blind (Faithful r S) (r.answer call) := by
  have hscan : ∀ t, call.tree? = some t → ∀ known, ∀ file ∈ r.projectFiles t,
      Blind (Faithful r S) (r.scan t known file) := fun t ht known file _ =>
    scan_blind known fun bytes _ _ hread => cachedRefs_blind hS known (hcall t ht file bytes hread)
  cases call with
  | planMoves t moves => exact (planMoves_blind (hscan t rfl) moves).bind fun _ => Blind.pure _
  | dependents t targets => exact (dependents_blind (hscan t rfl) targets).bind fun _ => Blind.pure _
  | invalidate ps => exact (Blind.modify fun c hc => hc.invalidate ps).bind fun _ => Blind.pure _
  | clear => exact (Blind.modify fun c _ => faithful_empty _ rfl).bind fun _ => Blind.pure _

/-- An updater with a cache and one without give the same answers to every sequence of calls, whatever the files
are at each of them, when no two contents that the calls come across have one checksum. -/
theorem answers_transparent (r : References) (calls : List Call)
    (h : Set.InjOn Checksum.ofBytes (Call.contents calls)) :
    ((calls.mapM r.answer).run { enabled := true }).1 = ((calls.mapM r.answer).run { enabled := false }).1 := by
  have hblind : Blind (Faithful r (Call.contents calls)) (calls.mapM r.answer) := by
    refine Blind.mapM calls fun call hcall => answer_blind h ?_
    intro t ht p b hread
    exact ⟨call, hcall, t, ht, p, hread⟩
  exact hblind.answer_eq (faithful_empty _ rfl) (faithful_empty _ rfl)

end References

/-! ## A project that changes between calls -/

/-- A directory with two files, the second of which may refer to the first. -/
def Tree.linking (content : String) : Tree :=
  ⟨[(["w"], .dir), (["w", "a.md"], .file (Bytes.ofText "A")), (["w", "b.md"], .file (Bytes.ofText content))]⟩

theorem Tree.linking_wellFormed (content : String) : (Tree.linking content).WellFormed := by
  have hnames : ["a.md"] < ["b.md"] := by decide
  exact .ofEntries (by simpa using hnames) (by simp [Tree.get?, Tree.isPlain]; decide)

theorem Tree.linking_read {content : String} {p : Path} {b : ByteArray} (h : (Tree.linking content).read p = .ok b) :
    b = Bytes.ofText "A" ∨ b = Bytes.ofText content := by
  have hfinds := (read_eq_ok_iff (linking_wellFormed content) p b).mp h
  have hne : placeOf p ≠ [] := by
    intro hnil
    rw [Finds, hnil] at hfinds
    cases hfinds.2.2
  have hmem := ((linking_wellFormed content).get?_eq_some_iff hne).mp hfinds.2.2
  simp only [linking, List.mem_cons, Prod.mk.injEq, reduceCtorEq, and_false, Entry.file.injEq, List.not_mem_nil,
    or_false, false_or] at hmem
  exact hmem.imp And.right And.right

/-- The second file is asked about, edited, forgotten and put back. -/
def Call.editing : List Call :=
  [.dependents (.linking "[](a.md)") [⟨"/w/a.md"⟩],
    .planMoves (.linking "[](a.md)") { files := [(⟨"/w/a.md"⟩, ⟨"/w/c.md"⟩)] },
    .planMoves (.linking "[](a.md) ") { files := [(⟨"/w/a.md"⟩, ⟨"/w/c.md"⟩)] },
    .invalidate [⟨"/w/b.md"⟩],
    .dependents (.linking "[](a.md)") [⟨"/w/a.md"⟩]]

theorem Call.mem_contents_editing {b : ByteArray} (h : b ∈ Call.contents Call.editing) :
    b ∈ [Bytes.ofText "A", Bytes.ofText "[](a.md)", Bytes.ofText "[](a.md) "] := by
  obtain ⟨call, hcall, t, ht, p, hread⟩ := h
  have htree : t = .linking "[](a.md)" ∨ t = .linking "[](a.md) " := by
    simp only [editing, List.mem_cons, List.not_mem_nil, or_false] at hcall
    rcases hcall with rfl | rfl | rfl | rfl | rfl <;> cases ht <;> simp
  rcases htree with rfl | rfl <;> rcases Tree.linking_read hread with rfl | rfl <;> simp

namespace References

def markdown : References where
  root := ⟨"/w"⟩
  registry := [.markdown]
  ignoredDirs := []
  textExtensions := []
  maxFileSize := 100

theorem answers_transparent_editing :
    Set.InjOn Checksum.ofBytes (Call.contents Call.editing) ∧
      ((Call.editing.mapM markdown.answer).run {}).2.hits = 2 ∧
      ((Call.editing.mapM markdown.answer).run {}).1 =
        ((Call.editing.mapM markdown.answer).run { enabled := false }).1 := by
  have hinj : Set.InjOn Checksum.ofBytes (Call.contents Call.editing) := by
    intro b hb b' hb' hsame
    have hdiffer : ([Bytes.ofText "A", Bytes.ofText "[](a.md)", Bytes.ofText "[](a.md) "].map Checksum.ofBytes).Nodup := by
      decide +kernel
    exact List.inj_on_of_nodup_map hdiffer (Call.mem_contents_editing hb) (Call.mem_contents_editing hb') hsame
  exact ⟨hinj, by decide +kernel, answers_transparent markdown Call.editing hinj⟩

end References

end Refactor
