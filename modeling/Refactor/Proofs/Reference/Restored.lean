import Refactor.Proofs.Edit.Substitution
import Refactor.Proofs.Reference.Back
import Refactor.Proofs.Reference.Dependents

/-!
# Files that get their contents back

A plan of moves gives every file its references anew, in whatever order its edits come. So with moves that are taken back
each file goes through two texts, and it gets its content back as soon as its references do: those that the first plan
writes must be found again by the search for the second one. In files of which nothing is blanked they are.

* `References.Rewoven` — what the plan of moves makes of a file
* `References.Restored` — files that get their contents back
* `References.Restored.rewoven` — what the moves make of such a file, the moves back undo
* `References.Restored.of_mentions` — files without a language of their own, of which nothing is blanked
-/

namespace Refactor

open Text (utf8Size)
open Tree (placeOf)

/-- The move of one file. -/
def Moves.single (a b : Path) : Moves := { files := [(a, b)] }

theorem Moves.place_single (a b p : Path) : (Moves.single a b).place p = if p == a then b else p := by
  unfold place newLocation? single
  rw [List.findSome?_nil, Option.or_none, PathMap.find?, List.lookup_cons, List.lookup_nil]
  cases p == a <;> rfl

namespace References

variable {r : References} {t : Tree}

/-! ## What a plan makes of a file -/

/-- What the plan of moves makes of a file: one that is not read stays, and another one gets its references anew. -/
inductive Rewoven (r : References) (known : KnownFiles) (m : Moves) (file : Path) (bytes : ByteArray) : ByteArray → Prop
  | unseen (h : r.seen file bytes = none) : Rewoven r known m file bytes bytes
  | cut {content : List Char} {refs : List ImportRef} {generic : Bool} {parts : List (List Char × String)}
      {rest : List Char} (htext : Bytes.text? bytes = some (String.ofList content))
      (hseen : r.seen file bytes = some (.refs refs generic)) (hcut : Cut content refs parts rest) :
      Rewoven r known m file bytes
        (Bytes.ofText (String.ofList (weave (parts.map fun part => (part.1, r.updated known m file part.2)) rest)))

section

variable {m : Moves} {c : ImportCache} {file : Path} {bytes bytes' : ByteArray}
  (h : r.Rewoven (r.knownFiles t) m file bytes bytes')
  (hscan : ((r.scan t (r.knownFiles t) file).run c).1 = r.seen file bytes)

include h hscan

theorem Rewoven.planned_nodup : (r.planned t m c file).Nodup := by
  cases h with
  | unseen h =>
    rw [planned_of_none (hscan.trans h)]
    exact List.nodup_nil
  | cut htext hseen hcut =>
    rw [planned_of_refs (hscan.trans hseen)]
    exact hcut.edits_nodup

/-- The planned edits, in any order, make of the file what is said. -/
theorem Rewoven.rendered {es : List TextEdit} (hes : es.Perm (r.planned t m c file)) :
    (es = [] → bytes' = bytes) ∧ ∀ F : Files, F (placeOf file) = some bytes → es ≠ [] →
      WorkspaceEdit.rendered F file es = some bytes' := by
  cases h with
  | unseen h =>
    rw [planned_of_none (hscan.trans h)] at hes
    exact ⟨fun _ => rfl, fun _ _ hne => absurd hes.eq_nil hne⟩
  | @cut content refs generic parts rest htext hseen hcut =>
    rw [planned_of_refs (hscan.trans hseen)] at hes
    have hwoven := fun path => planRefs_weaves_perm hcut hes path
    refine ⟨?_, fun F hF _ => ?_⟩
    · rintro rfl
      have hsame := Except.ok.inj ((TextEdit.applyAll_nil "" _).symm.trans (hwoven ""))
      rw [← Bytes.ofText_of_text? htext, hsame]
      rfl
    · unfold WorkspaceEdit.rendered
      rw [hF, Option.bind_some, htext, Option.bind_some, hwoven]
      rfl

end

theorem updated_alike {known known' : KnownFiles} (h : known.Alike known') (m : Moves) (file : Path) (s : String) :
    r.updated known m file s = r.updated known' m file s := by
  unfold updated updateSpecifier
  rw [h.resolve, funext h.isDir]

theorem Rewoven.alike {known known' : KnownFiles} (h : known.Alike known') {m : Moves} {file : Path}
    {bytes bytes' : ByteArray} (hwoven : r.Rewoven known m file bytes bytes') : r.Rewoven known' m file bytes bytes' := by
  cases hwoven with
  | unseen hseen => exact .unseen hseen
  | cut htext hseen hcut =>
    simp only [updated_alike h]
    exact .cut htext hseen hcut

/-! ## Files that get their contents back -/

/-- A file that gets its content back. It is not read, or its references are found again where they stood, and each of them
gets its text back. -/
inductive Restored (r : References) (files : List Path) (m : Moves) (file : Path) (bytes : ByteArray) : Prop
  | unseen (h : r.seen file bytes = none) (h' : r.seen (m.place file) bytes = none)
  | cut {content content' : List Char} {refs refs' : List ImportRef} {generic generic' : Bool}
      {parts : List (List Char × String)} {rest : List Char} (htext : Bytes.text? bytes = some (String.ofList content))
      (hseen : r.seen file bytes = some (.refs refs generic)) (hcut : Cut content refs parts rest)
      (hcomes : ∀ part ∈ parts, r.ComesBack files m file part.2)
      (hseen' : r.seen (m.place file) (Bytes.ofText (String.ofList content')) = some (.refs refs' generic'))
      (hcut' : Cut content' refs' (parts.map fun part => (part.1, r.updated (.ofFiles r.root files) m file part.2)) rest)

/-- What the moves make of a file that gets its content back, the moves back undo. -/
theorem Restored.rewoven (hroot : r.root.Normal) {files : List Path} (hfiles : ∀ f ∈ files, r.root.Below f) {m m' : Moves}
    (hplaces : ∀ f ∈ files, r.root.Below (m.place f)) (hdirs : ∀ d ∈ m.dirs, d.1.isAbsolute = true ∧ d.2.isAbsolute = true)
    (hdirs' : ∀ d ∈ m'.dirs, d.1.isAbsolute = true ∧ d.2.isAbsolute = true)
    (hback : ∀ f ∈ files, (m'.place (m.place f) == f) = true) {file : Path} (hfile : file ∈ files) {bytes : ByteArray}
    (h : r.Restored files m file bytes) : ∃ bytes', r.Rewoven (.ofFiles r.root files) m file bytes bytes' ∧
      r.Rewoven (.ofFiles r.root (files.map m.place)) m' (m.place file) bytes' bytes := by
  cases h with
  | unseen h h' => exact ⟨bytes, .unseen h, .unseen h'⟩
  | @cut content content' _ _ _ _ parts rest htext hseen hcut hcomes hseen' hcut' =>
    refine ⟨_, .cut htext hseen hcut, ?_⟩
    have hwoven := @Rewoven.cut r (.ofFiles r.root (files.map m.place)) m' (m.place file) _ _ _ _ _ _
      (Bytes.text?_ofText (String.ofList content')) hseen' hcut'
    rw [updated_parts hroot hfiles hplaces hdirs hdirs' hback hfile hcomes, ← hcut.text, Bytes.ofText_of_text? htext] at hwoven
    rwa [← hcut'.text]

/-! ## Files that are searched for mentions -/

/-- A file without a language that is searched for mentions. -/
structure Searched (r : References) (extension : String) (file : Path) : Prop where
  named : file.extension?.map lowered = some extension
  language : r.registry.find? file = none
  listed : extension ∈ r.textExtensions

def mentionsOf (extension content : String) : List ImportRef :=
  (Mention.find content extension).map fun m => ⟨m.text, .link, some m.location⟩

theorem Searched.seen_eq {extension : String} {file : Path} (h : r.Searched extension file) {bytes : ByteArray}
    (hsize : bytes.size ≤ r.maxFileSize) {content : String} (htext : Bytes.text? bytes = some content) :
    r.seen file bytes = some (.refs (mentionsOf extension content) true) := by
  rw [seen, h.named, Option.bind_some, h.language]
  dsimp only
  rw [if_neg (by simp [h.listed]), if_neg (Nat.not_lt_of_le hsize), htext]
  rfl

theorem cut_mentions {extension : String} (hbare : (Mention.Markings.ofExtension extension).Bare)
    {parts : List (List Char × String)} {rest : List Char}
    (h : Mention.mentions 0 (weave parts rest) = Hit.ofParts 0 parts) :
    Cut (weave parts rest) (mentionsOf extension (String.ofList (weave parts rest))) parts rest := by
  rw [← hbare.hits_eq] at h
  refine ⟨rfl, h ▸ Mention.hits_exact _ _, ?_⟩
  rw [mentionsOf, Mention.find_eq, String.toList_ofList, h, List.map_map, List.map_map]
  rfl

theorem exists_hit_of_mem {part : List Char × String} : ∀ {parts : List (List Char × String)} {o : Nat}, part ∈ parts →
    ∃ hit ∈ Hit.ofParts o parts, hit.text = part.2.toList
  | (gap, s) :: parts, o, h => by
    rcases List.mem_cons.mp h with rfl | h
    · exact ⟨_, List.mem_cons_self, rfl⟩
    · obtain ⟨hit, hhit, htext⟩ := exists_hit_of_mem (o := o + utf8Size gap + utf8Size s.toList) h
      exact ⟨hit, List.mem_cons_of_mem _ hhit, htext⟩

/-- In a file of which nothing is blanked the references are found again, when the texts that they get are mentions like
those that they had, and the file does not become too large. -/
theorem Restored.of_mentions {files : List Path} {m : Moves} {file : Path} {extension : String}
    (hbare : (Mention.Markings.ofExtension extension).Bare) (hsearched : r.Searched extension file)
    (hsearched' : r.Searched extension (m.place file)) {bytes : ByteArray} (hsize : bytes.size ≤ r.maxFileSize)
    {content : String} (htext : Bytes.text? bytes = some content)
    (hsize' : ∀ new ∈ (TextEdit.applyAll file.raw content (r.planRefs (.ofFiles r.root files) m (m.place file) true
      (mentionsOf extension content) [] { path := file }).edits).toOption, (Bytes.ofText new).size ≤ r.maxFileSize)
    (hcomes : ∀ mention ∈ Mention.find content extension, r.ComesBack files m file mention.text)
    (hexchange : ∀ mention ∈ Mention.find content extension,
      r.updated (.ofFiles r.root files) m file mention.text = mention.text ∨
        Mention.Exchange mention.text.toList (r.updated (.ofFiles r.root files) m file mention.text).toList) :
    r.Restored files m file bytes := by
  obtain ⟨parts, rest, hcontent, hhits⟩ := (Mention.hits_exact content.toList extension).exists_parts
  have hfind : ∀ part ∈ parts, ∃ mention ∈ Mention.find content extension, mention.text = part.2 := by
    intro part hpart
    obtain ⟨hit, hhit, hsame⟩ := exists_hit_of_mem (o := 0) hpart
    rw [← hhits] at hhit
    rw [Mention.find_eq]
    exact ⟨_, List.mem_map_of_mem hhit, by rw [hsame, String.ofList_toList]⟩
  rw [hbare.hits_eq, hcontent] at hhits
  have hparts : Mention.Exchanges (r.updated (.ofFiles r.root files) m file) parts := by
    intro part hpart
    obtain ⟨mention, hmention, hsame⟩ := hfind part hpart
    rw [← hsame]
    exact hexchange mention hmention
  obtain rfl : content = String.ofList (weave parts rest) := by rw [← hcontent, String.ofList_toList]
  have hcut := cut_mentions hbare hhits
  have hseen := hsearched.seen_eq hsize htext
  refine .cut htext hseen hcut (fun part hpart => ?_)
    (hsearched'.seen_eq (hsize' _ (by rw [planRefs_weaves hcut]; rfl)) (Bytes.text?_ofText _))
    (cut_mentions hbare (Mention.mentions_exchange _ hparts rfl hhits 0))
  obtain ⟨mention, hmention, hsame⟩ := hfind part hpart
  rw [← hsame]
  exact hcomes mention hmention

def inW : References := ⟨⟨"/w"⟩, {}, [], ["json"], 100⟩

theorem returns_mentioned : inW.Returns [⟨"/w/a.x"⟩, ⟨"/w/c.json"⟩] (.single ⟨"/w/a.x"⟩ ⟨"/w/d/a.x"⟩) ⟨"/w/c.json"⟩
    ⟨"/w/a.x"⟩ "./a.x" none where
  extension := by decide +kernel
  plain := by
    have hnames : inW.root.componentsBelow ((Moves.single ⟨"/w/a.x"⟩ ⟨"/w/d/a.x"⟩).place ⟨"/w/a.x"⟩) =
        [.name "d", .name "a.x"] := by decide +kernel
    rw [hnames]
    intro n hn
    have hn : n = "d" ∨ n = "a.x" := by simpa using hn
    rcases hn with rfl | rfl <;> exact ⟨by decide, by simp, by decide +kernel⟩
  shown := fun _ => Or.inl (by decide +kernel)
  written := by simp
  unmoved := fun hstays => absurd hstays (by decide +kernel)
  canonical := by decide +kernel
  home := by
    have hname : (⟨"/w/a.x"⟩ : Path).fileName? = some "a.x" := by decide +kernel
    rw [hname]
    rintro _ ⟨⟩
    exact ⟨by decide, by simp, by decide +kernel⟩
  file := by decide +kernel
  apart := by decide +kernel
  index := fun h => absurd h (by decide +kernel)
  source := by simp

theorem restored_mentioned : inW.Restored [⟨"/w/a.x"⟩, ⟨"/w/c.json"⟩] (.single ⟨"/w/a.x"⟩ ⟨"/w/d/a.x"⟩) ⟨"/w/c.json"⟩
    (Bytes.ofText "[\"./a.x\"]") := by
  have hsearched : inW.Searched "json" ⟨"/w/c.json"⟩ := ⟨by decide +kernel, by decide +kernel, by decide +kernel⟩
  have hstays : (Moves.single ⟨"/w/a.x"⟩ ⟨"/w/d/a.x"⟩).place ⟨"/w/c.json"⟩ = ⟨"/w/c.json"⟩ :=
    congrArg Path.mk (by decide +kernel)
  have hmention : ∀ mention ∈ Mention.find "[\"./a.x\"]" "json", mention.text = "./a.x" := by decide +kernel
  have hnew : inW.updated (.ofFiles inW.root [⟨"/w/a.x"⟩, ⟨"/w/c.json"⟩]) (.single ⟨"/w/a.x"⟩ ⟨"/w/d/a.x"⟩) ⟨"/w/c.json"⟩
      "./a.x" = "./d/a.x" := by decide +kernel
  refine .of_mentions Mention.bare_json hsearched (hstays ▸ hsearched) (by decide +kernel) (Bytes.text?_ofText _)
    (by decide +kernel) (fun mention hfound => ?_) (fun mention hfound => ?_)
  · rw [hmention mention hfound]
    exact .follows (by decide +kernel) (by decide +kernel) (by decide +kernel) returns_mentioned
      (KnownFiles.unrivalled_of_spellings (by decide +kernel))
  · rw [hmention mention hfound, hnew]
    exact Or.inr ⟨by decide, by decide, by decide, by decide⟩

end References

end Refactor
