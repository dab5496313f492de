import Refactor.Proofs.Edit.Splices
import Refactor.Proofs.Markdown.Links
import Refactor.Proofs.Planning.Edits
import Refactor.Proofs.Reference.Follow
import Refactor.Proofs.Reference.Mentions
import Refactor.Proofs.Script.Specifiers

/-!
# Located references

Whatever scan a file goes through, its references come with spans that hold just their texts and lie one behind the other.
So any of them can be replaced at once. The text is cut at them into what stands before each, their texts, and what stands
behind the last one; the edits of a file put the updated texts in the places of the old ones and keep everything else.

* `Hit.reference` — a hit as it is reported
* `Hit.AllExact.fits`, `Hit.AllExact.beside` — edits of reported texts fit and do not overlap
* `Referenced` — the references of a text
* `Referenced.replaceable` — they are exact, in order, and can be replaced
* `weave` — a text put together from its parts
* `Hit.AllExact.exists_parts` — a text is cut at exact hits
* `TextEdit.Splice.substitute_weave` — splices at the references of a text
* `Mention.mentions_exchange` — with other texts in their places, mentions are found again
* `References.planRefs_edits_eq` — the edits of a file, one for each reference that changes
* `References.Cut`, `References.exists_cut` — a text that is cut at its references, as that of every scan is
* `References.planRefs_weaves` — the text of a file after its edits
-/

namespace Refactor

open Text (utf8Size)

namespace Hit

/-- A hit as it is reported: its text, and the span of its offsets. -/
def reference (content : List Char) (hit : Hit) : String × Option Span :=
  (String.ofList hit.text, some (.ofBytes content hit.lo hit.hi))

variable {content : List Char} {hits : List Hit}

def Beside (a b : String × Option Span) : Prop := ∀ s ∈ a.2, ∀ t ∈ b.2, s.overlaps t = false

theorem Beside.symm {a b : String × Option Span} (h : Beside a b) : Beside b a := fun s hs t ht =>
  (Span.overlaps_comm s t).trans (h t ht s hs)

def replaced (e : TextEdit) : String × Option Span := (e.oldText, some e.location)

theorem AllExact.fits (h : AllExact content hits) {e : TextEdit} (he : replaced e ∈ hits.map (reference content)) :
    e.Fits content := by
  obtain ⟨hit, hhit, heq⟩ := List.mem_map.mp he
  have hexact := h.exact hit hhit
  rw [reference, replaced, Prod.mk.injEq, Option.some.injEq] at heq
  refine ⟨hit.lo, hit.hi, heq.2 ▸ hexact.byteRange?, Or.inr ?_⟩
  rw [hexact.slice?, ← heq.1, String.toList_ofList]

theorem AllExact.beside (h : AllExact content hits) {es : List TextEdit}
    (hes : (es.map replaced).Subperm (hits.map (reference content))) : es.Pairwise TextEdit.Beside := by
  have hall : (hits.map (reference content)).Pairwise Beside := by
    rw [List.pairwise_map]
    refine h.ordered.imp_of_mem fun {a b} ha hb hle => ?_
    rintro s ⟨⟩ t ⟨⟩
    exact Span.not_overlaps_of_byteRange? (h.exact a ha).byteRange? (h.exact b hb).byteRange? (Or.inl (h.exact a ha).lt) hle
  obtain ⟨refs, hperm, hsub⟩ := hes
  have hpairwise := (hperm.pairwise_iff Beside.symm).mp (hall.sublist hsub)
  rw [List.pairwise_map] at hpairwise
  exact hpairwise.imp fun hbeside => hbeside _ rfl _ rfl

/-- The places of exact hits are different. -/
theorem AllExact.different (h : AllExact content hits) :
    (hits.map (reference content)).Pairwise fun a b => ∀ s ∈ a.2, b.2 ≠ some s := by
  rw [List.pairwise_map]
  refine h.ordered.imp_of_mem fun {a b} ha hb hle => ?_
  rintro s ⟨⟩ hsame
  have hrange := (h.exact b hb).byteRange?
  rw [Option.some.inj hsame, (h.exact a ha).byteRange?] at hrange
  have hlt := (h.exact a ha).lt
  obtain ⟨hlo, -⟩ := Prod.mk.inj (Option.some.inj hrange)
  omega

theorem AllExact.nodup (h : AllExact content hits) : (hits.map (reference content)).Nodup := by
  have hdifferent := h.different
  rw [List.pairwise_map] at hdifferent
  exact List.pairwise_map.mpr (hdifferent.imp fun hab heq => hab _ rfl (congrArg Prod.snd heq).symm)

end Hit

/-! ## The scans -/

/-- The references of a text that one of the scans reports: the paths mentioned in a text without a language of its own,
the links of a document, and the imports that the search line by line finds. -/
inductive Referenced (content : String) : List (String × Option Span) → Prop
  | mentions (extension : String) :
    Referenced content ((Mention.find content extension).map fun m => (m.text, some m.location))
  | links : Referenced content ((Markdown.linksOf content.toList).map fun r => (r.specifier, r.location))
  | imports : Referenced content (((Script.scanLines content.toList).map (LocatedRef.toRef content.toList)).map fun r =>
      (r.specifier, r.location))

namespace Referenced

variable {content : String} {refs : List (String × Option Span)}

theorem map_toRef (content : List Char) (rs : List LocatedRef) :
    (rs.map (LocatedRef.toRef content)).map (fun r => (r.specifier, r.location)) =
      (rs.map LocatedRef.hit).map (Hit.reference content) := by
  rw [List.map_map, List.map_map]
  refine List.map_congr_left fun r _ => ?_
  simp [Hit.reference, LocatedRef.hit, LocatedRef.toRef]

/-- The imports of a module that no dialect reads are those that are found line by line. -/
theorem of_unread {path : Option Path} (h : Script.parse? content.toList path = none) :
    Referenced content (((Script.scanImports content.toList path).map (LocatedRef.toRef content.toList)).map fun r =>
      (r.specifier, r.location)) :=
  Script.scanImports_of_parse? h ▸ .imports

theorem exists_hits (h : Referenced content refs) :
    ∃ hits, Hit.AllExact content.toList hits ∧ refs = hits.map (Hit.reference content.toList) := by
  cases h with
  | mentions extension =>
    refine ⟨_, Mention.hits_exact content.toList extension, ?_⟩
    rw [Mention.find_eq, List.map_map]
    rfl
  | links => exact ⟨_, Markdown.scanLinks_exact content.toList, map_toRef _ _⟩
  | imports => exact ⟨_, Script.scanLines_exact, map_toRef _ _⟩

end Referenced

/-! ## Texts that are cut at hits -/

/-- A text put together from what stands before each of its references, their texts, and what stands behind all of them. -/
def weave : List (List Char × String) → List Char → List Char
  | [], rest => rest
  | (gap, s) :: parts, rest => gap ++ (s.toList ++ weave parts rest)

namespace Hit

/-- The references of a text that is cut at them, the text starting at an offset. -/
def ofParts : Nat → List (List Char × String) → List Hit
  | _, [] => []
  | o, (gap, s) :: parts => ⟨s.toList, o + utf8Size gap, o + utf8Size gap + utf8Size s.toList⟩ ::
    ofParts (o + utf8Size gap + utf8Size s.toList) parts

theorem le_lo_of_mem_ofParts {parts : List (List Char × String)} : ∀ {o : Nat}, ∀ hit ∈ ofParts o parts, o ≤ hit.lo := by
  induction parts with
  | nil => exact fun hit hhit => by cases hhit
  | cons part parts ih =>
    intro o hit hhit
    rcases List.mem_cons.mp hhit with rfl | hhit
    · exact Nat.le_add_right _ _
    · have hlo := ih hit hhit
      omega

/-- A text is cut at exact hits. -/
theorem AllExact.exists_parts_from {content : List Char} : ∀ {hits : List Hit}, AllExact content hits →
    ∀ {front back : List Char}, content = front ++ back → (∀ hit ∈ hits, utf8Size front ≤ hit.lo) →
    ∃ parts rest, back = weave parts rest ∧ hits = ofParts (utf8Size front) parts
  | [], _, _, back, _, _ => ⟨[], back, rfl, rfl⟩
  | ⟨text, lo, hi⟩ :: hits, h, front, back, hcontent, hbehind => by
    obtain ⟨hexact, hexacts⟩ := List.forall_mem_cons.mp h.exact
    obtain ⟨hlater, hordered⟩ := List.pairwise_cons.mp h.ordered
    obtain ⟨before, after, hplace, hlo, hhi, -⟩ := hexact.place
    dsimp only at hplace hlo hhi hlater
    obtain ⟨gap, rfl⟩ := Text.prefix_of_utf8Size_le (hcontent.symm.trans (hplace.trans (List.append_assoc _ _ _)))
      (hlo ▸ hbehind _ List.mem_cons_self)
    subst hlo hhi
    have hback : back = gap ++ (text ++ after) := by
      rw [hplace, List.append_assoc, List.append_assoc] at hcontent
      exact (List.append_cancel_left hcontent).symm
    obtain ⟨parts, rest, hafter, hhits⟩ := AllExact.exists_parts_from ⟨hexacts, hordered⟩ hplace
      fun hit hhit => by rw [Text.utf8Size_append]; exact hlater hit hhit
    refine ⟨(gap, String.ofList text) :: parts, rest, by rw [weave, String.toList_ofList, hback, hafter], ?_⟩
    rw [ofParts, String.toList_ofList, hhits, Text.utf8Size_append (front ++ gap), Text.utf8Size_append front]

theorem AllExact.exists_parts {content : List Char} {hits : List Hit} (h : AllExact content hits) :
    ∃ parts rest, content = weave parts rest ∧ hits = ofParts 0 parts :=
  h.exists_parts_from (List.nil_append content).symm fun _ _ => Nat.zero_le _

/-- The texts of a text that is put together are exact hits when each of them stands on one line. -/
theorem allExact_ofParts_from {content : List Char} {rest : List Char} : ∀ {parts : List (List Char × String)},
    (∀ part ∈ parts, part.2 ≠ "" ∧ '\n' ∉ part.2.toList ∧ part.2.toList.getLast? ≠ some '\r') → ∀ {front : List Char},
    content = front ++ weave parts rest → AllExact content (ofParts (utf8Size front) parts)
  | [], _, _, _ => ⟨by simp [ofParts], List.Pairwise.nil⟩
  | (gap, s) :: parts, hparts, front, hcontent => by
    obtain ⟨⟨hsome, hline, hlast⟩, hlater⟩ := List.forall_mem_cons.mp hparts
    have hplace : content = front ++ gap ++ s.toList ++ weave parts rest := by
      rw [hcontent, weave]
      simp
    have hrest := allExact_ofParts_from hlater hplace
    rw [Text.utf8Size_append, Text.utf8Size_append] at hrest
    refine ⟨List.forall_mem_cons.mpr ⟨⟨?_, hline, front ++ gap, _, hplace, ?_, rfl, Or.inl hlast⟩, hrest.exact⟩,
      List.pairwise_cons.mpr ⟨fun hit hhit => le_lo_of_mem_ofParts hit hhit, hrest.ordered⟩⟩
    · simpa using hsome
    · exact Text.utf8Size_append front gap

theorem allExact_ofParts {parts : List (List Char × String)} (rest : List Char)
    (h : ∀ part ∈ parts, part.2 ≠ "" ∧ '\n' ∉ part.2.toList ∧ part.2.toList.getLast? ≠ some '\r') :
    AllExact (weave parts rest) (ofParts 0 parts) :=
  allExact_ofParts_from h (List.nil_append (weave parts rest)).symm

/-- The splice of a hit that gets a new text. -/
def splice? (f : String → Option String) (hit : Hit) : Option TextEdit.Splice :=
  (f (String.ofList hit.text)).map fun new => ⟨hit.lo, hit.hi, new.toList⟩

end Hit

/-- Splices at the references of a text give them their new texts and keep what stands between them. -/
theorem TextEdit.Splice.substitute_weave (f : String → Option String) (parts : List (List Char × String))
    (rest : List Char) : ∀ o, substitute ((Hit.ofParts o parts).filterMap (Hit.splice? f)) o (weave parts rest) =
      weave (parts.map fun part => (part.1, (f part.2).getD part.2)) rest := by
  induction parts with
  | nil => exact fun o => substitute_none o rest
  | cons part parts ih =>
    obtain ⟨gap, s⟩ := part
    intro o
    have hstarts : ∀ {o' : Nat}, ∀ r ∈ (Hit.ofParts o' parts).filterMap (Hit.splice? f), o' ≤ r.start := by
      intro o' r hr
      obtain ⟨hit, hhit, hsplice⟩ := List.mem_filterMap.mp hr
      obtain ⟨_, -, rfl⟩ := Option.map_eq_some_iff.mp hsplice
      exact Hit.le_lo_of_mem_ofParts hit hhit
    rw [Hit.ofParts, weave, List.map_cons, weave, List.filterMap_cons]
    cases hnew : f s with
    | none =>
      rw [Hit.splice?, String.ofList_toList, hnew]
      dsimp only [Option.map_none]
      rw [substitute_append_of_before gap _ fun r hr => by have := hstarts r hr; omega,
        substitute_append_of_before s.toList _ hstarts, ih, Option.getD_none]
    | some new =>
      rw [Hit.splice?, String.ofList_toList, hnew]
      dsimp only [Option.map_some]
      rw [substitute_append_of_before gap, substitute_cons_of_start hstarts rfl, ih, Option.getD_some]
      rw [List.forall_mem_cons]
      exact ⟨le_rfl, fun r hr => by have := hstarts r hr; omega⟩

/-! ## Mentions that get other texts -/

theorem head?_weave {f : String → String} {parts : List (List Char × String)}
    (h : ∀ part ∈ parts, (f part.2).toList.head? = part.2.toList.head?) (rest : List Char) :
    (weave (parts.map fun part => (part.1, f part.2)) rest).head? = (weave parts rest).head? := by
  induction parts with
  | nil => rfl
  | cons part parts ih =>
    obtain ⟨hfirst, hlater⟩ := List.forall_mem_cons.mp h
    rw [List.map_cons, weave, weave, List.head?_append, List.head?_append, List.head?_append, List.head?_append, hfirst,
      ih hlater]

/-- A cut text behind some of what stands in front of its first reference. -/
inductive Behind (front : List Char) : List (List Char × String) → List Char → List (List Char × String) → List Char → Prop
  | none (rest : List Char) : Behind front [] (front ++ rest) [] rest
  | gap (gap : List Char) (s : String) (parts : List (List Char × String)) (rest : List Char) :
    Behind front ((front ++ gap, s) :: parts) rest ((gap, s) :: parts) rest

namespace Behind

variable {front rest rest₁ : List Char} {parts parts₁ : List (List Char × String)} (h : Behind front parts rest parts₁ rest₁)

include h

theorem weave_eq : weave parts rest = front ++ weave parts₁ rest₁ := by
  cases h with
  | none => rfl
  | gap => rw [weave, weave, List.append_assoc]

theorem ofParts_eq (o : Nat) : Hit.ofParts o parts = Hit.ofParts (o + utf8Size front) parts₁ := by
  cases h with
  | none => rfl
  | gap => simp only [Hit.ofParts, Text.utf8Size_append, Nat.add_assoc]

theorem map (f : String → String) : Behind front (parts.map fun part => (part.1, f part.2)) rest
    (parts₁.map fun part => (part.1, f part.2)) rest₁ := by
  cases h with
  | none => exact .none _
  | gap => exact .gap _ _ _ _

theorem texts : parts₁.map Prod.snd = parts.map Prod.snd := by
  cases h <;> rfl

end Behind

theorem exists_behind {front back : List Char} {parts : List (List Char × String)} {rest : List Char} {o : Nat}
    (h : weave parts rest = front ++ back) (hbehind : ∀ hit ∈ Hit.ofParts o parts, o + utf8Size front ≤ hit.lo) :
    ∃ parts₁ rest₁, Behind front parts rest parts₁ rest₁ ∧ back = weave parts₁ rest₁ := by
  cases parts with
  | nil =>
    rw [weave] at h
    exact ⟨[], back, h ▸ .none back, rfl⟩
  | cons part parts =>
    obtain ⟨gap, s⟩ := part
    have hle : utf8Size front ≤ utf8Size gap := by
      have hlo := hbehind _ List.mem_cons_self
      dsimp only at hlo
      omega
    obtain ⟨gap, rfl⟩ := Text.prefix_of_utf8Size_le h.symm hle
    rw [weave, List.append_assoc] at h
    exact ⟨_, _, .gap gap s parts rest, (List.append_cancel_left h).symm⟩

namespace Mention

/-- Texts that may stand in the places of the texts of parts. -/
def Exchanges (f : String → String) (parts : List (List Char × String)) : Prop :=
  ∀ part ∈ parts, f part.2 = part.2 ∨ Exchange part.2.toList (f part.2).toList

section

variable {f : String → String} {parts parts₁ : List (List Char × String)} {front rest rest₁ : List Char}

theorem Exchanges.behind (h : Exchanges f parts) (hcut : Behind front parts rest parts₁ rest₁) : Exchanges f parts₁ := by
  intro part hpart
  obtain ⟨part', hpart', hsame⟩ := List.mem_map.mp (hcut.texts ▸ List.mem_map_of_mem (f := Prod.snd) hpart)
  rw [← hsame]
  exact h part' hpart'

theorem Exchanges.head? (h : Exchanges f parts) :
    (weave (parts.map fun part => (part.1, f part.2)) rest).head? = (weave parts rest).head? := by
  refine head?_weave (fun part hpart => ?_) rest
  rcases h part hpart with hsame | hexchange
  · rw [hsame]
  · exact hexchange.start

theorem exists_behind_mentions {back : List Char} {o : Nat} (h : weave parts rest = front ++ back)
    (hmentions : mentions (o + utf8Size front) back = Hit.ofParts o parts) :
    ∃ parts₁ rest₁, Behind front parts rest parts₁ rest₁ ∧ back = weave parts₁ rest₁ :=
  exists_behind h fun _ hhit => le_lo_of_mem_mentions (hmentions ▸ hhit)

/-- With other texts in their places, the mentions of a text are found again where they stand. -/
theorem mentions_exchange (cs : List Char) : ∀ {parts : List (List Char × String)} {rest : List Char} {o : Nat},
    Exchanges f parts → weave parts rest = cs → mentions o cs = Hit.ofParts o parts →
    ∀ o', mentions o' (weave (parts.map fun part => (part.1, f part.2)) rest) =
      Hit.ofParts o' (parts.map fun part => (part.1, f part.2)) := by
  induction cs using munch_induction with
  | nil =>
    intro parts rest o _ htext hmentions o'
    cases parts with
    | nil =>
      rw [List.map_nil, htext]
      rfl
    | cons => cases hmentions
  | skip c cs hc ih =>
    intro parts rest o hparts htext hmentions o'
    rw [mentions_cons hc] at hmentions
    rw [← List.singleton_append] at htext
    obtain ⟨parts₁, rest₁, hcut, rfl⟩ := exists_behind_mentions htext hmentions
    rw [hcut.ofParts_eq] at hmentions
    rw [(hcut.map f).weave_eq, (hcut.map f).ofParts_eq, List.singleton_append, mentions_cons hc]
    exact ih (hparts.behind hcut) rfl hmentions _
  | word word back hmunch ih =>
    intro parts rest o hparts htext hmentions o'
    cases hclean : cleanWord? word with
    | none =>
      rw [mentions_of_none hmunch _ hclean] at hmentions
      obtain ⟨parts₁, rest₁, hcut, rfl⟩ := exists_behind_mentions htext hmentions
      rw [hcut.ofParts_eq] at hmentions
      rw [← (hparts.behind hcut).head?] at hmunch
      rw [(hcut.map f).weave_eq, (hcut.map f).ofParts_eq, mentions_of_none hmunch _ hclean]
      exact ih (hparts.behind hcut) rfl hmentions _
    | some token =>
      rw [mentions_of_some hmunch _ hclean] at hmentions
      cases parts with
      | nil => cases hmentions
      | cons part parts =>
        obtain ⟨gap, s⟩ := part
        obtain ⟨hhit, hbehind⟩ := List.cons.inj hmentions
        obtain ⟨rfl, hlo, -⟩ := Hit.mk.inj hhit
        obtain rfl : gap = [] := Text.utf8Size_eq_zero_iff.mp (by omega)
        obtain ⟨⟨tail, rfl⟩, -⟩ := cleanWord?_spec hclean
        obtain ⟨hfirst, hlater⟩ := List.forall_mem_cons.mp hparts
        rw [weave, List.nil_append, List.append_assoc] at htext
        rw [Text.utf8Size_append, ← Nat.add_assoc, ← hlo] at hbehind
        obtain ⟨parts₁, rest₁, hcut, rfl⟩ := exists_behind_mentions (List.append_cancel_left htext) hbehind
        have hlater₁ := Exchanges.behind hlater hcut
        rw [hcut.ofParts_eq] at hbehind
        rw [← hlater₁.head?] at hmunch
        obtain ⟨hmunch', hclean'⟩ : Munch ((f s).toList ++ tail)
            (weave (parts₁.map fun part => (part.1, f part.2)) rest₁).head? ∧
            cleanWord? ((f s).toList ++ tail) = some (f s).toList := by
          rcases hfirst with hsame | hexchange
          · rw [hsame]
            exact ⟨hmunch, hclean⟩
          · exact hexchange.append hmunch hclean
        rw [List.map_cons, weave, List.nil_append, (hcut.map f).weave_eq, ← List.append_assoc,
          mentions_of_some hmunch' _ hclean', Hit.ofParts, (hcut.map f).ofParts_eq, Text.utf8Size_append, ← Nat.add_assoc]
        exact congrArg _ (ih hlater₁ rfl hbehind _)

end

end Mention

/-! ## Edits of references -/

namespace References

/-- The new text of an update, if there is one. -/
def SpecifierUpdate.new? : SpecifierUpdate → Option String
  | .changed new => some new
  | .unchanged | .ambiguous _ | .unresolved => none

theorem SpecifierUpdate.textOf_eq (old : String) (u : SpecifierUpdate) : u.textOf old = u.new?.getD old := by
  cases u <;> rfl

/-- The edit that gives a reference its new text. -/
def editOf (generic : Bool) (location : Span) (old new : String) : TextEdit :=
  ((TextEdit.replacing location old new).withType (if generic then .updateReference else .updateImport)).describedAs
    ("Update reference '" ++ old ++ "' -> '" ++ new ++ "'")

section

variable {r : References} {known : KnownFiles} {m : Moves} {file new : Path} {generic : Bool}

/-- The edit of a reference with a place, if its text changes. -/
def editOf? (r : References) (known : KnownFiles) (m : Moves) (file new : Path) (generic : Bool)
    (ref : String × Option Span) : Option TextEdit :=
  ref.2.bind fun location => (r.updateSpecifier known m file new ref.1).new?.map (editOf generic location ref.1)

theorem replaced_of_editOf? {ref : String × Option Span} {e : TextEdit} (h : r.editOf? known m file new generic ref = some e) :
    Hit.replaced e = ref := by
  obtain ⟨location, hlocation, hedit⟩ := Option.bind_eq_some_iff.mp h
  obtain ⟨written, -, rfl⟩ := Option.map_eq_some_iff.mp hedit
  exact Prod.ext rfl hlocation.symm

theorem replaced_filterMap (refs : List (String × Option Span)) :
    ((refs.filterMap (r.editOf? known m file new generic)).map Hit.replaced).Sublist refs := by
  have hkept : ((refs.filterMap (r.editOf? known m file new generic)).map Hit.replaced) =
      refs.filter fun ref => (r.editOf? known m file new generic ref).isSome := by
    rw [List.map_filterMap, ← List.filterMap_eq_filter]
    refine List.filterMap_congr fun ref _ => ?_
    cases hedit : r.editOf? known m file new generic ref with
    | none => simp [Option.guard, hedit]
    | some e => simp [Option.guard, hedit, replaced_of_editOf? hedit]
  rw [hkept]
  exact List.filter_sublist

theorem planRef_edits_eq (o : FileOutcome) (ref : ImportRef) (location : Span) :
    (r.planRef known m new generic o ref location).edits =
      o.edits ++ (r.editOf? known m o.path new generic (ref.specifier, some location)).toList := by
  unfold planRef editOf?
  dsimp only
  rw [Option.bind_some]
  cases r.updateSpecifier known m o.path new ref.specifier with
  | unchanged => exact (List.append_nil _).symm
  | changed written => rfl
  | ambiguous candidates =>
    dsimp only
    split <;> exact (List.append_nil _).symm
  | unresolved =>
    dsimp only
    split <;> exact (List.append_nil _).symm

/-- The edits of a file whose references stand in different places: one for each that changes. -/
theorem planRefs_edits_eq {refs : List ImportRef} {seen : List Span} {o : FileOutcome}
    (hdifferent : refs.Pairwise fun a b => ∀ s ∈ a.location, b.location ≠ some s)
    (hseen : ∀ ref ∈ refs, ∀ s ∈ ref.location, s ∉ seen) :
    (r.planRefs known m new generic refs seen o).edits =
      o.edits ++ refs.filterMap fun ref => r.editOf? known m o.path new generic (ref.specifier, ref.location) := by
  induction refs generalizing seen o with
  | nil => exact (List.append_nil _).symm
  | cons ref rest ih =>
    obtain ⟨hfirst, hrest⟩ := List.pairwise_cons.mp hdifferent
    obtain ⟨hnew, hseenRest⟩ := List.forall_mem_cons.mp hseen
    rw [List.filterMap_cons]
    cases hlocation : ref.location with
    | none =>
      rw [planRefs, hlocation]
      exact ih hrest hseenRest
    | some location =>
      have hfresh : seen.contains location = false := by
        rw [← Bool.not_eq_true, List.contains_iff_mem]
        exact hnew location hlocation
      rw [planRefs, hlocation]
      dsimp only
      rw [hfresh, if_neg (by simp), ih hrest, planRef_edits_eq, planRef_path, List.append_assoc]
      · cases r.editOf? known m o.path new generic (ref.specifier, some location) <;> rfl
      · intro ref' href' s hs hmem
        rcases List.mem_cons.mp hmem with rfl | hmem
        · exact hfirst ref' href' s hlocation hs
        · exact hseenRest ref' href' s hs hmem

end

/-- A text with its references, each of them where it stands: the text is cut at them, and the cuts are exact hits. -/
structure Cut (content : List Char) (refs : List ImportRef) (parts : List (List Char × String)) (rest : List Char) : Prop where
  text : content = weave parts rest
  exact : Hit.AllExact content (Hit.ofParts 0 parts)
  refs : refs.map (fun ref => (ref.specifier, ref.location)) = (Hit.ofParts 0 parts).map (Hit.reference content)

/-- Whatever references of a scan are taken, they cut the text. -/
theorem exists_cut {content : String} {refs : List ImportRef} {scanned : List (String × Option Span)}
    (h : Referenced content scanned) (hrefs : (refs.map fun ref => (ref.specifier, ref.location)).Sublist scanned) :
    ∃ parts rest, Cut content.toList refs parts rest := by
  obtain ⟨hits, hexact, rfl⟩ := h.exists_hits
  obtain ⟨taken, htaken, heq⟩ := List.sublist_map_iff.mp hrefs
  have hexact' : Hit.AllExact content.toList taken :=
    ⟨fun hit hhit => hexact.exact hit (htaken.subset hhit), hexact.ordered.sublist htaken⟩
  obtain ⟨parts, rest, htext, rfl⟩ := hexact'.exists_parts
  exact ⟨parts, rest, htext, hexact', heq⟩

section

variable {r : References} {known : KnownFiles} {m : Moves} {file new : Path} {generic : Bool} {content : List Char}
  {refs : List ImportRef} {parts : List (List Char × String)} {rest : List Char} (h : Cut content refs parts rest)

include h

theorem Cut.different : refs.Pairwise fun a b => ∀ s ∈ a.location, b.location ≠ some s := by
  have hall := h.exact.different
  rw [← h.refs] at hall
  exact List.pairwise_map.mp hall

theorem Cut.edits_eq : (r.planRefs known m new generic refs [] { path := file }).edits =
    ((Hit.ofParts 0 parts).map (Hit.reference content)).filterMap (r.editOf? known m file new generic) := by
  rw [planRefs_edits_eq h.different (by simp), List.nil_append, ← h.refs, List.filterMap_map]
  rfl

/-- The edits of a file are of different references. -/
theorem Cut.edits_replaced : ((r.planRefs known m new generic refs [] { path := file }).edits.map Hit.replaced).Sublist
    ((Hit.ofParts 0 parts).map (Hit.reference content)) := by
  rw [h.edits_eq]
  exact replaced_filterMap _

theorem Cut.edits_nodup : (r.planRefs known m new generic refs [] { path := file }).edits.Nodup :=
  (h.exact.nodup.sublist h.edits_replaced).of_map

/-- The edits of a file, in any order, give its references their updated texts, and what stands between them stays. -/
theorem planRefs_weaves_perm {es : List TextEdit}
    (hes : es.Perm (r.planRefs known m new generic refs [] { path := file }).edits) (path : String) :
    TextEdit.applyAll path (String.ofList content) es =
      .ok (String.ofList (weave (parts.map fun part =>
        (part.1, (r.updateSpecifier known m file new part.2).textOf part.2)) rest)) := by
  have hreplaced : (es.map Hit.replaced).Subperm ((Hit.ofParts 0 parts).map (Hit.reference content)) :=
    (hes.map _).subperm.trans h.edits_replaced.subperm
  have hbeside := h.exact.beside hreplaced
  have hfits : ∀ e ∈ es, e.Fits content := fun e he => h.exact.fits (hreplaced.subset (List.mem_map_of_mem he))
  have hsplices : (((Hit.ofParts 0 parts).map (Hit.reference content)).filterMap
      (r.editOf? known m file new generic)).map (TextEdit.spliceIn content) =
        (Hit.ofParts 0 parts).filterMap (Hit.splice? fun s => (r.updateSpecifier known m file new s).new?) := by
    rw [List.map_filterMap, List.filterMap_map]
    refine List.filterMap_congr fun hit hhit => ?_
    have hrange := (h.exact.exact hit hhit).byteRange?
    rw [Function.comp_apply, Hit.reference, editOf?, Option.bind_some, Hit.splice?, Option.map_map]
    refine congrArg (Option.map · _) (funext fun written => ?_)
    exact TextEdit.spliceIn_eq hrange
  have hwoven := TextEdit.Splice.substitute_weave (fun s => (r.updateSpecifier known m file new s).new?) parts rest 0
  rw [TextEdit.applyAll_eq_substitute path _ hbeside (by rwa [String.toList_ofList]), String.toList_ofList,
    TextEdit.Splice.substitute_perm (hes.map _) (TextEdit.pairwise_apart hbeside hfits), h.edits_eq, hsplices]
  rw [← h.text] at hwoven
  simp only [hwoven, SpecifierUpdate.textOf_eq]

theorem planRefs_weaves (path : String) :
    TextEdit.applyAll path (String.ofList content) (r.planRefs known m new generic refs [] { path := file }).edits =
      .ok (String.ofList (weave (parts.map fun part =>
        (part.1, (r.updateSpecifier known m file new part.2).textOf part.2)) rest)) :=
  planRefs_weaves_perm h (List.Perm.refl _) path

end

end References

end Refactor
