import Refactor.Markdown.Links
import Refactor.Proofs.Text.Hits
import Refactor.Proofs.Text.Pattern

/-!
# Where the targets of links stand

The scan looks at the start of a link to tell whether it is code, and reports the target further on. So a target is exact
and reaches into no other target, and where it meets code that code opens inside the link.

* `Markdown.IsTarget` — what the patterns of links mark
* `Markdown.collect_spec` — a target stands in a link that starts in prose
* `Markdown.scanLinks_exact` — the targets are exact and in order
* `Markdown.code_of_target_opens_inside` — code that meets a target opens inside its link
-/

namespace Refactor.Markdown

open Text (utf8Size Pattern Match)
open Text.Pattern (Marks Reads Widens)

/-! ## What the patterns mark -/

def IsBracketed (s : List Char) : Prop := ∃ inner, s = '<' :: (inner ++ ['>']) ∧ ∀ c ∈ inner, c ≠ '>' ∧ c ≠ '\n'

def IsTarget (s : List Char) : Prop := IsBracketed s ∨ (s ≠ [] ∧ ∀ c ∈ s, Text.isBlank c = false)

def InLink (before part _ : List Char) : Prop := before ≠ [] ∧ IsTarget part

theorem inLink_widens : Widens InLink where
  before := by
    rintro front part back s ⟨hfront, hpart⟩
    exact ⟨by simp [hfront], hpart⟩
  behind := fun _ h => h

theorem isTarget_widens : Widens fun _ part _ => IsTarget part := ⟨fun _ h => h, fun _ h => h⟩

theorem reads_bracketed {s : List Char} {m : Option Pattern.Marked} (h : Reads bracketed s m) : IsBracketed s := by
  cases h with
  | seq hopen hrest =>
    cases hrest with
    | seq hinner hclose =>
      rw [hopen.char_eq, hclose.char_eq]
      exact ⟨_, rfl, by simpa using hinner.oneOrMore_spec.2⟩

theorem marks_target {cls : Char → Bool} (h : ∀ c, cls c = true → Text.isBlank c = false) :
    Marks (.mark (.alt bracketed (.oneOrMore cls))) fun _ part _ => IsTarget part := by
  refine Marks.mark fun s m hs => ?_
  cases hs with
  | left hs => exact Or.inl (reads_bracketed hs)
  | right hs => exact Or.inr ⟨hs.oneOrMore_spec.1, fun c hc => h c (hs.oneOrMore_spec.2 c hc)⟩

theorem marks_inLink {c : Char} {a : Pattern} (h : Marks a fun _ part _ => IsTarget part) :
    Marks (.seq (.char c) a) InLink := by
  refine Marks.seq_right (h.mono fun front part back hpart s m hs => ⟨?_, hpart⟩)
  rw [hs.char_eq]
  exact List.cons_ne_nil c front

theorem inlineLink_marks : Marks inlineLink InLink := by
  refine Marks.prepend inLink_widens (marks_inLink ?_)
  -- label, closing bracket and white space come before the target, a title and the closing parenthesis behind it
  refine Marks.prepend isTarget_widens (Marks.prepend isTarget_widens (Marks.prepend isTarget_widens ?_))
  exact Marks.append isTarget_widens (marks_target (by simp)) rfl

theorem definition_marks : Marks definition InLink := by
  refine Marks.prepend inLink_widens (Marks.prepend inLink_widens (Marks.prepend inLink_widens ?_))
  refine Marks.prepend inLink_widens (marks_inLink ?_)
  refine Marks.prepend isTarget_widens (Marks.prepend isTarget_widens (Marks.prepend isTarget_widens ?_))
  exact marks_target (by simp)

theorem autolink_marks : Marks autolink InLink := by
  refine marks_inLink (Marks.append isTarget_widens (Marks.mark fun s m hs => Or.inr ⟨hs.oneOrMore_spec.1, ?_⟩) rfl)
  intro c hc
  have hclass := hs.oneOrMore_spec.2 c hc
  rw [Bool.and_eq_true] at hclass
  simpa using hclass.2

/-! ## Targets -/

/-- A target without its brackets: the whole part, or what the brackets hold. -/
theorem targetOf_spec {content front part back : List Char} (hcontent : content = front ++ part ++ back)
    (hpart : IsTarget part) {m : Match} (hlo : m.markLo = utf8Size front) (hhi : m.markHi = m.markLo + utf8Size part)
    {r : LocatedRef} (hr : targetOf content m = some r) (hne : r.specifier ≠ "") :
    r.hit.Exact content ∧ m.markLo ≤ r.lo ∧ r.hi ≤ m.markHi := by
  have hslice : Text.slice? content m.markLo m.markHi = some part :=
    Text.slice?_eq_some_iff.mpr ⟨front, back, hcontent, hlo.symm, by rw [hhi, hlo]⟩
  have hopen : ('<' : Char).utf8Size = 1 := by decide
  have hclose : ('>' : Char).utf8Size = 1 := by decide
  have hreturn : Text.isBlank '\r' = true := by decide
  have hnewline : Text.isBlank '\n' = true := by decide
  unfold targetOf at hr
  rw [hslice, Option.map_some, Option.some.injEq] at hr
  cases hstrip : (Text.dropLead? ['<'] part).bind (Text.dropTail? ['>']) with
  | some inner =>
    rw [hstrip] at hr
    subst hr
    obtain ⟨rest, hrest, hinner⟩ := Option.bind_eq_some_iff.mp hstrip
    obtain ⟨tail, htail, rfl⟩ := Option.map_eq_some_iff.mp hinner
    have hcut : part = '<' :: (tail.reverse ++ ['>']) := by
      have hrev := congrArg List.reverse (Text.dropLead?_eq_some htail)
      rw [List.reverse_reverse] at hrev
      rw [Text.dropLead?_eq_some hrest, hrev]
      simp
    generalize tail.reverse = inner at hcut hne
    have hplain : '\n' ∉ inner := by
      intro hmem
      rcases hpart with ⟨inner', heq, hinner'⟩ | ⟨_, hblank⟩
      · rw [hcut, List.cons.injEq] at heq
        have hsame := List.append_cancel_right heq.2
        exact (hinner' _ (hsame ▸ hmem)).2 rfl
      · rw [hblank '\n' (by rw [hcut]; simp [hmem])] at hnewline
        cases hnewline
    have hsize : utf8Size part = utf8Size inner + 2 := by
      rw [hcut, Text.utf8Size_cons, Text.utf8Size_append, Text.utf8Size_cons, Text.utf8Size_nil, hopen, hclose]
      omega
    refine ⟨⟨?_, ?_, front ++ ['<'], '>' :: back, ?_, ?_, ?_, Or.inr ⟨'>', rfl, by decide⟩⟩, ?_, ?_⟩
    · simpa [LocatedRef.hit] using hne
    · simpa [LocatedRef.hit] using hplain
    · rw [hcontent, hcut]
      simp [LocatedRef.hit]
    · simp [LocatedRef.hit, hlo, hopen]
    · simp only [LocatedRef.hit, String.toList_ofList]
      omega
    · dsimp only
      omega
    · dsimp only
      omega
  | none =>
    rw [hstrip] at hr
    subst hr
    rcases hpart with ⟨inner, rfl, _⟩ | ⟨hsome, hblank⟩
    · -- what stands between brackets loses them
      have hlead : Text.dropLead? ['<'] ('<' :: (inner ++ ['>'])) = some (inner ++ ['>']) := by simp [Text.dropLead?]
      rw [hlead, Option.bind_some, Text.dropTail?_concat] at hstrip
      cases hstrip
    · refine ⟨⟨?_, ?_, front, back, ?_, hlo.symm, ?_, Or.inl ?_⟩, Nat.le_refl _, Nat.le_refl _⟩
      · simpa [LocatedRef.hit] using hsome
      · intro hmem
        rw [hblank '\n' (by simpa [LocatedRef.hit] using hmem)] at hnewline
        cases hnewline
      · simpa [LocatedRef.hit] using hcontent
      · simpa [LocatedRef.hit] using hhi.symm
      · intro hlast
        rw [hblank '\r' (by simpa [LocatedRef.hit] using List.mem_of_getLast? hlast)] at hreturn
        cases hreturn

/-- A target that is collected is exact and stands in a link that starts in prose. -/
theorem collect_spec {content : List Char} {code : List Region} {pattern : Pattern} {accept : String → Bool}
    (hpattern : Marks pattern InLink) (haccept : accept "" = false) {r : LocatedRef}
    (hr : r ∈ collect content code pattern accept) : r.hit.Exact content ∧
      ∃ m ∈ pattern.findAll content, inCode code m.lo = false ∧ m.lo < r.lo ∧ r.hi ≤ m.hi := by
  obtain ⟨m, hm, hr⟩ := List.mem_filterMap.mp hr
  obtain ⟨hfound, hprose⟩ := List.mem_filter.mp hm
  obtain ⟨htarget, haccepted⟩ := Option.filter_eq_some_iff.mp hr
  obtain ⟨front, before, part, after, back, hcontent, ⟨hbefore, hpart⟩, hlo, hmarkLo, hmarkHi, hhi⟩ :=
    Pattern.exists_marked_of_mem_findAll hpattern hfound
  have hne : r.specifier ≠ "" := by
    intro hempty
    rw [hempty, haccept] at haccepted
    cases haccepted
  have hpos : utf8Size before ≠ 0 := fun hzero => hbefore (Text.utf8Size_eq_zero_iff.mp hzero)
  have hcut : content = (front ++ before) ++ part ++ (after ++ back) := by rw [hcontent]; simp
  obtain ⟨hexact, hle, hle'⟩ := targetOf_spec hcut hpart (by rw [Text.utf8Size_append, hmarkLo, hlo]) hmarkHi htarget hne
  exact ⟨hexact, m, hfound, by simpa using hprose, by omega, by omega⟩

/-! ## The scan -/

def linkPatterns : List Pattern := [inlineLink, definition, autolink]

theorem dropOverlapping_sublist : ∀ (stop : Nat) (rs : List LocatedRef), (dropOverlapping stop rs).Sublist rs
  | _, [] => List.Sublist.refl _
  | stop, r :: rest => by
    rw [dropOverlapping]
    split
    · exact (dropOverlapping_sublist stop rest).cons r
    · exact (dropOverlapping_sublist r.hi rest).cons_cons r

/-- What is kept starts behind the end of all that was kept before. -/
theorem dropOverlapping_ordered : ∀ {stop : Nat} {rs : List LocatedRef}, (∀ r ∈ rs, r.lo ≤ r.hi) →
    (∀ r ∈ dropOverlapping stop rs, stop ≤ r.lo) ∧ (dropOverlapping stop rs).Pairwise fun a b => a.hi ≤ b.lo
  | _, [], _ => ⟨by simp [dropOverlapping], List.Pairwise.nil⟩
  | stop, r :: rest, h => by
    have hrest : ∀ r ∈ rest, r.lo ≤ r.hi := fun r' hr' => h r' (List.mem_cons_of_mem r hr')
    rw [dropOverlapping]
    split
    · exact dropOverlapping_ordered hrest
    · rename_i hkept
      obtain ⟨hbehind, hordered⟩ := @dropOverlapping_ordered r.hi rest hrest
      have hr := h r List.mem_cons_self
      refine ⟨List.forall_mem_cons.mpr ⟨by omega, fun r' hr' => ?_⟩, List.pairwise_cons.mpr ⟨hbehind, hordered⟩⟩
      have hr' := hbehind r' hr'
      omega

/-- A target that is found by one of the patterns is exact and stands in a link that starts in prose. -/
theorem found_spec {content : List Char} {code : List Region} {r : LocatedRef}
    (hr : r ∈ collect content code inlineLink isFileTarget ++ collect content code definition isFileTarget ++
      collect content code autolink isFileAutolink) : r.hit.Exact content ∧
    ∃ pattern ∈ linkPatterns, ∃ m ∈ pattern.findAll content, inCode code m.lo = false ∧ m.lo < r.lo ∧ r.hi ≤ m.hi := by
  have hempty : isFileTarget "" = false := by decide
  have hempty' : isFileAutolink "" = false := by decide
  rw [List.mem_append, List.mem_append] at hr
  rcases hr with (hr | hr) | hr
  · obtain ⟨hexact, hm⟩ := collect_spec inlineLink_marks hempty hr
    exact ⟨hexact, inlineLink, by simp [linkPatterns], hm⟩
  · obtain ⟨hexact, hm⟩ := collect_spec definition_marks hempty hr
    exact ⟨hexact, definition, by simp [linkPatterns], hm⟩
  · obtain ⟨hexact, hm⟩ := collect_spec autolink_marks hempty' hr
    exact ⟨hexact, autolink, by simp [linkPatterns], hm⟩

/-- The targets of a document are exact and in order. -/
theorem scanLinks_exact (content : List Char) : Hit.AllExact content ((scanLinks content).map LocatedRef.hit) where
  exact := by
    intro hit hhit
    obtain ⟨r, hr, rfl⟩ := List.mem_map.mp hhit
    exact (found_spec ((List.mergeSort_perm _ _).mem_iff.mp ((dropOverlapping_sublist 0 _).subset hr))).1
  ordered := by
    rw [List.pairwise_map]
    refine (dropOverlapping_ordered fun r hr => Nat.le_of_lt ?_).2
    exact (found_spec ((List.mergeSort_perm _ _).mem_iff.mp hr)).1.lt

/-- A region of code that meets the target of a link opens inside the link, behind its start. -/
theorem code_of_target_opens_inside {content : List Char} {r : LocatedRef} (hr : r ∈ scanLinks content) :
    ∃ pattern ∈ linkPatterns, ∃ m ∈ pattern.findAll content, m.lo < r.lo ∧ r.hi ≤ m.hi ∧
      inCode (codeRegions content) m.lo = false ∧
      ∀ region ∈ codeRegions content, region.1 < r.hi → r.lo < region.2 → m.lo < region.1 := by
  obtain ⟨-, pattern, hpattern, m, hm, hprose, hlo, hhi⟩ :=
    found_spec ((List.mergeSort_perm _ _).mem_iff.mp ((dropOverlapping_sublist 0 _).subset hr))
  refine ⟨pattern, hpattern, m, hm, hlo, hhi, hprose, fun region hregion _ hmeets => ?_⟩
  by_contra hbefore
  rw [inCode, List.any_eq_false] at hprose
  refine hprose region hregion ?_
  simp only [Bool.and_eq_true, decide_eq_true_eq]
  omega

/-- A link whose text runs into a backtick: the code between the backticks holds its target. -/
theorem code_of_target_opens_inside_label :
    (⟨"b.md", .link, 7, 11⟩ : LocatedRef) ∈ scanLinks "[a `x](b.md)` y\n".toList ∧
      (3, 13) ∈ codeRegions "[a `x](b.md)` y\n".toList ∧
      ∃ pattern ∈ linkPatterns, ∃ m ∈ pattern.findAll "[a `x](b.md)` y\n".toList, m.lo < 7 ∧ 11 ≤ m.hi ∧
        inCode (codeRegions "[a `x](b.md)` y\n".toList) m.lo = false ∧
        ∀ region ∈ codeRegions "[a `x](b.md)` y\n".toList, region.1 < 11 → 7 < region.2 → m.lo < region.1 := by
  have hr : (⟨"b.md", .link, 7, 11⟩ : LocatedRef) ∈ scanLinks "[a `x](b.md)` y\n".toList := by decide +kernel
  exact ⟨hr, by decide +kernel, code_of_target_opens_inside hr⟩

end Refactor.Markdown
