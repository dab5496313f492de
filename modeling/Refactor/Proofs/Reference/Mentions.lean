import Mathlib.Data.List.TakeDrop
import Refactor.Proofs.Reference.Masking

/-!
# Mentions and the text they stand in

Blanks have as many bytes as what they replace, so a word of the masked text stands at the same offset in the text itself,
and none of its characters is blanked. A word is the longest one at its place, so what follows it matters by its first
character only, and another text may stand for a mention.

* `Mention.exists_of_blank` — a part of the masked text without a space is a part of the text
* `Mention.Munch`, `Mention.words_append` — the longest word, behind which the search goes on
* `Mention.words_spec`, `Mention.words_ordered` — the words of a text, one behind the other
* `Mention.hits`, `Mention.find_eq` — the mentions with their offsets
* `Mention.hits_exact` — they are exact
* `Mention.Exchange` — texts that may stand in the place of a mention
* `Mention.Markings.Bare.hits_eq` — the mentions where nothing is blanked, word by word
-/

namespace Refactor.Mention

open Text (utf8Size)

/-! ## Blanked texts -/

section

variable {ranges : List ByteRange}

/-- Whether a range holds an offset. -/
def Within (ranges : List ByteRange) (off : Nat) : Prop := ∃ range ∈ ranges, range.1 ≤ off ∧ off < range.2

theorem within_append {ranges ranges' : List ByteRange} {o : Nat} (h : Within ranges o ∨ Within ranges' o) :
    Within (ranges ++ ranges') o := by
  rcases h with ⟨range, hrange, hin⟩ | ⟨range, hrange, hin⟩
  · exact ⟨range, List.mem_append_left _ hrange, hin⟩
  · exact ⟨range, List.mem_append_right _ hrange, hin⟩

theorem utf8Size_replicate_space : ∀ n : Nat, utf8Size (List.replicate n ' ') = n
  | 0 => rfl
  | n + 1 => by
    have hsize : (' ' : Char).utf8Size = 1 := by decide
    rw [List.replicate_succ, Text.utf8Size_cons, utf8Size_replicate_space n, hsize, Nat.add_comm]

/-- A character is kept, or it lies in a range and stands for as many blanks as it has bytes. -/
theorem blank_cons (ranges : List ByteRange) (off : Nat) (c : Char) (cs : List Char) :
    (blank ranges off (c :: cs) = c :: blank ranges (off + c.utf8Size) cs ∧ (c = '\n' ∨ ¬ Within ranges off)) ∨
      blank ranges off (c :: cs) = List.replicate c.utf8Size ' ' ++ blank ranges (off + c.utf8Size) cs := by
  rw [blank]
  split
  · exact Or.inr rfl
  · rename_i hkept
    have hwithin : ¬ (c ≠ '\n' ∧ Within ranges off) := by simpa [covered, Within] using hkept
    exact Or.inl ⟨rfl, or_iff_not_imp_left.mpr fun hc hin => hwithin ⟨hc, hin⟩⟩

/-- What does not start with a space in the masked text starts at the same offset in the text. -/
theorem exists_cut_of_blank {cs front rest : List Char} {off : Nat} (h : blank ranges off cs = front ++ rest)
    (hrest : rest.head? ≠ some ' ') : ∃ front' rest', cs = front' ++ rest' ∧ utf8Size front' = utf8Size front ∧
      blank ranges (off + utf8Size front') rest' = rest := by
  induction cs generalizing off front with
  | nil =>
    obtain ⟨rfl, rfl⟩ := List.append_eq_nil_iff.mp h.symm
    exact ⟨[], [], rfl, rfl, rfl⟩
  | cons c cs ih =>
    have hlater : ∀ {front₁ : List Char}, blank ranges (off + c.utf8Size) cs = front₁ ++ rest →
        c.utf8Size + utf8Size front₁ = utf8Size front → ∃ front' rest', c :: cs = front' ++ rest' ∧
          utf8Size front' = utf8Size front ∧ blank ranges (off + utf8Size front') rest' = rest := by
      intro front₁ h hsize
      obtain ⟨front', rest', rfl, hfront, hblank⟩ := ih h
      refine ⟨c :: front', rest', rfl, ?_, ?_⟩
      · rw [Text.utf8Size_cons, hfront, hsize]
      · rw [Text.utf8Size_cons, ← Nat.add_assoc, hblank]
    by_cases hfront : front = []
    · subst hfront
      exact ⟨[], c :: cs, rfl, rfl, h⟩
    · rcases blank_cons ranges off c cs with ⟨hkept, _⟩ | hblanked
      · obtain ⟨d, front₁, rfl⟩ := List.exists_cons_of_ne_nil hfront
        rw [hkept, List.cons_append, List.cons.injEq] at h
        obtain ⟨rfl, h⟩ := h
        exact hlater h rfl
      · rw [hblanked, List.append_eq_append_iff] at h
        rcases h with ⟨front₁, rfl, h⟩ | ⟨blanks, hblanks, rfl⟩
        · refine hlater h ?_
          rw [Text.utf8Size_append, utf8Size_replicate_space]
        · -- the rest would start among the blanks
          cases blanks with
          | nil =>
            rw [List.append_nil] at hblanks
            refine @hlater [] rfl ?_
            rw [← hblanks, utf8Size_replicate_space]
            exact Nat.add_zero _
          | cons d blanks =>
            have hspace : d = ' ' := List.eq_of_mem_replicate (hblanks ▸ List.mem_append_right _ List.mem_cons_self)
            exact absurd (congrArg some hspace) hrest

/-- A part at the start of the masked text without a space is a part of the text, and none of it lies in a range. -/
theorem prefix_of_blank {word : List Char} : ∀ {cs back : List Char} {off : Nat}, blank ranges off cs = word ++ back →
    (∀ c ∈ word, c ≠ ' ') → ∃ back', cs = word ++ back' ∧
      ∀ front c behind, word = front ++ c :: behind → c ≠ '\n' → ¬ Within ranges (off + utf8Size front) := by
  induction word with
  | nil =>
    intro cs back off _ _
    exact ⟨cs, rfl, by simp⟩
  | cons d word ih =>
    intro cs back off h hspace
    cases cs with
    | nil => cases h
    | cons c cs =>
      rcases blank_cons ranges off c cs with ⟨hkept, hfree⟩ | hblanked
      · rw [hkept, List.cons_append, List.cons.injEq] at h
        obtain ⟨rfl, h⟩ := h
        obtain ⟨back', rfl, hword⟩ := ih h fun e he => hspace e (List.mem_cons_of_mem _ he)
        refine ⟨back', rfl, ?_⟩
        intro front e behind hcut he
        cases front with
        | nil =>
          obtain ⟨rfl, -⟩ := List.cons.inj hcut
          exact hfree.resolve_left he
        | cons f front =>
          rw [List.cons_append, List.cons.injEq] at hcut
          rw [← hcut.1, Text.utf8Size_cons, ← Nat.add_assoc]
          exact hword front e behind hcut.2 he
      · obtain ⟨n, hn⟩ : ∃ n, c.utf8Size = n + 1 := ⟨c.utf8Size - 1, by have := c.utf8Size_pos; omega⟩
        rw [hblanked, hn, List.replicate_succ, List.cons_append, List.cons_append, List.cons.injEq] at h
        exact absurd h.1.symm (hspace d List.mem_cons_self)

/-- A part of the masked text without a space stands at the same offset in the text, outside all ranges. -/
theorem exists_of_blank {cs front word back : List Char} (h : blank ranges 0 cs = front ++ word ++ back)
    (hne : word ≠ []) (hspace : ∀ c ∈ word, c ≠ ' ') (hline : '\n' ∉ word) :
    ∃ front' back', cs = front' ++ word ++ back' ∧ utf8Size front' = utf8Size front ∧
      ¬ Within ranges (utf8Size front) := by
  obtain ⟨c, rest, rfl⟩ := List.exists_cons_of_ne_nil hne
  rw [List.append_assoc] at h
  obtain ⟨front', rest', rfl, hfront, hblank⟩ := exists_cut_of_blank h (by simpa using hspace c List.mem_cons_self)
  obtain ⟨back', rfl, hword⟩ := prefix_of_blank hblank hspace
  refine ⟨front', back', by simp, hfront, ?_⟩
  have hfree := hword [] c rest rfl fun hc => hline (hc ▸ List.mem_cons_self)
  rwa [Text.utf8Size_nil, Nat.add_zero, Nat.zero_add, hfront] at hfree

end

/-! ## Words -/

def isWordPart (c : Char) : Bool := isPathChar c || isSuffixChar c || c == '#' || c == '?'

theorem ne_of_isWordPart {c : Char} (h : isWordPart c = true) : c ≠ ' ' ∧ c ≠ '\n' ∧ c ≠ '\r' := by
  refine ⟨?_, ?_, ?_⟩ <;> (rintro rfl; exact absurd h (by decide))

/-- The longest word at the start of a text, in front of a character that does not continue it: path characters, or path
characters with an anchor or a query. -/
inductive Munch : List Char → Option Char → Prop
  | plain {word : List Char} {next : Option Char} (hne : word ≠ []) (hword : ∀ c ∈ word, isPathChar c = true)
    (hnext : ∀ c ∈ next, isPathChar c = false ∧ (c == '#' || c == '?') = false) : Munch word next
  | suffixed {body more : List Char} {s : Char} {next : Option Char} (hne : body ≠ [])
    (hbody : ∀ c ∈ body, isPathChar c = true) (hs : (s == '#' || s == '?') = true)
    (hmore : ∀ c ∈ more, isSuffixChar c = true) (hnext : ∀ c ∈ next, isSuffixChar c = false) :
    Munch (body ++ s :: more) next

theorem Munch.ne_nil {word : List Char} {next : Option Char} (h : Munch word next) : word ≠ [] := by
  cases h with
  | plain hne => exact hne
  | suffixed => simp

theorem Munch.length_lt {word : List Char} {next : Option Char} (h : Munch word next) (rest : List Char) :
    rest.length < (word ++ rest).length := by
  have hpos := List.length_pos_iff.mpr h.ne_nil
  rw [List.length_append]
  omega

theorem Munch.isWordPart {word : List Char} {next : Option Char} (h : Munch word next) :
    ∀ c ∈ word, isWordPart c = true := by
  intro c hc
  rw [Mention.isWordPart]
  cases h with
  | plain _ hword => rw [hword c hc]; rfl
  | suffixed _ hbody hs hmore =>
    rcases List.mem_append.mp hc with hc | hc
    · rw [hbody c hc]; rfl
    · rcases List.mem_cons.mp hc with rfl | hc
      · rw [Bool.or_assoc, hs, Bool.or_true]
      · rw [hmore c hc, Bool.or_true]; rfl

theorem not_isPathChar {s : Char} (hs : (s == '#' || s == '?') = true) : isPathChar s = false := by
  rcases Bool.or_eq_true_iff.mp hs with h | h <;> rw [beq_iff_eq.mp h] <;> decide

theorem span_append {p : Char → Bool} {as bs : List Char} (has : ∀ c ∈ as, p c = true) (hbs : ∀ c ∈ bs.head?, p c = false) :
    (as ++ bs).span p = (as, bs) := by
  rw [List.span_eq_takeWhile_dropWhile, List.takeWhile_append_of_pos has, List.dropWhile_append_of_pos has]
  cases bs with
  | nil => rw [List.takeWhile_nil, List.dropWhile_nil, List.append_nil]
  | cons b bs =>
    have hb : ¬ p b = true := by simpa using hbs b rfl
    rw [List.takeWhile_cons_of_neg hb, List.dropWhile_cons_of_neg hb, List.append_nil]

theorem head?_dropWhile {p : Char → Bool} (cs : List Char) : ∀ c ∈ (cs.dropWhile p).head?, p c = false := by
  intro c hc
  have hnot := List.head?_dropWhile_not p cs
  rw [Option.mem_def.mp hc] at hnot
  exact hnot

/-- A path character starts a word. -/
theorem exists_munch {c : Char} (h : isPathChar c = true) (cs : List Char) :
    ∃ word rest, c :: cs = word ++ rest ∧ Munch word rest.head? := by
  have hbody : ∀ d ∈ (c :: cs).takeWhile isPathChar, isPathChar d = true := fun d hd => List.mem_takeWhile_imp hd
  have hne : (c :: cs).takeWhile isPathChar ≠ [] := by
    rw [List.takeWhile_cons_of_pos h]
    exact List.cons_ne_nil _ _
  have hstop := head?_dropWhile (p := isPathChar) (c :: cs)
  have hcut := List.takeWhile_append_dropWhile (p := isPathChar) (l := c :: cs)
  generalize (c :: cs).takeWhile isPathChar = body at hbody hne hcut
  generalize (c :: cs).dropWhile isPathChar = rest at hcut hstop
  by_cases hsuffix : ∃ s ∈ rest.head?, (s == '#' || s == '?') = true
  · obtain ⟨s, hhead, hs⟩ := hsuffix
    obtain ⟨more, rfl⟩ := List.head?_eq_some_iff.mp hhead
    refine ⟨body ++ s :: more.takeWhile isSuffixChar, more.dropWhile isSuffixChar, ?_, ?_⟩
    · rw [List.append_assoc, List.cons_append, List.takeWhile_append_dropWhile, hcut]
    · exact .suffixed hne hbody hs (fun d hd => List.mem_takeWhile_imp hd) (head?_dropWhile more)
  · refine ⟨body, rest, hcut.symm, .plain hne hbody fun d hd => ⟨hstop d hd, ?_⟩⟩
    exact Bool.eq_false_iff.mpr fun hs => hsuffix ⟨d, hd, hs⟩

/-- The search takes the longest word and goes on behind it. -/
theorem words_append {word rest : List Char} (h : Munch word rest.head?) (fuel off : Nat) :
    words (fuel + 1) off (word ++ rest) = (off, word) :: words fuel (off + utf8Size word) rest := by
  obtain ⟨c, cs, hword⟩ := List.exists_cons_of_ne_nil h.ne_nil
  have hpath : isPathChar c = true := by
    cases h with
    | plain _ hall => exact hall c (hword ▸ List.mem_cons_self)
    | suffixed hne hbody =>
      obtain ⟨d, ds, rfl⟩ := List.exists_cons_of_ne_nil hne
      obtain ⟨rfl, -⟩ := List.cons.inj hword
      exact hbody _ List.mem_cons_self
  rw [hword, List.cons_append, words, if_pos hpath, ← List.cons_append, ← hword]
  generalize hnext : rest.head? = next at h
  cases h with
  | plain _ hall hstop =>
    rw [span_append hall fun d hd => (hstop d (hnext ▸ hd)).1]
    cases rest with
    | nil => simp
    | cons d rest =>
      dsimp only
      rw [if_neg (by simp [(hstop d (hnext ▸ rfl)).2]), List.append_nil]
  | @suffixed body more s _ _ hbody hs hmore hstop =>
    rw [List.append_assoc, List.cons_append, span_append hbody fun d hd => by cases hd; exact not_isPathChar hs]
    dsimp only
    rw [if_pos hs, span_append hmore (hnext ▸ hstop)]

/-- A word stands in the text at its offset. -/
theorem words_spec : ∀ {fuel off : Nat} {cs : List Char} {o : Nat} {word : List Char}, (o, word) ∈ words fuel off cs →
    ∃ front back, cs = front ++ word ++ back ∧ o = off + utf8Size front ∧ word ≠ [] ∧ ∀ c ∈ word, isWordPart c = true
  | 0, _, _, _, _, h => by cases h
  | _ + 1, _, [], _, _, h => by cases h
  | fuel + 1, off, c :: cs, o, word, h => by
    by_cases hc : isPathChar c = true
    · obtain ⟨first, rest, hcut, hmunch⟩ := exists_munch hc cs
      rw [hcut, words_append hmunch] at h
      rcases List.mem_cons.mp h with heq | h
      · cases heq
        exact ⟨[], rest, hcut, rfl, hmunch.ne_nil, hmunch.isWordPart⟩
      · obtain ⟨front, back, rfl, rfl, hword⟩ := words_spec h
        exact ⟨first ++ front, back, by rw [hcut]; simp, by rw [Text.utf8Size_append, Nat.add_assoc], hword⟩
    · rw [words, if_neg hc] at h
      obtain ⟨front, back, rfl, rfl, hword⟩ := words_spec h
      exact ⟨c :: front, back, rfl, by rw [Text.utf8Size_cons, Nat.add_assoc], hword⟩

theorem words_ordered : ∀ (fuel off : Nat) (cs : List Char),
    (words fuel off cs).Pairwise fun a b => a.1 + utf8Size a.2 ≤ b.1
  | 0, _, _ => List.Pairwise.nil
  | _ + 1, _, [] => List.Pairwise.nil
  | fuel + 1, off, c :: cs => by
    by_cases hc : isPathChar c = true
    · obtain ⟨word, rest, hcut, hmunch⟩ := exists_munch hc cs
      rw [hcut, words_append hmunch, List.pairwise_cons]
      refine ⟨fun later hlater => ?_, words_ordered fuel _ rest⟩
      obtain ⟨_, _, _, hoffset, _⟩ := words_spec hlater
      dsimp only
      omega
    · rw [words, if_neg hc]
      exact words_ordered fuel _ cs

theorem cleanWord?_spec {word token : List Char} (h : cleanWord? word = some token) : token <+: word ∧ token ≠ [] := by
  unfold cleanWord? at h
  extract_lets path trimmed hasSuffix token' path' at h
  have hpath : path' ≠ [] ∧ token' = token := by
    split at h
    · cases h
    · rename_i hkept
      split at h
      · cases h
      · split at h
        · cases h
        · refine ⟨fun hnil => ?_, Option.some.inj h⟩
          rw [hnil] at hkept
          exact hkept rfl
  obtain ⟨hne, rfl⟩ := hpath
  have htrimmed : trimmed <+: word := by
    rw [← List.reverse_suffix]
    show (Text.dropWhileEnd _ word).reverse <:+ _
    rw [Text.dropWhileEnd, List.reverse_reverse]
    exact List.dropWhile_suffix _
  by_cases hsuffix : hasSuffix
  · simp only [token', path', if_pos hsuffix] at hne ⊢
    refine ⟨List.prefix_rfl, ?_⟩
    rintro rfl
    exact hne rfl
  · simp only [token', path', if_neg hsuffix] at hne ⊢
    exact ⟨htrimmed, hne⟩

/-! ## Mentions with their offsets -/

/-- The path-like words of a text with their offsets. -/
def hits (content : List Char) (extension : String) : List Hit :=
  let masked := mask (.ofExtension extension) content
  (words (masked.length + 1) 0 masked).filterMap fun (off, word) =>
    (cleanWord? word).map fun token => ⟨token, off, off + utf8Size token⟩

theorem find_eq (content extension : String) : find content extension =
    (hits content.toList extension).map fun hit => ⟨String.ofList hit.text, .ofBytes content.toList hit.lo hit.hi⟩ := by
  unfold find hits
  rw [List.map_filterMap]
  simp only [Option.map_map]
  rfl

/-- A mention stands in the text at its offset, outside everything that is blanked. -/
theorem exact_of_mem_hits {content : List Char} {extension : String} {hit : Hit} (h : hit ∈ hits content extension) :
    hit.Exact content ∧ ¬ Within (blankRanges (.ofExtension extension) content) hit.lo := by
  obtain ⟨⟨off, word⟩, hword, h⟩ := List.mem_filterMap.mp h
  obtain ⟨token, htoken, rfl⟩ := Option.map_eq_some_iff.mp h
  obtain ⟨front, back, hcut, rfl, -, hparts⟩ := words_spec hword
  obtain ⟨⟨tail, rfl⟩, hne⟩ := cleanWord?_spec htoken
  have htoken : ∀ c ∈ token, c ≠ ' ' ∧ c ≠ '\n' ∧ c ≠ '\r' := fun c hc =>
    ne_of_isWordPart (hparts c (List.mem_append_left _ hc))
  have hline : '\n' ∉ token := fun hc => (htoken _ hc).2.1 rfl
  have hmasked : blank (blankRanges (.ofExtension extension) content) 0 content = front ++ token ++ (tail ++ back) := by
    rw [← mask_eq, hcut]
    simp
  obtain ⟨front', back', hcontent, hfront, hfree⟩ :=
    exists_of_blank hmasked hne (fun c hc => (htoken c hc).1) hline
  refine ⟨⟨hne, hline, front', back', hcontent, ?_, rfl, Or.inl fun hlast => ?_⟩, ?_⟩
  · rw [hfront, Nat.zero_add]
  · exact (htoken _ (List.mem_of_getLast? hlast)).2.2 rfl
  · rwa [Nat.zero_add]

/-- The mentions of a text are exact and in order. -/
theorem hits_exact (content : List Char) (extension : String) : Hit.AllExact content (hits content extension) where
  exact := fun _ h => (exact_of_mem_hits h).1
  ordered := by
    rw [hits, List.pairwise_filterMap]
    refine (words_ordered _ _ _).imp ?_
    rintro ⟨off, word⟩ ⟨off', word'⟩ hle hit hhit hit' hhit'
    obtain ⟨token, htoken, rfl⟩ := Option.map_eq_some_iff.mp hhit
    obtain ⟨token', _, rfl⟩ := Option.map_eq_some_iff.mp hhit'
    obtain ⟨⟨tail, rfl⟩, -⟩ := cleanWord?_spec htoken
    rw [Text.utf8Size_append] at hle
    dsimp only at hle ⊢
    omega

/-! ## Words that get other texts -/

/-- Whether what stands before an anchor or a query can be a path. -/
def isPath (path : List Char) : Bool :=
  !(path.isEmpty || ['/', '/'].isPrefixOf path) && path.any Char.isAlphanum && (path.contains '/' || hasExtension path)

/-- The punctuation of a sentence. -/
def isPunctuation (c : Char) : Bool := c == '.' || c == ',' || c == ';' || c == ':'

theorem cleanWord?_eq (word : List Char) : cleanWord? word =
    if (word.takeWhile fun c => c != '#' && c != '?').length < word.length then
      if isPath (word.takeWhile fun c => c != '#' && c != '?') then some word else none
    else if isPath (Text.dropWhileEnd isPunctuation word) then some (Text.dropWhileEnd isPunctuation word) else none := by
  have hpath : ∀ path token : List Char, (if (path.isEmpty || ['/', '/'].isPrefixOf path) = true then none
      else if (!path.any Char.isAlphanum) = true then none
      else if (!path.contains '/' && !hasExtension path) = true then none else some token) =
        if isPath path = true then some token else none := by
    intro path token
    unfold isPath
    cases path.isEmpty || ['/', '/'].isPrefixOf path <;> cases path.any Char.isAlphanum <;>
      cases path.contains '/' <;> cases hasExtension path <;> rfl
  unfold cleanWord?
  dsimp only
  split <;> exact hpath _ _

theorem takeWhile_body {body : List Char} (h : ∀ c ∈ body, isPathChar c = true) :
    ∀ c ∈ body, (c != '#' && c != '?') = true := by
  intro c hc
  have hpath := h c hc
  rw [Bool.and_eq_true, bne_iff_ne, bne_iff_ne]
  refine ⟨?_, ?_⟩ <;> (rintro rfl; exact absurd hpath (by decide))

theorem cleanWord?_plain {word : List Char} (h : ∀ c ∈ word, isPathChar c = true) : cleanWord? word =
    if isPath (Text.dropWhileEnd isPunctuation word) then some (Text.dropWhileEnd isPunctuation word) else none := by
  rw [cleanWord?_eq, List.takeWhile_eq_self_iff.mpr (takeWhile_body h), if_neg (Nat.lt_irrefl _)]

theorem cleanWord?_suffixed {body more : List Char} {s : Char} (h : ∀ c ∈ body, isPathChar c = true)
    (hs : (s == '#' || s == '?') = true) : cleanWord? (body ++ s :: more) =
      if isPath body then some (body ++ s :: more) else none := by
  have hstop : (s :: more).takeWhile (fun c => c != '#' && c != '?') = [] := by
    refine List.takeWhile_cons_of_neg ?_
    rcases Bool.or_eq_true_iff.mp hs with h | h <;> rw [beq_iff_eq.mp h] <;> decide
  rw [cleanWord?_eq, List.takeWhile_append_of_pos (takeWhile_body h), hstop, List.append_nil, if_pos (by simp)]

theorem dropWhileEnd_append {p : Char → Bool} {tail : List Char} (h : ∀ c ∈ tail, p c = true) (cs : List Char) :
    Text.dropWhileEnd p (cs ++ tail) = Text.dropWhileEnd p cs := by
  unfold Text.dropWhileEnd
  rw [List.reverse_append, List.dropWhile_append_of_pos fun c hc => h c (List.mem_reverse.mp hc)]

theorem forall_of_dropWhileEnd {p : Char → Bool} {cs tail : List Char} (h : Text.dropWhileEnd p (cs ++ tail) = cs) :
    ∀ c ∈ tail, p c = true := by
  have hcut := List.takeWhile_append_dropWhile (p := p) (l := (cs ++ tail).reverse)
  have hrest := congrArg List.reverse h
  rw [Text.dropWhileEnd, List.reverse_reverse] at hrest
  rw [hrest, List.reverse_append] at hcut
  intro c hc
  rw [← List.mem_reverse, ← List.append_cancel_right hcut] at hc
  exact List.mem_takeWhile_imp hc

/-- A text that may stand in the place of a mention: it starts like it, it is a mention by itself, and it has an anchor or a
query if that one has. -/
structure Exchange (old new : List Char) : Prop where
  start : new.head? = old.head?
  reads : words 1 0 new = [(0, new)]
  whole : cleanWord? new = some new
  kind : new.all isPathChar = old.all isPathChar

theorem Exchange.munch {old new : List Char} (h : Exchange old new) : Munch new none := by
  cases new with
  | nil => cases h.reads
  | cons c cs =>
    have hreads := h.reads
    by_cases hc : isPathChar c = true
    · obtain ⟨word, rest, hcut, hmunch⟩ := exists_munch hc cs
      rw [hcut, words_append hmunch, List.cons.injEq, Prod.mk.injEq] at hreads
      have hrest : rest = [] := List.self_eq_append_right.mp hreads.1.2
      rw [hcut, hrest, List.append_nil]
      rwa [hrest] at hmunch
    · rw [words, if_neg hc] at hreads
      cases hreads

/-- With what was cut off behind the old text, the new one is the longest word again, and it is what is kept of it. -/
theorem Exchange.append {old tail new : List Char} {next : Option Char} (h : Exchange old new)
    (hmunch : Munch (old ++ tail) next) (hclean : cleanWord? (old ++ tail) = some old) :
    Munch (new ++ tail) next ∧ cleanWord? (new ++ tail) = some new := by
  have hnew := h.munch
  have hwhole := h.whole
  generalize hword : old ++ tail = word at hmunch hclean
  cases hmunch with
  | plain hne hall hnext =>
    subst hword
    have hold : old.all isPathChar = true := List.all_eq_true.mpr fun c hc => hall c (List.mem_append_left _ hc)
    have hnewAll : ∀ c ∈ new, isPathChar c = true := List.all_eq_true.mp (h.kind.trans hold)
    have hall' : ∀ c ∈ new ++ tail, isPathChar c = true := by
      rw [List.forall_mem_append]
      exact ⟨hnewAll, fun c hc => hall c (List.mem_append_right _ hc)⟩
    refine ⟨.plain (by simp [hnew.ne_nil]) hall' hnext, ?_⟩
    have htail : ∀ c ∈ tail, isPunctuation c = true := by
      refine @forall_of_dropWhileEnd _ old _ ?_
      rw [cleanWord?_plain hall] at hclean
      split at hclean
      · exact Option.some.inj hclean
      · cases hclean
    rwa [cleanWord?_plain hall', dropWhileEnd_append htail, ← cleanWord?_plain hnewAll]
  | @suffixed body more s _ hne hbody hs hmore hnext =>
    have hold : old = body ++ s :: more := by
      rw [cleanWord?_suffixed hbody hs] at hclean
      split at hclean
      · exact (Option.some.inj hclean).symm
      · cases hclean
    have htail : tail = [] := by
      rw [← hold] at hword
      exact List.append_right_eq_self.mp hword
    have hmarked : ¬ ∀ c ∈ new, isPathChar c = true := by
      rw [← List.all_eq_true, h.kind, hold, List.all_append, List.all_cons, not_isPathChar hs]
      simp
    rw [htail, List.append_nil]
    refine ⟨?_, hwhole⟩
    cases hnew with
    | plain _ hall => exact absurd hall hmarked
    | suffixed hne' hbody' hs' hmore' => exact .suffixed hne' hbody' hs' hmore' hnext

/-! ## Texts of which nothing is blanked -/

/-- The markings of a sort of file with neither code nor comments, such as JSON. -/
structure Markings.Bare (m : Markings) : Prop where
  fences : m.fences = false
  inlineCode : m.inlineCode = false
  blockComment : m.blockComment = none
  lineComment : m.lineComment = none
  maskStrings : m.maskStrings = false

namespace Markings.Bare

variable {m : Markings} (h : m.Bare)

include h

theorem lineRanges_eq (stop : Nat) : ∀ (fuel : Nat) (prev : Option Char) (quote : Option (Char × Nat))
    (cs : List (Nat × Char)), lineRanges m stop fuel prev quote cs = []
  | 0, _, none, _ | 0, _, some _, _ | _ + 1, _, none, [] | _ + 1, _, some _, [] => rfl
  | fuel + 1, prev, some (q, openAt), (o, c) :: rest => by
    rw [lineRanges]
    split
    · exact lineRanges_eq stop fuel _ _ _
    · split
      · rw [h.maskStrings, if_neg (by simp), List.nil_append]
        exact lineRanges_eq stop fuel _ _ _
      · exact lineRanges_eq stop fuel _ _ _
  | fuel + 1, prev, none, (o, c) :: rest => by
    rw [lineRanges, h.inlineCode, h.lineComment]
    dsimp only
    rw [if_neg (by simp), if_neg (by simp), if_neg (by simp)]
    split
    · exact lineRanges_eq stop fuel _ _ _
    · exact lineRanges_eq stop fuel _ _ _

theorem linesRanges_eq : ∀ (off : Nat) (fence : Option Char) (lines : List (List Char)), linesRanges m off fence lines = []
  | _, none, [] | _, some _, [] => rfl
  | off, fence, line :: rest => by
    unfold linesRanges
    rw [rangesOfLine, h.lineRanges_eq, h.fences]
    exact linesRanges_eq _ none rest

theorem mask_eq (content : List Char) : mask m content = content := by
  have hranges : blankRanges m content = [] := by
    rw [blankRanges, h.blockComment, h.linesRanges_eq]
    rfl
  rw [Mention.mask_eq, hranges]
  have hkept : ∀ (cs : List Char) (off : Nat), blank [] off cs = cs := by
    intro cs
    induction cs with
    | nil => exact fun _ => rfl
    | cons c cs ih =>
      intro off
      rw [blank, ih]
      simp [covered]
  exact hkept content 0

end Markings.Bare

theorem bare_json : (Markings.ofExtension "json").Bare := ⟨by decide, by decide, by decide, by decide, by decide⟩

/-! ## Word by word -/

theorem words_fuel : ∀ {fuel fuel' off : Nat} {cs : List Char}, cs.length < fuel → cs.length < fuel' →
    words fuel off cs = words fuel' off cs
  | 0, _, _, _, h, _ => absurd h (Nat.not_lt_zero _)
  | _, 0, _, _, _, h => absurd h (Nat.not_lt_zero _)
  | _ + 1, _ + 1, _, [], _, _ => rfl
  | fuel + 1, fuel' + 1, off, c :: cs, h, h' => by
    by_cases hc : isPathChar c = true
    · obtain ⟨word, rest, hcut, hmunch⟩ := exists_munch hc cs
      have hshort := hmunch.length_lt rest
      rw [← hcut] at hshort
      have hrest : rest.length < fuel := by omega
      have hrest' : rest.length < fuel' := by omega
      rw [hcut, words_append hmunch, words_append hmunch, words_fuel hrest hrest']
    · rw [words, words, if_neg hc, if_neg hc]
      exact words_fuel (Nat.lt_of_succ_lt_succ h) (Nat.lt_of_succ_lt_succ h')

/-- A text is read word by word. -/
theorem munch_induction {P : List Char → Prop} (nil : P [])
    (skip : ∀ c cs, ¬ isPathChar c = true → P cs → P (c :: cs))
    (word : ∀ word rest, Munch word rest.head? → P rest → P (word ++ rest)) : ∀ cs, P cs
  | [] => nil
  | c :: cs => by
    by_cases hc : isPathChar c = true
    · obtain ⟨first, rest, hcut, hmunch⟩ := exists_munch hc cs
      have hshort : rest.length < (c :: cs).length := hcut ▸ hmunch.length_lt rest
      have hrest : rest.length ≤ cs.length := Nat.le_of_lt_succ hshort
      rw [hcut]
      exact word first rest hmunch (munch_induction nil skip word rest)
    · exact skip c cs hc (munch_induction nil skip word cs)
  termination_by cs => cs.length

/-- The mentions of a text of which nothing is blanked, the text starting at an offset. -/
def mentions (off : Nat) (cs : List Char) : List Hit :=
  (words (cs.length + 1) off cs).filterMap fun (off, word) =>
    (cleanWord? word).map fun token => ⟨token, off, off + utf8Size token⟩

theorem mentions_cons {c : Char} (hc : ¬ isPathChar c = true) (off : Nat) (cs : List Char) :
    mentions off (c :: cs) = mentions (off + c.utf8Size) cs := by
  rw [mentions, words, if_neg hc]
  rfl

section

variable {word rest : List Char} (h : Munch word rest.head?) (off : Nat)

include h

theorem words_word : words ((word ++ rest).length + 1) off (word ++ rest) =
    (off, word) :: words (rest.length + 1) (off + utf8Size word) rest := by
  rw [words_append h, words_fuel (h.length_lt rest) (Nat.lt_succ_self rest.length)]

theorem mentions_of_none (hclean : cleanWord? word = none) :
    mentions off (word ++ rest) = mentions (off + utf8Size word) rest := by
  rw [mentions, words_word h, List.filterMap_cons]
  dsimp only
  rw [hclean]
  rfl

theorem mentions_of_some {token : List Char} (hclean : cleanWord? word = some token) :
    mentions off (word ++ rest) = ⟨token, off, off + utf8Size token⟩ :: mentions (off + utf8Size word) rest := by
  rw [mentions, words_word h, List.filterMap_cons]
  dsimp only
  rw [hclean]
  rfl

end

theorem le_lo_of_mem_mentions {off : Nat} {cs : List Char} {hit : Hit} (h : hit ∈ mentions off cs) : off ≤ hit.lo := by
  obtain ⟨⟨o, word⟩, hword, h⟩ := List.mem_filterMap.mp h
  obtain ⟨_, -, rfl⟩ := Option.map_eq_some_iff.mp h
  obtain ⟨_, _, -, rfl, -, -⟩ := words_spec hword
  exact Nat.le_add_right _ _

theorem Markings.Bare.hits_eq {extension : String} (h : (Markings.ofExtension extension).Bare) (content : List Char) :
    hits content extension = mentions 0 content := by
  rw [hits, h.mask_eq]
  rfl

end Refactor.Mention
