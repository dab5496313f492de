import Refactor.Reference.Mention
import Refactor.Proofs.Text.Encoding
import Refactor.Proofs.Text.Offsets

/-!
# Masked texts

Lines are read and blanked byte by byte. Every mark is a byte below 128, and all bytes of the other characters are larger, so
reading the characters of a line finds the same ranges, and their ends lie between characters. What is blanked are therefore
whole characters, and what is left is a text.

* `Mention.SameMarks` — bytes and characters with the same marks
* `Mention.FoundAlike`, `Mention.lineRanges_sameMarks` — they give the same ranges, one step and a whole line
* `Mention.rangesOfLine_eq` — the ranges of a line, character by character
* `Mention.EndsHold`, `Mention.ends_of_mem_lineRanges` — where the ranges of a line start and end, one step and a whole line
* `Mention.isBoundary_blankRanges` — every range starts and ends between characters
* `Mention.blank`, `Mention.mask_eq` — the masked text, character by character
* `Mention.mask_aligned` — what the mask keeps of a text
-/

namespace Refactor.Mention

open Text (utf8Size withOffsetsFrom IsBoundary)

/-! ## Bytes and characters -/

/-- Bytes as the characters that they stand for. A character from 128 on is several such characters, and nothing that is
looked for. -/
inductive SameMarks : List (Nat × Char) → List (Nat × Char) → Prop
  | nil : SameMarks [] []
  | mark {bs cs : List (Nat × Char)} (o : Nat) {c : Char} (hc : c.toNat < 128) (rest : SameMarks bs cs) :
      SameMarks ((o, c) :: bs) ((o, c) :: cs)
  | wide {bs cs tail : List (Nat × Char)} (o : Nat) {b c : Char} (hb : 128 ≤ b.toNat) (hc : 128 ≤ c.toNat)
      (htail : ∀ x ∈ tail, 128 ≤ x.2.toNat) (rest : SameMarks bs cs) : SameMarks ((o, b) :: (tail ++ bs)) ((o, c) :: cs)

theorem ne_of_wide {c d : Char} (hc : 128 ≤ c.toNat) (hd : d.toNat < 128) : (c == d) = false := by
  rw [beq_eq_false_iff_ne]
  rintro rfl
  omega

theorem bytesFrom_append : ∀ (off : Nat) (as bs : List UInt8),
    bytesFrom off (as ++ bs) = bytesFrom off as ++ bytesFrom (off + as.length) bs
  | off, [], bs => rfl
  | off, a :: as, bs => by
    rw [List.cons_append, bytesFrom, bytesFrom_append (off + 1) as bs, bytesFrom, List.length_cons, Nat.add_assoc,
      Nat.add_comm 1]
    rfl

theorem length_bytesFrom : ∀ (off : Nat) (bs : List UInt8), (bytesFrom off bs).length = bs.length
  | _, [] => rfl
  | off, b :: bs => by rw [bytesFrom, List.length_cons, length_bytesFrom (off + 1) bs, List.length_cons]

theorem toNat_ofUInt8 (b : UInt8) : (Char.ofUInt8 b).toNat = b.toNat := UInt8.toNat_toUInt32 b

theorem ofUInt8_ofNat {c : Char} (h : c.toNat < 128) : Char.ofUInt8 (UInt8.ofNat c.toNat) = c := by
  have hbyte : (UInt8.ofNat c.toNat).toNat = c.toNat := UInt8.toNat_ofNat_of_lt' (Nat.lt_trans h (by decide))
  exact Char.toNat_inj.mp ((toNat_ofUInt8 _).trans hbyte)

theorem wide_of_mem_bytesFrom {bs : List UInt8} (h : ∀ b ∈ bs, 128 ≤ b.toNat) : ∀ {off : Nat}, ∀ x ∈ bytesFrom off bs,
    128 ≤ x.2.toNat := by
  induction bs with
  | nil => simp [bytesFrom]
  | cons b bs ih =>
    intro off x hx
    rw [bytesFrom, List.mem_cons] at hx
    rcases hx with rfl | hx
    · rw [toNat_ofUInt8]
      exact h b List.mem_cons_self
    · exact ih (fun b hb => h b (List.mem_cons_of_mem _ hb)) x hx

theorem bytesOf_eq (cs : List Char) : bytesOf cs = cs.flatMap String.utf8EncodeChar := by
  rw [bytesOf, Bytes.toList_ofText, String.toList_ofList]

theorem bytesOf_nil : bytesOf [] = [] := by
  rw [bytesOf_eq, List.flatMap_nil]

theorem bytesOf_append (as bs : List Char) : bytesOf (as ++ bs) = bytesOf as ++ bytesOf bs := by
  rw [bytesOf_eq, bytesOf_eq, bytesOf_eq, List.flatMap_append]

theorem bytesOf_cons (c : Char) (cs : List Char) : bytesOf (c :: cs) = String.utf8EncodeChar c ++ bytesOf cs := by
  rw [bytesOf_eq, bytesOf_eq, List.flatMap_cons]

theorem length_bytesOf (cs : List Char) : (bytesOf cs).length = utf8Size cs := by
  induction cs with
  | nil => rw [bytesOf_nil]; rfl
  | cons c cs ih => rw [bytesOf_cons, List.length_append, String.length_utf8EncodeChar, ih, Text.utf8Size_cons]

theorem sameMarks_bytes : ∀ (off : Nat) (cs : List Char),
    SameMarks (bytesFrom off (bytesOf cs)) (withOffsetsFrom off cs)
  | off, [] => by
    rw [bytesOf_nil]
    exact .nil
  | off, c :: cs => by
    have hlength := String.length_utf8EncodeChar c
    have ih := sameMarks_bytes (off + c.utf8Size) cs
    rw [bytesOf_cons, bytesFrom_append, withOffsetsFrom, hlength]
    by_cases hc : c.toNat < 128
    · rw [Bytes.utf8EncodeChar_of_lt hc, bytesFrom, ofUInt8_ofNat hc]
      exact .mark off hc ih
    · have hwide : ∀ b ∈ String.utf8EncodeChar c, 128 ≤ b.toNat := fun b hb =>
        Bytes.le_of_mem_utf8EncodeChar (Nat.le_of_not_lt hc) hb
      obtain ⟨b, bs, hbs⟩ := List.exists_cons_of_length_pos (l := String.utf8EncodeChar c) (hlength ▸ c.utf8Size_pos)
      rw [hbs] at hwide ⊢
      refine .wide off ?_ (Nat.le_of_not_lt hc)
        (wide_of_mem_bytesFrom fun b hb => hwide b (List.mem_cons_of_mem _ hb)) ih
      rw [toNat_ofUInt8]
      exact hwide b List.mem_cons_self

/-! ## Marks on a line -/

section Marks

variable {bs cs : List (Nat × Char)}

theorem SameMarks.head?_offset (h : SameMarks bs cs) : bs.head?.map (·.1) = cs.head?.map (·.1) := by
  cases h <;> rfl

theorem SameMarks.head?_is (h : SameMarks bs cs) {d : Char} (hd : d.toNat < 128) :
    bs.head?.any (·.2 == d) = cs.head?.any (·.2 == d) := by
  cases h with
  | nil => rfl
  | mark => rfl
  | wide o hb hc =>
    simp [ne_of_wide hb hd, ne_of_wide hc hd]

theorem SameMarks.tickRun (h : SameMarks bs cs) : tickRun bs = tickRun cs := by
  unfold Mention.tickRun
  induction h with
  | nil => rfl
  | mark o hc rest ih =>
    rw [List.takeWhile_cons, List.takeWhile_cons]
    split
    · rw [List.length_cons, List.length_cons, ih]
    · rfl
  | wide o hb hc htail rest ih =>
    rw [List.takeWhile_cons_of_neg (by simp [ne_of_wide hb (d := '\x60') (by decide)]),
      List.takeWhile_cons_of_neg (by simp [ne_of_wide hc (d := '\x60') (by decide)])]

theorem SameMarks.drop (h : SameMarks bs cs) : ∀ {n : Nat}, n ≤ Mention.tickRun cs → SameMarks (bs.drop n) (cs.drop n) := by
  induction h with
  | nil =>
    intro n _
    rw [List.drop_nil]
    exact .nil
  | mark o hc rest ih =>
    intro n hn
    cases n with
    | zero => exact .mark o hc rest
    | succ n =>
      refine ih ?_
      rw [Mention.tickRun, List.takeWhile_cons] at hn
      split at hn
      · exact Nat.le_of_succ_le_succ hn
      · simp at hn
  | wide o hb hc htail rest ih =>
    intro n hn
    rw [Mention.tickRun, List.takeWhile_cons_of_neg (by simp [ne_of_wide hc (d := '\x60') (by decide)])] at hn
    obtain rfl := Nat.le_zero.mp hn
    exact .wide o hb hc htail rest

/-- A run of backticks that starts here, and what is behind it. -/
theorem SameMarks.afterRun {o : Nat} (h : SameMarks bs cs) :
    Mention.tickRun ((o, '\x60') :: bs) = Mention.tickRun ((o, '\x60') :: cs) ∧
      SameMarks (bs.drop (Mention.tickRun ((o, '\x60') :: cs) - 1)) (cs.drop (Mention.tickRun ((o, '\x60') :: cs) - 1)) := by
  have hboth : SameMarks ((o, '\x60') :: bs) ((o, '\x60') :: cs) := .mark o (by decide) h
  refine ⟨hboth.tickRun, h.drop ?_⟩
  rw [Mention.tickRun, List.takeWhile_cons_of_pos rfl, List.length_cons, Nat.add_sub_cancel]
  exact Nat.le_refl _

/-! ### The closing run -/

theorem afterTicks?_wide {run : Nat} : ∀ {tail : List (Nat × Char)} {fuel : Nat} (rest : List (Nat × Char)),
    (∀ x ∈ tail, 128 ≤ x.2.toNat) → tail.length ≤ fuel →
      afterTicks? run fuel (tail ++ rest) = afterTicks? run (fuel - tail.length) rest
  | [], fuel, rest, _, _ => rfl
  | (o, c) :: tail, 0, rest, _, hfuel => by cases hfuel
  | (o, c) :: tail, fuel + 1, rest, h, hfuel => by
    have hc : 128 ≤ c.toNat := h (o, c) List.mem_cons_self
    rw [List.cons_append, afterTicks?, ne_of_wide hc (by decide), ne_of_wide hc (by decide), if_neg (by decide),
      if_neg (by decide), afterTicks?_wide rest (fun x hx => h x (List.mem_cons_of_mem _ hx)) (Nat.le_of_succ_le_succ hfuel),
      List.length_cons, Nat.add_sub_add_right]

/-- The closing run is found, or not, in the bytes as in the characters. -/
theorem SameMarks.afterTicks? {run : Nat} : ∀ {fuel fuel' : Nat} {bs cs : List (Nat × Char)}, SameMarks bs cs →
    bs.length < fuel' → cs.length < fuel →
      Option.Rel SameMarks (Mention.afterTicks? run fuel' bs) (Mention.afterTicks? run fuel cs)
  | 0, _, _, _, _, _, hfuel => by omega
  | fuel + 1, 0, _, _, _, hfuel', _ => by omega
  | fuel + 1, fuel' + 1, _, _, .nil, _, _ => .none
  | fuel + 1, fuel' + 1, _, _, @SameMarks.mark bs cs o c hc rest, hfuel', hfuel => by
    rw [List.length_cons] at hfuel hfuel'
    rw [Mention.afterTicks?, Mention.afterTicks?]
    split
    · exact .none
    · split
      · rename_i htick
        obtain rfl := beq_iff_eq.mp htick
        obtain ⟨hrun, hafter⟩ := rest.afterRun (o := o)
        dsimp only
        rw [hrun]
        split
        · exact .some hafter
        · refine hafter.afterTicks? ?_ ?_ <;>
          · rw [List.length_drop]
            omega
      · exact rest.afterTicks? (by omega) (by omega)
  | fuel + 1, fuel' + 1, _, _, @SameMarks.wide bs cs tail o b c hb hc htail rest, hfuel', hfuel => by
    rw [List.length_cons, List.length_append] at hfuel'
    rw [List.length_cons] at hfuel
    rw [Mention.afterTicks?, ne_of_wide hb (by decide), ne_of_wide hb (by decide), if_neg (by decide), if_neg (by decide),
      Mention.afterTicks?, ne_of_wide hc (by decide), ne_of_wide hc (by decide), if_neg (by decide), if_neg (by decide),
      afterTicks?_wide bs htail (by omega)]
    exact rest.afterTicks? (by omega) (by omega)

/-! ### The ranges of a line -/

variable {m : Markings} {stop : Nat}

theorem lineRanges_nil : ∀ (fuel : Nat) (prev : Option Char) (quote : Option (Char × Nat)),
    lineRanges m stop fuel prev quote [] = []
  | 0, _, _ => rfl
  | _ + 1, _, some _ => rfl
  | _ + 1, _, none => rfl

/-- A character from 128 on is passed over. -/
theorem lineRanges_pass {fuel o : Nat} {prev : Option Char} {quote : Option (Char × Nat)} {c : Char}
    {rest : List (Nat × Char)} (hc : 128 ≤ c.toNat) (hquote : ∀ q ∈ quote, q.1.toNat < 128) :
    lineRanges m stop (fuel + 1) prev quote ((o, c) :: rest) = lineRanges m stop fuel (some c) quote rest := by
  have hmark : ∀ {d : Char}, d.toNat < 128 → (c == d) = false := ne_of_wide hc
  cases quote with
  | none =>
    rw [lineRanges]
    simp only [hmark (d := '\x60') (by decide), hmark (d := '#') (by decide), hmark (d := '/') (by decide),
      hmark (d := '"') (by decide), hmark (d := '\'') (by decide), Bool.and_false, Bool.false_and, Bool.or_false,
      Bool.false_eq_true, if_false]
  | some q =>
    obtain ⟨q, openAt⟩ := q
    rw [lineRanges, hmark (by decide), hmark (hquote _ rfl), if_neg (by decide), if_neg (by decide)]

variable (m stop) in
theorem lineRanges_wide {quote : Option (Char × Nat)} (hquote : ∀ q ∈ quote, q.1.toNat < 128) (rest : List (Nat × Char)) :
    ∀ {tail : List (Nat × Char)} (fuel : Nat) (prev : Option Char),
      (∀ x ∈ tail, 128 ≤ x.2.toNat) → tail.length ≤ fuel → (∀ c ∈ prev, 128 ≤ c.toNat) →
        ∃ prev', (∀ c ∈ prev', 128 ≤ c.toNat) ∧ (prev.isSome → prev'.isSome) ∧
          lineRanges m stop fuel prev quote (tail ++ rest) = lineRanges m stop (fuel - tail.length) prev' quote rest
  | [], fuel, prev, _, _, hprev => ⟨prev, hprev, id, rfl⟩
  | (o, c) :: tail, 0, prev, _, hfuel, _ => by cases hfuel
  | (o, c) :: tail, fuel + 1, prev, h, hfuel, _ => by
    have hc : 128 ≤ c.toNat := h (o, c) List.mem_cons_self
    obtain ⟨prev', hprev', hsome, heq⟩ := lineRanges_wide hquote rest fuel (some c)
      (fun x hx => h x (List.mem_cons_of_mem _ hx)) (Nat.le_of_succ_le_succ hfuel) (by simpa using hc)
    refine ⟨prev', hprev', fun _ => hsome rfl, ?_⟩
    rw [List.cons_append, lineRanges_pass hc hquote, heq, List.length_cons, Nat.add_sub_add_right]

/-- While a quote is open, the character before does not matter. -/
theorem lineRanges_quote_prev (fuel : Nat) (prev prev' : Option Char) (q : Char × Nat) (cs : List (Nat × Char)) :
    lineRanges m stop fuel prev (some q) cs = lineRanges m stop fuel prev' (some q) cs := by
  cases fuel with
  | zero => rfl
  | succ fuel =>
    cases cs with
    | nil => rfl
    | cons x cs => rw [lineRanges, lineRanges]

theorem suffix_of_afterTicks? {run : Nat} : ∀ {fuel : Nat} {cs closed : List (Nat × Char)},
    Mention.afterTicks? run fuel cs = some closed → closed <:+ cs
  | 0, _, _, h => by cases h
  | _ + 1, [], _, h => by cases h
  | fuel + 1, (o, c) :: rest, closed, h => by
    rw [Mention.afterTicks?] at h
    split at h
    · cases h
    · split at h
      · dsimp only at h
        split at h
        · cases h
          exact (List.drop_suffix _ _).trans (List.suffix_cons _ _)
        · exact ((suffix_of_afterTicks? h).trans (List.drop_suffix _ _)).trans (List.suffix_cons _ _)
      · exact (suffix_of_afterTicks? h).trans (List.suffix_cons _ _)

/-- The closing run is found in both, with the same behind it, or in neither. -/
theorem SameMarks.closing (h : SameMarks bs cs) (run : Nat) :
    (Mention.afterTicks? run (bs.length + 1) bs = none ∧ Mention.afterTicks? run (cs.length + 1) cs = none) ∨
      ∃ closed closed', Mention.afterTicks? run (bs.length + 1) bs = some closed ∧
        Mention.afterTicks? run (cs.length + 1) cs = some closed' ∧ SameMarks closed closed' ∧
          closed.length ≤ bs.length ∧ closed'.length ≤ cs.length := by
  have hclosed : Option.Rel SameMarks (Mention.afterTicks? run (bs.length + 1) bs)
      (Mention.afterTicks? run (cs.length + 1) cs) := h.afterTicks? (Nat.lt_succ_self _) (Nat.lt_succ_self _)
  generalize hbytes : Mention.afterTicks? run (bs.length + 1) bs = found at hclosed ⊢
  generalize hchars : Mention.afterTicks? run (cs.length + 1) cs = found' at hclosed ⊢
  cases hclosed with
  | none => exact Or.inl ⟨rfl, rfl⟩
  | some hsame =>
    exact Or.inr ⟨_, _, rfl, rfl, hsame, (suffix_of_afterTicks? hbytes).length_le, (suffix_of_afterTicks? hchars).length_le⟩

/-- Two characters that what follows does not tell apart. -/
def Alike (p q : Option Char) : Prop := p = q ∨ ((∃ b ∈ p, 128 ≤ b.toNat) ∧ ∃ c ∈ q, 128 ≤ c.toNat)

theorem isAsciiBlank_of_wide {c : Char} (hc : 128 ≤ c.toNat) : Text.isAsciiBlank c = false := by
  simp only [Text.isAsciiBlank, ne_of_wide hc (d := ' ') (by decide), ne_of_wide hc (d := '\t') (by decide),
    ne_of_wide hc (d := '\n') (by decide), ne_of_wide hc (d := '\r') (by decide), ne_of_wide hc (d := '\x0c') (by decide),
    Bool.or_self]

theorem opensAfter_of_wide {c : Char} (hc : 128 ≤ c.toNat) : opensAfter (some c) = false := by
  simp only [opensAfter, ne_of_wide hc (d := ' ') (by decide), ne_of_wide hc (d := '\t') (by decide),
    ne_of_wide hc (d := ':') (by decide), ne_of_wide hc (d := '=') (by decide), ne_of_wide hc (d := '[') (by decide),
    ne_of_wide hc (d := ',') (by decide), Bool.or_self]

theorem Alike.all_blank {p q : Option Char} (h : Alike p q) : p.all Text.isAsciiBlank = q.all Text.isAsciiBlank := by
  rcases h with rfl | ⟨⟨b, rfl, hb⟩, c, rfl, hc⟩
  · rfl
  · rw [Option.all_some, Option.all_some, isAsciiBlank_of_wide hb, isAsciiBlank_of_wide hc]

theorem Alike.opensAfter {p q : Option Char} (h : Alike p q) : opensAfter p = opensAfter q := by
  rcases h with rfl | ⟨⟨b, rfl, hb⟩, c, rfl, hc⟩
  · rfl
  · rw [opensAfter_of_wide hb, opensAfter_of_wide hc]

variable (m stop) in
/-- With this fuel for the characters, the same ranges are found in the bytes as in the characters. Inside of a quote the
characters before are of no interest. -/
def FoundAlike (fuel : Nat) : Prop :=
  ∀ {fuel' : Nat} {bs cs : List (Nat × Char)} {prev prev' : Option Char} {quote : Option (Char × Nat)},
    SameMarks bs cs → bs.length < fuel' → cs.length < fuel → (∀ q ∈ quote, q.1.toNat < 128) →
      (quote = none → Alike prev' prev) → lineRanges m stop fuel' prev' quote bs = lineRanges m stop fuel prev quote cs

section Step

variable {fuel fuel' o : Nat} {prev prev' : Option Char} {b c : Char}

/-- A character from 128 on, and its bytes. -/
theorem FoundAlike.wide (ih : FoundAlike m stop fuel) {tail : List (Nat × Char)} {quote : Option (Char × Nat)}
    (hb : 128 ≤ b.toNat) (hc : 128 ≤ c.toNat) (htail : ∀ x ∈ tail, 128 ≤ x.2.toNat) (rest : SameMarks bs cs)
    (hfuel' : tail.length + bs.length < fuel') (hfuel : cs.length < fuel) (hquote : ∀ q ∈ quote, q.1.toNat < 128) :
    lineRanges m stop (fuel' + 1) prev' quote ((o, b) :: (tail ++ bs)) =
      lineRanges m stop (fuel + 1) prev quote ((o, c) :: cs) := by
  obtain ⟨last, hlast, hsome, heq⟩ := lineRanges_wide m stop hquote bs fuel' (some b) htail (by omega) (by simpa using hb)
  rw [lineRanges_pass hb hquote, lineRanges_pass hc hquote, heq]
  obtain ⟨d, rfl⟩ := Option.isSome_iff_exists.mp (hsome rfl)
  exact ih rest (by omega) hfuel hquote fun _ => Or.inr ⟨⟨d, rfl, hlast d rfl⟩, c, rfl, hc⟩

/-- Behind a backslash in a quote: the next character is left out, of the bytes only its first one. -/
theorem FoundAlike.escaped (ih : FoundAlike m stop fuel) {q : Char × Nat} (hquote : q.1.toNat < 128) (rest : SameMarks bs cs)
    (hfuel' : bs.length < fuel') (hfuel : cs.length < fuel) :
    lineRanges m stop fuel' (some c) (some q) (bs.drop 1) = lineRanges m stop fuel (some c) (some q) (cs.drop 1) := by
  cases rest with
  | nil => rw [List.drop_nil, lineRanges_nil, lineRanges_nil]
  | mark o' hc' rest =>
    rw [List.length_cons] at hfuel hfuel'
    rw [List.drop_one, List.tail_cons, List.drop_one, List.tail_cons]
    exact ih rest (by omega) (by omega) (by simpa using hquote) (by simp)
  | wide o' hb' hc' htail' rest =>
    rename_i bs cs tail b' c'
    rw [List.length_cons, List.length_append] at hfuel'
    rw [List.length_cons] at hfuel
    have hquotes : ∀ q' ∈ some q, q'.1.toNat < 128 := by simpa using hquote
    obtain ⟨last, -, -, heq⟩ := lineRanges_wide m stop hquotes bs fuel' none htail' (by omega) (by simp)
    rw [List.drop_one, List.tail_cons, List.drop_one, List.tail_cons, lineRanges_quote_prev _ _ none, heq]
    exact ih rest (by omega) (by omega) hquotes (by simp)

/-- A mark inside of a quote. -/
theorem FoundAlike.quoted (ih : FoundAlike m stop fuel) {q : Char} {openAt : Nat} (hquote : q.toNat < 128)
    (rest : SameMarks bs cs) (hfuel' : bs.length < fuel') (hfuel : cs.length < fuel) :
    lineRanges m stop (fuel' + 1) prev' (some (q, openAt)) ((o, c) :: bs) =
      lineRanges m stop (fuel + 1) prev (some (q, openAt)) ((o, c) :: cs) := by
  rw [lineRanges, lineRanges]
  split
  · exact ih.escaped hquote rest hfuel' hfuel
  · split
    · exact congrArg _ (ih rest hfuel' hfuel (by simp) fun _ => Or.inl rfl)
    · exact ih rest hfuel' hfuel (by simpa using hquote) (by simp)

/-- A mark outside of quotes. -/
theorem FoundAlike.outside (ih : FoundAlike m stop fuel) (hc : c.toNat < 128) (rest : SameMarks bs cs)
    (hfuel' : bs.length < fuel') (hfuel : cs.length < fuel) (hprev : Alike prev' prev) :
    lineRanges m stop (fuel' + 1) prev' none ((o, c) :: bs) = lineRanges m stop (fuel + 1) prev none ((o, c) :: cs) := by
  have hnext : lineRanges m stop fuel' (some c) none bs = lineRanges m stop fuel (some c) none cs :=
    ih rest hfuel' hfuel (by simp) fun _ => Or.inl rfl
  have hopened : lineRanges m stop fuel' (some c) (some (c, o)) bs = lineRanges m stop fuel (some c) (some (c, o)) cs :=
    ih rest hfuel' hfuel (by simpa using hc) (by simp)
  rw [lineRanges, lineRanges]
  split
  · rename_i htick
    obtain rfl : c = '\x60' := by simpa using (Bool.and_eq_true_iff.mp htick).2
    obtain ⟨hrun, hafter⟩ := rest.afterRun (o := o)
    dsimp only
    rw [hrun]
    generalize Mention.tickRun ((o, '\x60') :: cs) = n at hafter ⊢
    have hlength := List.length_drop (i := n - 1) (l := bs)
    have hlength' := List.length_drop (i := n - 1) (l := cs)
    rcases hafter.closing n with ⟨hbytes, hchars⟩ | ⟨closed, closed', hbytes, hchars, hsame, hshort, hshort'⟩
    · rw [hbytes, hchars]
      exact ih hafter (by omega) (by omega) (by simp) fun _ => Or.inl rfl
    · rw [hbytes, hchars]
      dsimp only
      rw [hsame.head?_offset]
      exact congrArg _ (ih hsame (by omega) (by omega) (by simp) fun _ => Or.inl rfl)
  · dsimp only
    rw [hprev.all_blank, hprev.opensAfter, rest.head?_is (by decide), hnext, hopened]

end Step

/-- In the bytes and in the characters of a line the same ranges are found. -/
theorem lineRanges_sameMarks (fuel : Nat) : FoundAlike m stop fuel := by
  induction fuel with
  | zero =>
    intro _ _ _ _ _ _ _ _ hfuel _ _
    omega
  | succ fuel ih =>
    intro fuel' bs cs prev prev' quote hsame hfuel' hfuel hquote hprev
    obtain ⟨fuel', rfl⟩ := Nat.exists_eq_add_of_lt hfuel'
    cases hsame with
    | nil => rw [lineRanges_nil, lineRanges_nil]
    | wide o hb hc htail rest =>
      simp only [List.length_cons, List.length_append] at hfuel hfuel' ⊢
      exact ih.wide hb hc htail rest (by omega) (by omega) hquote
    | mark o hc rest =>
      simp only [List.length_cons] at hfuel hfuel' ⊢
      cases quote with
      | none => exact ih.outside hc rest (by omega) (by omega) (hprev rfl)
      | some q => exact ih.quoted (hquote q rfl) rest (by omega) (by omega)

end Marks

theorem length_withOffsetsFrom : ∀ (off : Nat) (cs : List Char), (withOffsetsFrom off cs).length = cs.length
  | _, [] => rfl
  | off, c :: cs => by rw [withOffsetsFrom, List.length_cons, length_withOffsetsFrom (off + c.utf8Size) cs, List.length_cons]

/-- The ranges of a line as its characters give them. -/
theorem rangesOfLine_eq (m : Markings) (off : Nat) (line : List Char) :
    rangesOfLine m off line = lineRanges m (off + utf8Size line) (line.length + 1) none none (withOffsetsFrom off line) := by
  unfold rangesOfLine
  dsimp only
  rw [length_bytesFrom, length_bytesOf]
  refine lineRanges_sameMarks (line.length + 1) (sameMarks_bytes off line) ?_ ?_ (by simp) fun _ => Or.inl rfl
  · rw [length_bytesFrom, length_bytesOf]
    exact Nat.lt_succ_self _
  · rw [length_withOffsetsFrom]
    exact Nat.lt_succ_self _

/-! ## The ends of ranges -/

/-- A property of offsets holds where characters start, and behind those of a single byte. -/
def HoldsAt (P : Nat → Prop) (cs : List (Nat × Char)) : Prop :=
  ∀ x ∈ cs, P x.1 ∧ (x.2.toNat < 128 → P (x.1 + 1))

/-- With this fuel, ranges start and end where the property holds. -/
def EndsHold (P : Nat → Prop) (m : Markings) (stop fuel : Nat) : Prop :=
  ∀ {prev : Option Char} {quote : Option (Char × Nat)} {cs : List (Nat × Char)} {range : ByteRange}, HoldsAt P cs →
    (∀ q ∈ quote, q.1.toNat < 128 ∧ P q.2) → range ∈ lineRanges m stop fuel prev quote cs → P range.1 ∧ P range.2

section EndsOfLine

variable {P : Nat → Prop} {m : Markings} {stop fuel o : Nat} {c : Char} {cs rest : List (Nat × Char)} {range : ByteRange}

theorem HoldsAt.of_suffix (h : HoldsAt P cs) (hsuffix : rest <:+ cs) : HoldsAt P rest :=
  fun x hx => h x (hsuffix.subset hx)

/-- Inside of a quote, which started where the property holds. -/
theorem EndsHold.quoted (ih : EndsHold P m stop fuel) {prev : Option Char} {q : Char} {openAt : Nat} (hq : q.toNat < 128)
    (hopen : P openAt) (hcs : HoldsAt P ((o, c) :: rest))
    (h : range ∈ lineRanges m stop (fuel + 1) prev (some (q, openAt)) ((o, c) :: rest)) : P range.1 ∧ P range.2 := by
  have hrest : HoldsAt P rest := hcs.of_suffix (List.suffix_cons _ _)
  have hquote : ∀ q' ∈ some (q, openAt), q'.1.toNat < 128 ∧ P q'.2 := by
    rintro q' ⟨⟩
    exact ⟨hq, hopen⟩
  rw [lineRanges] at h
  split at h
  · exact ih (hrest.of_suffix (List.drop_suffix _ _)) hquote h
  · split at h
    · rename_i hclose
      rcases List.mem_append.mp h with h | h
      · split at h
        · rw [List.mem_singleton] at h
          rw [h]
          exact ⟨hopen, (hcs (o, c) List.mem_cons_self).2 (beq_iff_eq.mp hclose ▸ hq)⟩
        · cases h
      · exact ih hrest (by simp) h
    · exact ih hrest hquote h

/-- Code between backticks ends where the rest of the line starts, or with the line. -/
theorem EndsHold.code (ih : EndsHold P m stop fuel) (hstop : P stop) (hhere : P o) {prev : Option Char}
    (hcs : HoldsAt P cs) (h : range ∈ (o, (cs.head?.map (·.1)).getD stop) :: lineRanges m stop fuel prev none cs) :
    P range.1 ∧ P range.2 := by
  rcases List.mem_cons.mp h with rfl | h
  · refine ⟨hhere, ?_⟩
    cases cs with
    | nil => exact hstop
    | cons x cs => exact (hcs x List.mem_cons_self).1
  · exact ih hcs (by simp) h

/-- Outside of quotes. -/
theorem EndsHold.outside (ih : EndsHold P m stop fuel) (hstop : P stop) {prev : Option Char} (hcs : HoldsAt P ((o, c) :: rest))
    (h : range ∈ lineRanges m stop (fuel + 1) prev none ((o, c) :: rest)) : P range.1 ∧ P range.2 := by
  have hrest : HoldsAt P rest := hcs.of_suffix (List.suffix_cons _ _)
  have hhere : P o := (hcs (o, c) List.mem_cons_self).1
  have hcomment : range ∈ [(o, stop)] → P range.1 ∧ P range.2 := by
    rw [List.mem_singleton]
    rintro rfl
    exact ⟨hhere, hstop⟩
  rw [lineRanges] at h
  split at h
  · dsimp only at h
    split at h
    · rename_i closed hclosed
      exact ih.code hstop hhere (hrest.of_suffix ((suffix_of_afterTicks? hclosed).trans (List.drop_suffix _ _))) h
    · exact ih (hrest.of_suffix (List.drop_suffix _ _)) (by simp) h
  · dsimp only at h
    split at h
    · exact hcomment h
    · split at h
      · exact hcomment h
      · split at h
        · rename_i hopens
          have hc : c.toNat < 128 := by
            rcases Bool.or_eq_true_iff.mp hopens with hc | hc
            · rw [beq_iff_eq.mp hc]
              decide
            · rw [beq_iff_eq.mp (Bool.and_eq_true_iff.mp (Bool.and_eq_true_iff.mp hc).1).2]
              decide
          refine ih hrest ?_ h
          rintro q ⟨⟩
          exact ⟨hc, hhere⟩
        · exact ih hrest (by simp) h

/-- The ranges of a line end at its end, at characters, and behind single bytes. -/
theorem ends_of_mem_lineRanges (hstop : P stop) (fuel : Nat) : EndsHold P m stop fuel := by
  induction fuel with
  | zero =>
    intro _ _ _ _ _ _ h
    cases h
  | succ fuel ih =>
    intro prev quote cs range hcs hquote h
    cases cs with
    | nil =>
      rw [lineRanges_nil] at h
      cases h
    | cons x rest =>
      cases quote with
      | none => exact ih.outside hstop hcs h
      | some q => exact ih.quoted (hquote q rfl).1 (hquote q rfl).2 hcs h

end EndsOfLine

theorem utf8Size_of_lt {c : Char} (h : c.toNat < 128) : c.utf8Size = 1 := by
  rw [← String.length_utf8EncodeChar, Bytes.utf8EncodeChar_of_lt h]
  rfl

/-- Characters of a part of a text start at boundaries of the text. -/
theorem isBoundary_of_mem_withOffsetsFrom {content : List Char} : ∀ {cs front back : List Char},
    content = front ++ (cs ++ back) → ∀ x ∈ withOffsetsFrom (utf8Size front) cs,
      IsBoundary content x.1 ∧ (x.2.toNat < 128 → IsBoundary content (x.1 + 1))
  | [], _, _, _ => by simp [withOffsetsFrom]
  | c :: cs, front, back, h => by
    intro x hx
    have hnext : utf8Size front + c.utf8Size = utf8Size (front ++ [c]) := by
      rw [Text.utf8Size_append, Text.utf8Size_cons, Text.utf8Size_nil, Nat.add_zero]
    rw [withOffsetsFrom, List.mem_cons] at hx
    rcases hx with rfl | hx
    · refine ⟨⟨front, c :: cs ++ back, h, rfl⟩, fun hc => ⟨front ++ [c], cs ++ back, ?_, ?_⟩⟩
      · rw [h, List.append_assoc]
        rfl
      · rw [← hnext, utf8Size_of_lt hc]
    · have hrest : content = front ++ [c] ++ (cs ++ back) := by
        rw [h, List.append_assoc]
        rfl
      rw [hnext] at hx
      exact isBoundary_of_mem_withOffsetsFrom hrest x hx

section Ends

variable {m : Markings} {content : List Char} {range : ByteRange}

theorem isBoundary_linesRanges : ∀ {lines : List (List Char)} {front : List Char} {fence : Option Char},
    content = front ++ lines.flatten → range ∈ linesRanges m (utf8Size front) fence lines →
      IsBoundary content range.1 ∧ IsBoundary content range.2
  | [], _, _, _, h => by cases h
  | line :: rest, front, fence, hcontent, h => by
    rw [List.flatten_cons] at hcontent
    have hstart : IsBoundary content (utf8Size front) := ⟨front, line ++ rest.flatten, hcontent, rfl⟩
    have hstop : IsBoundary content (utf8Size front + utf8Size line) :=
      ⟨front ++ line, rest.flatten, by rw [hcontent, List.append_assoc], Text.utf8Size_append _ _⟩
    have hlater : ∀ {fence : Option Char}, range ∈ linesRanges m (utf8Size front + utf8Size line) fence rest →
        IsBoundary content range.1 ∧ IsBoundary content range.2 := by
      intro fence h
      rw [← Text.utf8Size_append] at h
      exact isBoundary_linesRanges (by rw [hcontent, List.append_assoc]) h
    have hline : range ∈ rangesOfLine m (utf8Size front) line → IsBoundary content range.1 ∧ IsBoundary content range.2 := by
      intro h
      rw [rangesOfLine_eq] at h
      exact ends_of_mem_lineRanges hstop _ (isBoundary_of_mem_withOffsetsFrom hcontent) (by simp) h
    have hwhole : ∀ {fence : Option Char}, range ∈ (utf8Size front, utf8Size front + utf8Size line) ::
        linesRanges m (utf8Size front + utf8Size line) fence rest → IsBoundary content range.1 ∧ IsBoundary content range.2 := by
      intro fence h
      rcases List.mem_cons.mp h with rfl | h
      · exact ⟨hstart, hstop⟩
      · exact hlater h
    rw [linesRanges.eq_def] at h
    dsimp only at h
    split at h
    · exact (List.mem_append.mp h).elim hline hlater
    · split at h
      · exact hwhole h
      · exact hwhole h
      · exact hwhole h
      · exact (List.mem_append.mp h).elim hline hlater

theorem isBoundary_blockComments {opening closing : List Char} : ∀ {fuel : Nat} {front cs : List Char},
    content = front ++ cs → range ∈ blockComments opening closing fuel (utf8Size front) cs →
      IsBoundary content range.1 ∧ IsBoundary content range.2
  | 0, _, _, _, h => by cases h
  | fuel + 1, front, cs, hcontent, h => by
    rw [blockComments] at h
    cases hopen : Text.splitOnce? opening cs with
    | none =>
      rw [hopen] at h
      cases h
    | some cut =>
      obtain ⟨lead, inner⟩ := cut
      obtain ⟨rfl, -⟩ := Text.splitOnce?_eq_some hopen
      have hstart : IsBoundary content (utf8Size front + utf8Size lead) :=
        ⟨front ++ lead, opening ++ inner, by rw [hcontent]; simp, Text.utf8Size_append _ _⟩
      rw [hopen] at h
      dsimp only at h
      cases hclose : Text.splitOnce? closing inner with
      | none =>
        rw [hclose] at h
        rw [List.mem_singleton] at h
        rw [h]
        refine ⟨hstart, content, [], by simp, ?_⟩
        rw [hcontent]
        simp only [Text.utf8Size_append]
        omega
      | some cut =>
        obtain ⟨body, rest⟩ := cut
        obtain ⟨rfl, -⟩ := Text.splitOnce?_eq_some hclose
        rw [hclose] at h
        have hstop : utf8Size front + utf8Size lead + utf8Size opening + utf8Size body + utf8Size closing =
            utf8Size (front ++ lead ++ opening ++ body ++ closing) := by
          simp only [Text.utf8Size_append]
        dsimp only at h
        rw [hstop] at h
        rcases List.mem_cons.mp h with rfl | h
        · exact ⟨hstart, _, rest, by rw [hcontent]; simp, rfl⟩
        · exact isBoundary_blockComments (by rw [hcontent]; simp) h

theorem isBoundary_blankRanges (h : range ∈ blankRanges m content) : IsBoundary content range.1 ∧ IsBoundary content range.2 := by
  have hcontent : content = [] ++ content := rfl
  have hlines : content = [] ++ (Text.inclusiveLines content).flatten := (Text.flatten_inclusiveLines content).symm
  rcases List.mem_append.mp h with h | h
  · cases hblock : m.blockComment with
    | none =>
      rw [hblock] at h
      cases h
    | some marks =>
      rw [hblock] at h
      exact isBoundary_blockComments hcontent h
  · exact isBoundary_linesRanges hlines h

end Ends

/-! ## Blanks -/

/-- A text with the characters in ranges replaced by as many blanks as they have bytes; newlines stay. -/
def blank (ranges : List ByteRange) : Nat → List Char → List Char
  | _, [] => []
  | off, c :: cs =>
    (if c != '\n' && covered ranges off then List.replicate c.utf8Size ' ' else [c]) ++ blank ranges (off + c.utf8Size) cs

section Blanks

variable {ranges : List ByteRange}

theorem getElem?_blankBytes : ∀ (off : Nat) (bs : List UInt8) (i : Nat), (blankBytes ranges off bs)[i]? =
    bs[i]?.map fun b => if b != 10 && covered ranges (off + i) then 32 else b
  | _, [], _ => rfl
  | off, b :: bs, 0 => rfl
  | off, b :: bs, i + 1 => by
    rw [blankBytes, List.getElem?_cons_succ, getElem?_blankBytes (off + 1) bs i, List.getElem?_cons_succ, Nat.add_assoc,
      Nat.add_comm 1]

theorem length_blankBytes : ∀ (off : Nat) (bs : List UInt8), (blankBytes ranges off bs).length = bs.length
  | _, [] => rfl
  | off, b :: bs => by rw [blankBytes, List.length_cons, length_blankBytes (off + 1) bs, List.length_cons]

theorem blankBytes_append : ∀ (off : Nat) (as bs : List UInt8),
    blankBytes ranges off (as ++ bs) = blankBytes ranges off as ++ blankBytes ranges (off + as.length) bs
  | off, [], bs => rfl
  | off, a :: as, bs => by
    rw [List.cons_append, blankBytes, blankBytes_append (off + 1) as bs, blankBytes, List.length_cons, Nat.add_assoc,
      Nat.add_comm 1]
    rfl

/-- Bytes that lie in the ranges together, or outside of them together. -/
theorem blankBytes_of_together {v : Bool} : ∀ {bs : List UInt8} {off : Nat}, (∀ b ∈ bs, b ≠ 10) →
    (∀ i < bs.length, covered ranges (off + i) = v) → blankBytes ranges off bs = if v then List.replicate bs.length 32 else bs
  | [], off, _, _ => by
    split <;> rfl
  | b :: bs, off, hline, htogether => by
    have hb : (b != 10) = true := bne_iff_ne.mpr (hline b List.mem_cons_self)
    have hrest : blankBytes ranges (off + 1) bs = if v then List.replicate bs.length 32 else bs :=
      blankBytes_of_together (fun d hd => hline d (List.mem_cons_of_mem _ hd)) fun i hi => by
        have hnext := htogether (i + 1) (Nat.succ_lt_succ hi)
        rwa [Nat.add_comm i, ← Nat.add_assoc] at hnext
    have hhere : covered ranges off = v := htogether 0 (Nat.succ_pos _)
    rw [blankBytes, hb, hhere, Bool.true_and, hrest]
    cases v <;> rfl

/-- No boundary lies inside a character. -/
theorem boundary_beside {content front back : List Char} {c : Char} {o : Nat} (h : IsBoundary content o)
    (hcontent : content = front ++ c :: back) : o ≤ utf8Size front ∨ utf8Size front + c.utf8Size ≤ o := by
  obtain ⟨before, after, hcut, rfl⟩ := h
  refine (Nat.lt_or_ge (utf8Size front) (utf8Size before)).symm.imp_right fun hlt => ?_
  obtain ⟨more, rfl⟩ := Text.prefix_of_utf8Size_le (hcontent.symm.trans hcut) (Nat.le_of_lt hlt)
  rw [hcontent, List.append_assoc] at hcut
  cases more with
  | nil => simp at hlt
  | cons d more =>
    obtain ⟨rfl, -⟩ := List.cons.inj (List.append_cancel_left hcut)
    rw [Text.utf8Size_append, Text.utf8Size_cons]
    omega

/-- Blanking the bytes of a text between boundaries blanks its characters. -/
theorem blankBytes_bytesOf {content : List Char}
    (hends : ∀ range ∈ ranges, IsBoundary content range.1 ∧ IsBoundary content range.2) : ∀ {cs front : List Char},
      content = front ++ cs → blankBytes ranges (utf8Size front) (bytesOf cs) = bytesOf (blank ranges (utf8Size front) cs)
  | [], _, _ => by
    rw [blank, bytesOf_nil]
    rfl
  | c :: cs, front, hcontent => by
    have hsize := String.length_utf8EncodeChar c
    have hnext : utf8Size front + c.utf8Size = utf8Size (front ++ [c]) := by simp
    have hrest : content = front ++ [c] ++ cs := by
      rw [hcontent, List.append_assoc]
      rfl
    have htogether : ∀ i < c.utf8Size, covered ranges (utf8Size front + i) = covered ranges (utf8Size front) := by
      intro i hi
      unfold covered
      rw [Bool.eq_iff_iff, List.any_eq_true, List.any_eq_true]
      refine exists_congr fun range => and_congr_right fun hrange => ?_
      obtain ⟨hlo, hhi⟩ := hends range hrange
      have hlo := boundary_beside hlo hcontent
      have hhi := boundary_beside hhi hcontent
      simp only [Bool.and_eq_true, decide_eq_true_eq]
      omega
    rw [bytesOf_cons, blankBytes_append, hsize, hnext, blankBytes_bytesOf hends hrest, blank, ← hnext, bytesOf_append]
    congr 1
    by_cases hc : c = '\n'
    · subst hc
      rw [bne_self_eq_false, Bool.false_and, if_neg (by decide), bytesOf_eq]
      rfl
    · have hline : ∀ b ∈ String.utf8EncodeChar c, b ≠ 10 := by
        rintro b hb rfl
        exact hc ((Bytes.mem_utf8EncodeChar_iff (d := '\n') (by decide)).mp hb)
      have hspace : ∀ n : Nat, bytesOf (List.replicate n ' ') = List.replicate n 32 := fun n => by
        induction n with
        | zero => exact bytesOf_nil
        | succ n ih => rw [List.replicate_succ, bytesOf_cons, ih]; rfl
      rw [blankBytes_of_together hline (hsize ▸ htogether), bne_iff_ne.mpr hc, Bool.true_and]
      split
      · rw [hsize, hspace]
      · rw [bytesOf_eq, List.flatMap_singleton]

end Blanks

/-! ## The mask -/

variable (m : Markings) (content : List Char)

theorem maskBytes_eq : maskBytes m content = bytesOf (blank (blankRanges m content) 0 content) := by
  have hcontent : content = [] ++ content := rfl
  exact blankBytes_bytesOf (fun _ h => isBoundary_blankRanges h) hcontent

theorem text?_maskBytes :
    Bytes.text? ⟨(maskBytes m content).toArray⟩ = some (String.ofList (blank (blankRanges m content) 0 content)) := by
  rw [maskBytes_eq]
  exact Bytes.text?_toList_ofText _

theorem mask_eq : mask m content = blank (blankRanges m content) 0 content := by
  rw [mask, text?_maskBytes, Option.getD_some, String.toList_ofList]

/-- A text with some characters blanked is that of its characters, each kept or blanked as a whole. -/
theorem exists_blanked (ranges : List ByteRange) : ∀ (off : Nat) (cs : List Char), ∃ parts : List (Char × Bool),
    cs = parts.map (·.1) ∧ (∀ part ∈ parts, part.2 = true → part.1 ≠ '\n') ∧
      blank ranges off cs = parts.flatMap fun (c, blanked) => if blanked then List.replicate c.utf8Size ' ' else [c]
  | _, [] => ⟨[], rfl, by simp, rfl⟩
  | off, c :: cs => by
    obtain ⟨parts, hparts, hline, hblank⟩ := exists_blanked ranges (off + c.utf8Size) cs
    refine ⟨(c, c != '\n' && covered ranges off) :: parts, by rw [List.map_cons, ← hparts], ?_, ?_⟩
    · rw [List.forall_mem_cons]
      refine ⟨fun hblanked => ?_, hline⟩
      exact bne_iff_ne.mp (Bool.and_eq_true_iff.mp hblanked).1
    · rw [blank, hblank, List.flatMap_cons]

/-- Whatever is code, comment or string: the blanked bytes are a text, so the masked text is never empty in their place. It has
as many bytes as the text, newlines where the text has them, and every other byte that is no blank where the text has it.
Each character is kept or blanked as a whole. -/
theorem mask_aligned :
    Bytes.text? ⟨(maskBytes m content).toArray⟩ = some (String.ofList (mask m content)) ∧
    (bytesOf (mask m content)).length = (bytesOf content).length ∧
    (∀ i : Nat, (bytesOf (mask m content))[i]? = some 10 ↔ (bytesOf content)[i]? = some 10) ∧
    (∀ (i : Nat) (b : UInt8), (bytesOf (mask m content))[i]? = some b → b ≠ 32 → (bytesOf content)[i]? = some b) ∧
    ∃ parts : List (Char × Bool), content = parts.map (·.1) ∧ (∀ part ∈ parts, part.2 = true → part.1 ≠ '\n') ∧
      mask m content = parts.flatMap fun (c, blanked) => if blanked then List.replicate c.utf8Size ' ' else [c] := by
  have hbytes : bytesOf (mask m content) = blankBytes (blankRanges m content) 0 (bytesOf content) := by
    rw [mask_eq, ← maskBytes_eq, maskBytes]
  have hat : ∀ i : Nat, (bytesOf (mask m content))[i]? =
      (bytesOf content)[i]?.map fun b => if b != 10 && covered (blankRanges m content) (0 + i) then 32 else b := fun i => by
    rw [hbytes, getElem?_blankBytes]
  refine ⟨?_, ?_, fun i => ?_, fun i b hb hblank => ?_, ?_⟩
  · rw [text?_maskBytes, mask_eq]
  · rw [hbytes, length_blankBytes]
  · rw [hat]
    cases (bytesOf content)[i]? with
    | none => rfl
    | some b =>
      rw [Option.map_some, Option.some_inj, Option.some_inj]
      grind
  · rw [hat] at hb
    obtain ⟨d, hd, rfl⟩ := Option.map_eq_some_iff.mp hb
    rw [hd]
    grind
  · rw [mask_eq]
    exact exists_blanked _ 0 content

end Refactor.Mention
