import Refactor.Text.Pattern
import Refactor.Proofs.Text.Cuts
import Refactor.Proofs.Text.Searches

/-!
# What patterns read

A match of a pattern is a part of the text that the pattern reads, with its marked part inside it. Which of the readings a
match prefers does not matter here.

* `Pattern.Reads` — the texts that a pattern reads, with their marked parts
* `Pattern.run_eq_some` — a run follows a reading
* `Pattern.Marks` — patterns that mark a part whatever they read
* `Pattern.exists_marked_of_mem_findAll` — where the matches of such a pattern stand
* `Pattern.run_chars`, `Pattern.runFew_chars` — a fixed text, and the shortest way to one
* `Pattern.exists_of_mem_findFrom_append` — a search goes on behind a text without a match
-/

namespace Refactor.Text

namespace Pattern

/-! ## Readings -/

/-- The marked part of a reading: what is read before it, and the part itself. -/
abbrev Marked := List Char × List Char

def behind (s : List Char) (m : Marked) : Marked := (s ++ m.1, m.2)

/-- The texts that a pattern reads, whatever stands around them, with the part marked last. -/
inductive Reads : Pattern → List Char → Option Marked → Prop
  | empty : Reads .empty [] none
  | one {cls : Char → Bool} {c : Char} (h : cls c = true) : Reads (.one cls) [c] none
  | many {cls : Char → Bool} {cs : List Char} (h : ∀ c ∈ cs, cls c = true) : Reads (.many cls) cs none
  | few {cls : Char → Bool} {cs : List Char} (h : ∀ c ∈ cs, cls c = true) : Reads (.few cls) cs none
  | seq {a b : Pattern} {s t : List Char} {m n : Option Marked} (ha : Reads a s m) (hb : Reads b t n) :
    Reads (.seq a b) (s ++ t) ((n.map (behind s)).or m)
  | left {a b : Pattern} {s : List Char} {m : Option Marked} (h : Reads a s m) : Reads (.alt a b) s m
  | right {a b : Pattern} {s : List Char} {m : Option Marked} (h : Reads b s m) : Reads (.alt a b) s m
  | mark {a : Pattern} {s : List Char} {m : Option Marked} (h : Reads a s m) : Reads (.mark a) s (some ([], s))
  | wordEdge : Reads .wordEdge [] none
  | lineStart : Reads .lineStart [] none

def boundsFrom (offset : Nat) (m : Marked) : Nat × Nat :=
  (offset + utf8Size m.1, offset + utf8Size m.1 + utf8Size m.2)

theorem boundsFrom_behind (offset : Nat) (s : List Char) (m : Marked) :
    boundsFrom offset (behind s m) = boundsFrom (offset + utf8Size s) m := by
  rw [boundsFrom, boundsFrom, behind, utf8Size_append, ← Nat.add_assoc]

/-- From one place to another over a text, of which a part is marked. -/
structure Advances (p : Place) (s : List Char) (m : Option Marked) (q : Place) : Prop where
  rest : p.rest = s ++ q.rest
  offset : q.offset = p.offset + utf8Size s
  marked : q.marked = (m.map (boundsFrom p.offset)).or p.marked

theorem Advances.refl (p : Place) : Advances p [] none p := ⟨rfl, rfl, rfl⟩

theorem Advances.trans {p q r : Place} {s t : List Char} {m n : Option Marked} (h : Advances p s m q)
    (h' : Advances q t n r) : Advances p (s ++ t) ((n.map (behind s)).or m) r where
  rest := by rw [h.rest, h'.rest, List.append_assoc]
  offset := by rw [h'.offset, h.offset, utf8Size_append, Nat.add_assoc]
  marked := by
    rw [h'.marked, h.marked, h.offset]
    cases n with
    | none => rfl
    | some n => exact congrArg some (boundsFrom_behind p.offset s n).symm

theorem Advances.next {p : Place} {c : Char} {cs : List Char} (h : p.rest = c :: cs) :
    Advances p [c] none (p.next c cs) := ⟨h, rfl, rfl⟩

variable {α : Type} {k : Place → Option α} {r : α}

theorem runMany_eq_some {cls : Char → Bool} {cs : List Char} {p : Place} (hrest : p.rest = cs)
    (h : runMany cls k cs p = some r) :
    ∃ s q, (∀ c ∈ s, cls c = true) ∧ Advances p s none q ∧ k q = some r := by
  induction cs generalizing p with
  | nil => exact ⟨[], p, by simp, .refl p, h⟩
  | cons c cs ih =>
    rw [runMany] at h
    split at h
    · rename_i hc
      split at h
      · rename_i a hlonger
        obtain ⟨s, q, hs, hq, hk⟩ := ih rfl (hlonger.trans h)
        exact ⟨c :: s, q, List.forall_mem_cons.mpr ⟨hc, hs⟩, (Advances.next hrest).trans hq, hk⟩
      · exact ⟨[], p, by simp, .refl p, h⟩
    · exact ⟨[], p, by simp, .refl p, h⟩

theorem runFew_eq_some {cls : Char → Bool} {cs : List Char} {p : Place} (hrest : p.rest = cs)
    (h : runFew cls k cs p = some r) :
    ∃ s q, (∀ c ∈ s, cls c = true) ∧ Advances p s none q ∧ k q = some r := by
  induction cs generalizing p with
  | nil => exact ⟨[], p, by simp, .refl p, h⟩
  | cons c cs ih =>
    rw [runFew] at h
    split at h
    · rename_i a hshort
      exact ⟨[], p, by simp, .refl p, hshort.trans h⟩
    · split at h
      · rename_i hc
        obtain ⟨s, q, hs, hq, hk⟩ := ih rfl h
        exact ⟨c :: s, q, List.forall_mem_cons.mpr ⟨hc, hs⟩, (Advances.next hrest).trans hq, hk⟩
      · cases h

/-- A run that succeeds follows a reading, and its continuation succeeds where the reading ends. -/
theorem run_eq_some {a : Pattern} {p : Place} (h : run a p k = some r) :
    ∃ s m q, Reads a s m ∧ Advances p s m q ∧ k q = some r := by
  induction a generalizing p k with
  | empty => exact ⟨[], none, p, .empty, .refl p, h⟩
  | one cls =>
    rw [run] at h
    split at h
    · cases h
    · rename_i c cs hrest
      split at h
      · rename_i hc
        exact ⟨[c], none, _, .one hc, .next hrest, h⟩
      · cases h
  | many cls =>
    obtain ⟨s, q, hs, hq, hk⟩ := runMany_eq_some rfl h
    exact ⟨s, none, q, .many hs, hq, hk⟩
  | few cls =>
    obtain ⟨s, q, hs, hq, hk⟩ := runFew_eq_some rfl h
    exact ⟨s, none, q, .few hs, hq, hk⟩
  | seq a b iha ihb =>
    obtain ⟨s, m, q, hs, hq, h⟩ := iha h
    obtain ⟨t, n, q', ht, hq', hk⟩ := ihb h
    exact ⟨_, _, q', hs.seq ht, hq.trans hq', hk⟩
  | alt a b iha ihb =>
    rw [run] at h
    split at h
    · rename_i hleft
      obtain ⟨s, m, q, hs, hq, hk⟩ := iha (hleft.trans h)
      exact ⟨s, m, q, hs.left, hq, hk⟩
    · obtain ⟨s, m, q, hs, hq, hk⟩ := ihb h
      exact ⟨s, m, q, hs.right, hq, hk⟩
  | mark a iha =>
    obtain ⟨s, m, q, hs, hq, hk⟩ := iha h
    refine ⟨s, _, { q with marked := some (p.offset, q.offset) }, hs.mark, ⟨hq.rest, hq.offset, ?_⟩, hk⟩
    rw [Option.map_some, Option.some_or, hq.offset]
    rfl
  | wordEdge =>
    rw [run] at h
    split at h
    · exact ⟨[], none, p, .wordEdge, .refl p, h⟩
    · cases h
  | lineStart =>
    rw [run] at h
    split at h
    · exact ⟨[], none, p, .lineStart, .refl p, h⟩
    · cases h

/-! ## Matches -/

/-- The match of a reading that starts at an offset; without a marked part all of it is marked. -/
def matchOf (offset : Nat) (s : List Char) (m : Option Marked) : Match :=
  let bounds := (m.map (boundsFrom offset)).getD (offset, offset + utf8Size s)
  ⟨offset, offset + utf8Size s, bounds.1, bounds.2⟩

theorem matchAt?_eq_some {a : Pattern} {p : Place} {found : Match} (h : a.matchAt? p = some found) :
    ∃ s m rest, Reads a s m ∧ p.rest = s ++ rest ∧ found = matchOf p.offset s m := by
  obtain ⟨s, m, q, hs, hq, hfound⟩ := run_eq_some h
  refine ⟨s, m, q.rest, hs, hq.rest, (Option.some.inj hfound).symm.trans ?_⟩
  rw [hq.marked, hq.offset, Option.or_none]
  rfl

/-- A match that a search finds is what the pattern reads somewhere behind the place where the search starts. -/
theorem exists_of_mem_findFrom {a : Pattern} {found : Match} : ∀ {cs : List Char} {resume : Nat} {p : Place},
    p.rest = cs → found ∈ findFrom a resume p cs →
      ∃ front s m back, cs = front ++ s ++ back ∧ Reads a s m ∧ found = matchOf (p.offset + utf8Size front) s m
  | [], resume, p, hrest, h => by
    rw [findFrom] at h
    split at h
    · obtain ⟨s, m, rest, hs, hcut, hfound⟩ := matchAt?_eq_some (Option.mem_toList.mp h)
      exact ⟨[], s, m, rest, hrest.symm.trans hcut, hs, hfound⟩
    · cases h
  | c :: cs, resume, p, hrest, h => by
    have hlater : ∀ {resume : Nat}, found ∈ findFrom a resume (p.next c cs) cs → ∃ front s m back,
        c :: cs = front ++ s ++ back ∧ Reads a s m ∧ found = matchOf (p.offset + utf8Size front) s m := by
      intro resume h
      obtain ⟨front, s, m, back, rfl, hs, hfound⟩ := exists_of_mem_findFrom rfl h
      refine ⟨c :: front, s, m, back, rfl, hs, ?_⟩
      rw [utf8Size_cons, ← Nat.add_assoc]
      exact hfound
    rw [findFrom] at h
    split at h
    · exact hlater h
    · split at h
      · rename_i hmatch
        rcases List.mem_cons.mp h with rfl | h
        · obtain ⟨s, m, rest, hs, hcut, hfound⟩ := matchAt?_eq_some hmatch
          exact ⟨[], s, m, rest, hrest.symm.trans hcut, hs, hfound⟩
        · exact hlater h
      · exact hlater h

/-- A match lies between the place where a search starts and the end of the text. -/
theorem bounds_of_mem_findFrom {a : Pattern} {found : Match} {cs : List Char} {resume : Nat} {p : Place}
    (hrest : p.rest = cs) (h : found ∈ findFrom a resume p cs) :
    p.offset ≤ found.lo ∧ found.hi ≤ p.offset + utf8Size cs := by
  obtain ⟨front, s, m, back, rfl, _, rfl⟩ := exists_of_mem_findFrom hrest h
  simp only [matchOf, utf8Size_append]
  omega

/-- A match of a text is what the pattern reads somewhere in it. -/
theorem exists_of_mem_findAll {a : Pattern} {content : List Char} {found : Match} (h : found ∈ a.findAll content) :
    ∃ front s m back, content = front ++ s ++ back ∧ Reads a s m ∧ found = matchOf (utf8Size front) s m := by
  obtain ⟨front, s, m, back, hcut, hs, hfound⟩ := exists_of_mem_findFrom rfl h
  rw [Nat.zero_add] at hfound
  exact ⟨front, s, m, back, hcut, hs, hfound⟩

/-! ## Marked parts -/

def unmarked : Pattern → Bool
  | .seq a b | .alt a b => a.unmarked && b.unmarked
  | .mark _ => false
  | _ => true

theorem Reads.eq_none {a : Pattern} {s : List Char} {m : Option Marked} (h : Reads a s m) (ha : a.unmarked = true) :
    m = none := by
  induction h with
  | seq _ _ iha ihb =>
    rw [unmarked, Bool.and_eq_true] at ha
    rw [iha ha.1, ihb ha.2]
    rfl
  | left _ ih | right _ ih =>
    rw [unmarked, Bool.and_eq_true] at ha
    exact ih (by first | exact ha.1 | exact ha.2)
  | mark => cases ha
  | _ => rfl

/-- Whatever the pattern reads, it marks a part, which stands with what is read before and behind it in a relation. -/
def Marks (a : Pattern) (rel : List Char → List Char → List Char → Prop) : Prop :=
  ∀ s m, Reads a s m → ∃ front part back, s = front ++ part ++ back ∧ m = some (front, part) ∧ rel front part back

section

variable {a b : Pattern} {rel : List Char → List Char → List Char → Prop}

theorem Marks.mono {rel' : List Char → List Char → List Char → Prop} (h : Marks a rel)
    (hrel : ∀ front part back, rel front part back → rel' front part back) : Marks a rel' := by
  intro s m hs
  obtain ⟨front, part, back, hcut, hm, hpart⟩ := h s m hs
  exact ⟨front, part, back, hcut, hm, hrel front part back hpart⟩

theorem Marks.mark (h : ∀ s m, Reads a s m → rel [] s []) : Marks (.mark a) rel := by
  rintro s m ⟨⟩
  rename_i hs
  exact ⟨[], s, [], by simp, rfl, h s _ hs⟩

theorem Marks.seq_left (h : Marks a fun front part back => ∀ s m, Reads b s m → rel front part (back ++ s))
    (hb : b.unmarked = true) : Marks (.seq a b) rel := by
  rintro s m ⟨⟩
  rename_i s t m n hs ht
  obtain ⟨front, part, back, rfl, rfl, hpart⟩ := h s m hs
  refine ⟨front, part, back ++ t, by simp, ?_, hpart t n ht⟩
  rw [ht.eq_none hb]
  rfl

theorem Marks.seq_right (h : Marks b fun front part back => ∀ s m, Reads a s m → rel (s ++ front) part back) :
    Marks (.seq a b) rel := by
  rintro s m ⟨⟩
  rename_i s t m n hs ht
  obtain ⟨front, part, back, rfl, rfl, hpart⟩ := h t n ht
  exact ⟨s ++ front, part, back, by simp, rfl, hpart s m hs⟩

/-- A relation that stays when more is read around the marked part. -/
structure Widens (rel : List Char → List Char → List Char → Prop) : Prop where
  before : ∀ {front part back : List Char} (s : List Char), rel front part back → rel (s ++ front) part back
  behind : ∀ {front part back : List Char} (s : List Char), rel front part back → rel front part (back ++ s)

theorem Marks.prepend (hrel : Widens rel) (h : Marks b rel) : Marks (.seq a b) rel :=
  Marks.seq_right (h.mono fun _ _ _ hpart s _ _ => hrel.before s hpart)

theorem Marks.append (hrel : Widens rel) (h : Marks a rel) (hb : b.unmarked = true) : Marks (.seq a b) rel :=
  Marks.seq_left (h.mono fun _ _ _ hpart s _ _ => hrel.behind s hpart) hb

end

/-! ## Readings of the patterns in use -/

theorem Reads.char_eq {c : Char} {s : List Char} {m : Option Marked} (h : Reads (char c) s m) : s = [c] := by
  cases h with
  | one hc => rw [beq_iff_eq.mp hc]

theorem Reads.oneOrMore_spec {cls : Char → Bool} {s : List Char} {m : Option Marked} (h : Reads (oneOrMore cls) s m) :
    s ≠ [] ∧ ∀ c ∈ s, cls c = true := by
  cases h with
  | seq hone hmany =>
    cases hone with
    | one hc =>
      cases hmany with
      | many hs => exact ⟨by simp, by simpa using ⟨hc, hs⟩⟩

/-- A match of a pattern that marks a part has this part inside it. -/
theorem exists_marked_of_mem_findAll {a : Pattern} {rel : List Char → List Char → List Char → Prop} (ha : Marks a rel)
    {content : List Char} {found : Match} (h : found ∈ a.findAll content) :
    ∃ front before part after back, content = front ++ (before ++ part ++ after) ++ back ∧ rel before part after ∧
      found.lo = utf8Size front ∧ found.markLo = found.lo + utf8Size before ∧
      found.markHi = found.markLo + utf8Size part ∧ found.hi = found.markHi + utf8Size after := by
  obtain ⟨front, s, m, back, hcut, hs, rfl⟩ := exists_of_mem_findAll h
  obtain ⟨before, part, after, rfl, rfl, hpart⟩ := ha s m hs
  refine ⟨front, before, part, after, back, hcut, hpart, rfl, rfl, rfl, ?_⟩
  simp only [matchOf, boundsFrom, Option.map_some, Option.getD_some, utf8Size_append]
  omega

/-! ## Fixed texts -/

/-- The place behind a text. -/
def past (p : Place) (s rest : List Char) : Place :=
  { p with previous := s.getLast?.or p.previous, rest, offset := p.offset + utf8Size s }

theorem past_nil (p : Place) : past p [] p.rest = p := rfl

theorem past_cons (p : Place) (c : Char) (cs s rest : List Char) :
    past (p.next c cs) s rest = past p (c :: s) rest := by
  have hprevious : s.getLast?.or (some c) = ((c :: s).getLast?).or p.previous := by
    rw [List.getLast?_cons]
    cases s.getLast? <;> rfl
  simp only [past, Place.next, hprevious, utf8Size_cons, Nat.add_assoc]

theorem run_chars (k : Place → Option α) : ∀ (s : List Char) (p : Place),
    run (all (s.map char)) p k = (dropLead? s p.rest).bind fun rest => k (past p s rest)
  | [], p => by
    rw [dropLead?, Option.bind_some, past_nil]
    rfl
  | c :: s, p => by
    have hrun : run (all ((c :: s).map char)) p k = run (char c) p fun q => run (all (s.map char)) q k := by
      cases s with
      | nil => rfl
      | cons d s => rfl
    rw [hrun, char, run]
    cases p.rest with
    | nil => rfl
    | cons d cs =>
      dsimp only
      by_cases hd : c = d
      · subst hd
        rw [if_pos (beq_self_eq_true c), run_chars k s, dropLead?, if_pos rfl]
        simp only [past_cons]
        rfl
      · rw [if_neg (by simpa using Ne.symm hd), dropLead?, if_neg hd]
        rfl

/-- The shortest way to a fixed text ends at its first occurrence. -/
theorem runFew_chars (f : Place → α) (s : List Char) : ∀ (cs : List Char) (p : Place), p.rest = cs →
    runFew (fun _ => true) (fun q => (dropLead? s q.rest).bind fun rest => some (f (past q s rest))) cs p =
      (splitOnce? s cs).map fun cut => f (past p (cut.1 ++ s) cut.2)
  | [], p, hrest => by
    rw [runFew, hrest, splitOnce?]
    cases s with
    | nil => simp [dropLead?]
    | cons c s => simp [dropLead?]
  | c :: cs, p, hrest => by
    rw [runFew, splitOnce?, hrest]
    cases hlead : dropLead? s (c :: cs) with
    | some rest => rfl
    | none =>
      dsimp only [Option.bind_none]
      rw [if_pos rfl, runFew_chars f s cs _ rfl, Option.map_map]
      simp only [Function.comp_def, past_cons, List.cons_append]

/-! ## Searching on -/

/-- A search goes on behind a text where it has nothing to look for, or finds nothing. -/
theorem exists_of_mem_findFrom_append {rest : List Char} {resume : Nat} : ∀ {front : List Char} {p : Place},
    p.rest = front ++ rest →
    (p.offset + utf8Size front ≤ resume ∨
      ∀ c cs q, c :: cs <:+ front → q.rest = c :: cs ++ rest → a.matchAt? q = none) →
    found ∈ findFrom a resume p (front ++ rest) →
      ∃ q, q.rest = rest ∧ q.offset = p.offset + utf8Size front ∧ found ∈ findFrom a resume q rest
  | [], p, hrest, _, h => ⟨p, hrest, rfl, h⟩
  | c :: front, p, hrest, hnone, h => by
    have hpos := c.utf8Size_pos
    have hlater : found ∈ findFrom a resume (p.next c (front ++ rest)) (front ++ rest) := by
      rw [List.cons_append, findFrom] at h
      split at h
      · exact h
      · rename_i hreached
        rcases hnone with hbefore | hnone
        · rw [utf8Size_cons] at hbefore
          omega
        · rw [hnone c front p List.suffix_rfl hrest] at h
          exact h
    have hnone' : (p.next c (front ++ rest)).offset + utf8Size front ≤ resume ∨
        ∀ d cs q, d :: cs <:+ front → q.rest = d :: cs ++ rest → a.matchAt? q = none := by
      refine hnone.imp (fun hbefore => ?_) fun hnone d cs q hsuffix => hnone d cs q (hsuffix.trans (List.suffix_cons c front))
      rw [utf8Size_cons, ← Nat.add_assoc] at hbefore
      exact hbefore
    obtain ⟨q, hq, hoffset, hfound⟩ := exists_of_mem_findFrom_append rfl hnone' hlater
    refine ⟨q, hq, ?_, hfound⟩
    rw [hoffset, utf8Size_cons, ← Nat.add_assoc]
    rfl

end Pattern

end Refactor.Text
