import Refactor.Script.Source
import Refactor.Proofs.Edit.Splices
import Refactor.Proofs.Text.Hits

/-!
# Places of a source

A service answers, refuses, or meets an offset inside a character. What it answers about cuts and lines is told here once,
and so is when it answers at all: wherever the offsets lie between characters.

* `bind_eq_ok`, `Aligned` — services one after the other, and those that meet no offset inside a character
* `Source.IsCut`, `Source.slice_eq_ok_iff` — offsets between characters, and the text between two of them
* `Source.LineStart`, `Source.LineEnd` — the ends of lines found from an offset
* `Source.Visible` — a range that starts and ends with a character that is no white space
* `Source.IsPlace`, `Source.At` — offsets that a position leads back to, and edits between them
-/

namespace Refactor.Script

open Text (utf8Size)

variable {α β : Type}

/-! ## Services -/

theorem eq_ok_of_toOption {m : Service α} {a : α} (h : m.toOption = some a) : m = .ok a := by
  cases m with
  | error e => cases h
  | ok a' =>
    cases h
    rfl

theorem bind_eq_ok {m : Service α} {f : α → Service β} {b : β} (h : m >>= f = .ok b) : ∃ a, m = .ok a ∧ f a = .ok b := by
  cases m with
  | error e => cases h
  | ok a => exact ⟨a, rfl, h⟩

theorem bind_eq_misaligned_iff {m : Service α} {f : α → Service β} :
    m >>= f = .error .misaligned ↔ m = .error .misaligned ∨ ∃ a, m = .ok a ∧ f a = .error .misaligned := by
  cases m with
  | error e =>
    constructor
    · intro h
      cases h
      exact Or.inl rfl
    · rintro (h | ⟨a, h, -⟩)
      · cases h
        rfl
      · cases h
  | ok a =>
    constructor
    · exact fun h => Or.inr ⟨a, rfl, h⟩
    · rintro (h | ⟨a', ha, h⟩)
      · cases h
      · cases ha
        exact h

/-- A service that goes on only when nothing speaks against it. -/
theorem unless_eq_ok {c : Prop} [Decidable c] {message : String} {f : Unit → Service α} {a : α}
    (h : (if c then refuse message >>= f else f ()) = .ok a) : ¬c ∧ f () = .ok a := by
  split at h
  · cases h
  · exact ⟨‹_›, h⟩

/-- What a service gives for a list are its answers for the elements. -/
theorem mapM_eq_ok {f : α → Service β} {l : List α} {l' : List β} (h : l.mapM f = .ok l') :
    (∀ b ∈ l', ∃ a ∈ l, f a = .ok b) ∧ ∀ a ∈ l, ∃ b ∈ l', f a = .ok b := by
  induction l generalizing l' with
  | nil =>
    cases h
    simp
  | cons a l ih =>
    rw [List.mapM_cons] at h
    obtain ⟨b, hb, h⟩ := bind_eq_ok h
    obtain ⟨bs, hbs, h⟩ := bind_eq_ok h
    cases h
    obtain ⟨hfrom, hto⟩ := ih hbs
    constructor
    · refine List.forall_mem_cons.mpr ⟨⟨a, List.mem_cons_self, hb⟩, fun b' hb' => ?_⟩
      obtain ⟨a', ha', hspec⟩ := hfrom b' hb'
      exact ⟨a', List.mem_cons_of_mem a ha', hspec⟩
    · refine List.forall_mem_cons.mpr ⟨⟨b, List.mem_cons_self, hb⟩, fun a' ha' => ?_⟩
      obtain ⟨b', hb', hspec⟩ := hto a' ha'
      exact ⟨b', List.mem_cons_of_mem b hb', hspec⟩

/-- A service that meets no offset inside a character. -/
def Aligned (m : Service α) : Prop := m ≠ .error .misaligned

namespace Aligned

theorem ok (a : α) : Aligned (.ok a) := by simp [Aligned]

theorem refuse (message : String) : Aligned (refuse message : Service α) := by simp [Aligned, Script.refuse]

theorem bind {m : Service α} {f : α → Service β} (hm : Aligned m) (hf : ∀ a, m = .ok a → Aligned (f a)) :
    Aligned (m >>= f) := by
  cases m with
  | error e => exact fun h => hm (by cases h; rfl)
  | ok a => exact hf a rfl

theorem of_eq_ok {m : Service α} (h : ∃ a, m = .ok a) : Aligned m := by
  obtain ⟨a, rfl⟩ := h
  exact ok a

theorem unlessRefuse {c : Prop} [Decidable c] {message : String} {f : Unit → Service α} (h : ¬c → Aligned (f ())) :
    Aligned (if c then Script.refuse message >>= f else f ()) := by
  split
  · exact (refuse message).bind fun _ h => by cases h
  · exact h ‹_›

theorem mapM {f : α → Service β} : ∀ {l : List α}, (∀ a ∈ l, Aligned (f a)) → Aligned (l.mapM f)
  | [], _ => ok []
  | a :: l, h => by
    rw [List.mapM_cons]
    refine (h a List.mem_cons_self).bind fun b _ => ?_
    exact (mapM fun a' ha' => h a' (List.mem_cons_of_mem a ha')).bind fun bs _ => ok (b :: bs)

end Aligned

namespace Source

variable {s : Source} {o a b : Nat}

/-! ## Cuts -/

/-- An offset between two characters, or at an end of the source. -/
def IsCut (s : Source) (o : Nat) : Prop := ∃ front back, s = front ++ back ∧ utf8Size front = o

theorem isCut_iff : IsCut s o ↔ (Text.splitAtByte? o s).isSome := by
  rw [Option.isSome_iff_exists]
  constructor
  · rintro ⟨front, back, hs, ho⟩
    exact ⟨(front, back), Text.splitAtByte?_eq_some_iff.mpr ⟨hs, ho⟩⟩
  · rintro ⟨⟨front, back⟩, h⟩
    exact ⟨front, back, Text.splitAtByte?_eq_some_iff.mp h⟩

instance : Decidable (IsCut s o) := decidable_of_iff _ isCut_iff.symm

theorem IsCut.zero (s : Source) : IsCut s 0 := ⟨[], s, rfl, rfl⟩

theorem cut_of_not_isCut (h : ¬IsCut s o) : s.cut o = .error .misaligned := by
  rw [isCut_iff, Option.not_isSome_iff_eq_none] at h
  rw [cut, h]

theorem cut_eq_ok_iff {front back : List Char} : s.cut o = .ok (front, back) ↔ s = front ++ back ∧ utf8Size front = o := by
  rw [← Text.splitAtByte?_eq_some_iff, cut]
  cases Text.splitAtByte? o s <;> simp

theorem exists_cut (h : IsCut s o) : ∃ c, s.cut o = .ok c := by
  obtain ⟨front, back, hs, ho⟩ := h
  exact ⟨(front, back), cut_eq_ok_iff.mpr ⟨hs, ho⟩⟩

theorem slice_eq_ok_iff {t : List Char} : s.slice a b = .ok t ↔
    ∃ front back, s = front ++ t ++ back ∧ utf8Size front = a ∧ utf8Size front + utf8Size t = b := by
  rw [← Text.slice?_eq_some_iff, slice]
  cases Text.slice? s a b <;> simp

theorem exists_slice (ha : IsCut s a) (hb : IsCut s b) (hle : a ≤ b) : ∃ t, s.slice a b = .ok t := by
  obtain ⟨front, rest, rfl, rfl⟩ := ha
  obtain ⟨upTo, back, heq, rfl⟩ := hb
  obtain ⟨t, rfl⟩ := Text.prefix_of_utf8Size_le heq hle
  exact ⟨t, slice_eq_ok_iff.mpr ⟨front, back, heq, rfl, (Text.utf8Size_append front t).symm⟩⟩

theorem slice_spec {t : List Char} (h : s.slice a b = .ok t) : IsCut s a ∧ IsCut s b ∧ a + utf8Size t = b := by
  obtain ⟨front, back, rfl, rfl, rfl⟩ := slice_eq_ok_iff.mp h
  refine ⟨⟨front, t ++ back, List.append_assoc _ _ _, rfl⟩, ⟨front ++ t, back, rfl, ?_⟩, rfl⟩
  rw [Text.utf8Size_append]

theorem slice_self (h : IsCut s a) : s.slice a a = .ok [] := by
  obtain ⟨front, back, rfl, rfl⟩ := h
  exact slice_eq_ok_iff.mpr ⟨front, back, by simp, rfl, rfl⟩

/-! ## Lines -/

/-- `a` starts the line that holds `o`: what stands between them is no newline, and a newline stands before `a`. -/
def LineStart (s : Source) (o a : Nat) : Prop :=
  ∃ front line back, s = front ++ line ++ back ∧ utf8Size front = a ∧ a + utf8Size line = o ∧ '\n' ∉ line ∧
    (front = [] ∨ ∃ init, front = init ++ ['\n'])

/-- `b` ends the line that holds `o`: behind its newline, or at the end of the source. -/
def LineEnd (s : Source) (o b : Nat) : Prop :=
  ∃ front line back, s = front ++ line ++ back ∧ utf8Size front = o ∧ o + utf8Size line = b ∧
    (('\n' ∉ line ∧ back = []) ∨ ∃ init, line = init ++ ['\n'] ∧ '\n' ∉ init)

theorem lineStart_of_cut {front back : List Char} : LineStart (front ++ back) (utf8Size front)
    (utf8Size front - utf8Size (front.reverse.takeWhile (· != '\n'))) := by
  obtain ⟨init, hfront, hend⟩ := Position.exists_lastLine front
  have hnone := Position.newline_not_mem_lastLine front
  have hsize : utf8Size (front.reverse.takeWhile (· != '\n')) = utf8Size (Position.lastLine front) :=
    (Text.utf8Size_reverse _).symm
  rw [hsize]
  generalize Position.lastLine front = line at hfront hnone
  subst hfront
  refine ⟨init, line, back, rfl, ?_, ?_, hnone, hend⟩
  · rw [Text.utf8Size_append]
    omega
  · rw [Text.utf8Size_append]
    omega

theorem lineStart_spec (h : s.lineStart o = .ok a) : LineStart s o a := by
  obtain ⟨⟨front, back⟩, hcut, h⟩ := bind_eq_ok h
  cases h
  obtain ⟨rfl, rfl⟩ := cut_eq_ok_iff.mp hcut
  exact lineStart_of_cut

theorem exists_lineStart (h : IsCut s o) : ∃ a, s.lineStart o = .ok a := by
  obtain ⟨⟨front, back⟩, hcut⟩ := exists_cut h
  rw [lineStart, hcut]
  exact ⟨_, rfl⟩

theorem lineEnd_of_cut {front back : List Char} : LineEnd (front ++ back) (utf8Size front)
    (utf8Size front + utf8Size (back.takeWhile (· != '\n')) +
      if (back.takeWhile (· != '\n')).length < back.length then 1 else 0) := by
  have hnone : '\n' ∉ back.takeWhile (· != '\n') := fun hmem => by simpa using List.mem_takeWhile_imp hmem
  have hsplit := List.takeWhile_append_dropWhile (p := (· != '\n')) (l := back)
  cases hrest : back.dropWhile (· != '\n') with
  | nil =>
    rw [hrest, List.append_nil] at hsplit
    rw [hsplit, if_neg (Nat.lt_irrefl _)]
    rw [hsplit] at hnone
    exact ⟨front, back, [], by simp, rfl, rfl, Or.inl ⟨hnone, rfl⟩⟩
  | cons c rest =>
    have hhead := List.head?_dropWhile_not (· != '\n') back
    rw [hrest] at hhead
    obtain rfl : c = '\n' := by simpa using hhead
    have hsize : ('\n' : Char).utf8Size = 1 := by decide
    rw [hrest] at hsplit
    generalize back.takeWhile (· != '\n') = line at hnone hsplit
    subst hsplit
    rw [if_pos (by simp)]
    refine ⟨front, line ++ ['\n'], rest, by simp, rfl, ?_, Or.inr ⟨line, rfl, hnone⟩⟩
    simp only [Text.utf8Size_append, Text.utf8Size_cons, Text.utf8Size_nil, hsize]
    omega

theorem lineEnd_spec (h : s.lineEnd o = .ok b) : LineEnd s o b := by
  obtain ⟨⟨front, back⟩, hcut, h⟩ := bind_eq_ok h
  cases h
  obtain ⟨rfl, rfl⟩ := cut_eq_ok_iff.mp hcut
  exact lineEnd_of_cut

theorem exists_lineEnd (h : IsCut s o) : ∃ b, s.lineEnd o = .ok b := by
  obtain ⟨⟨front, back⟩, hcut⟩ := exists_cut h
  rw [lineEnd, hcut]
  exact ⟨_, rfl⟩

theorem LineStart.le (h : LineStart s o a) : a ≤ o := by
  obtain ⟨_, _, _, _, _, rfl, _⟩ := h
  omega

theorem LineStart.isCut (h : LineStart s o a) : IsCut s a := by
  obtain ⟨front, line, back, hs, ha, _⟩ := h
  exact ⟨front, line ++ back, by rw [hs, List.append_assoc], ha⟩

/-- The start of a line is that of the source or comes right behind a newline, which is one byte. -/
theorem LineStart.isCut_pred (h : LineStart s o a) : a = 0 ∨ IsCut s (a - 1) := by
  obtain ⟨front, line, back, rfl, rfl, -, -, rfl | ⟨init, rfl⟩⟩ := h
  · exact Or.inl rfl
  · have hsize : ('\n' : Char).utf8Size = 1 := by decide
    refine Or.inr ⟨init, '\n' :: (line ++ back), by simp, ?_⟩
    simp [hsize]

theorem LineEnd.le (h : LineEnd s o b) : o ≤ b := by
  obtain ⟨_, _, _, _, _, rfl, _⟩ := h
  omega

theorem LineEnd.isCut (h : LineEnd s o b) : IsCut s b := by
  obtain ⟨front, line, back, hs, ho, rfl, _⟩ := h
  exact ⟨front ++ line, back, hs, by rw [Text.utf8Size_append, ho]⟩

theorem LineEnd.mono {o' b' : Nat} (h : LineEnd s o b) (h' : LineEnd s o' b') (hle : o ≤ o') : b ≤ b' := by
  obtain ⟨front, line, back, rfl, rfl, rfl, hend⟩ := h
  obtain ⟨front', line', back', heq, rfl, rfl, hend'⟩ := h'
  refine Nat.le_of_not_lt fun hlt => ?_
  have hpart : front' ++ line' <+: front ++ line := by
    refine Text.prefix_of_utf8Size_le heq.symm ?_
    rw [Text.utf8Size_append, Text.utf8Size_append]
    omega
  have hsame : front ++ (line ++ back) = front' ++ (line' ++ back') := by
    rw [← List.append_assoc, heq, List.append_assoc]
  obtain ⟨skipped, rfl⟩ := Text.prefix_of_utf8Size_le hsame hle
  rw [List.append_assoc, List.prefix_append_right_inj] at hpart
  rcases hend' with ⟨-, rfl⟩ | ⟨init', rfl, -⟩
  · -- the source ends with the later line
    have hsize := congrArg utf8Size heq
    simp only [Text.utf8Size_append, Text.utf8Size_nil] at hsize hlt
    omega
  · -- a newline stands before the end of the line
    have hnewline : '\n' ∈ skipped ++ (init' ++ ['\n']) := by simp
    rcases hend with ⟨hnone, -⟩ | ⟨init, rfl, hnone⟩
    · exact hnone (hpart.subset hnewline)
    · rcases List.prefix_concat_iff.mp hpart with hsame | hpart
      · have hsize := congrArg utf8Size hsame
        simp only [Text.utf8Size_append] at hsize hlt
        omega
      · exact hnone (hpart.subset hnewline)

theorem afterSemicolon_spec (h : s.afterSemicolon o = .ok b) :
    b = o ∨ ∃ front back, s = front ++ ';' :: back ∧ utf8Size front = o ∧ b = o + 1 := by
  obtain ⟨⟨front, back⟩, hcut, h⟩ := bind_eq_ok h
  cases h
  obtain ⟨rfl, rfl⟩ := cut_eq_ok_iff.mp hcut
  split
  · rename_i hhead
    obtain ⟨tail, rfl⟩ := List.head?_eq_some_iff.mp (beq_iff_eq.mp hhead)
    exact Or.inr ⟨front, tail, rfl, rfl, rfl⟩
  · exact Or.inl rfl

theorem exists_afterSemicolon (h : IsCut s o) : ∃ b, s.afterSemicolon o = .ok b := by
  obtain ⟨⟨front, back⟩, hcut⟩ := exists_cut h
  rw [afterSemicolon, hcut]
  exact ⟨_, rfl⟩

theorem afterSemicolon_isCut (h : s.afterSemicolon o = .ok b) (ho : IsCut s o) : IsCut s b ∧ o ≤ b := by
  rcases afterSemicolon_spec h with rfl | ⟨front, back, rfl, rfl, rfl⟩
  · exact ⟨ho, Nat.le_refl _⟩
  · have hsize : (';' : Char).utf8Size = 1 := by decide
    exact ⟨⟨front ++ [';'], back, by simp, by simp [hsize]⟩, by omega⟩

theorem linesAround_spec {first last : Nat} {alone : Bool} (h : s.linesAround a b = .ok (first, last, alone)) :
    LineStart s a first ∧ LineEnd s b last ∧
      ∃ before after, s.slice first a = .ok before ∧ s.slice b last = .ok after ∧
        alone = (isBlank before && isBlank after) := by
  obtain ⟨first', hfirst, h⟩ := bind_eq_ok h
  obtain ⟨last', hlast, h⟩ := bind_eq_ok h
  obtain ⟨before, hbefore, h⟩ := bind_eq_ok h
  obtain ⟨after, hafter, h⟩ := bind_eq_ok h
  cases h
  exact ⟨lineStart_spec hfirst, lineEnd_spec hlast, before, after, hbefore, hafter, rfl⟩

theorem exists_linesAround (ha : IsCut s a) (hb : IsCut s b) : ∃ l, s.linesAround a b = .ok l := by
  obtain ⟨first, hfirst⟩ := exists_lineStart ha
  obtain ⟨last, hlast⟩ := exists_lineEnd hb
  obtain ⟨before, hbefore⟩ := exists_slice (lineStart_spec hfirst).isCut ha (lineStart_spec hfirst).le
  obtain ⟨after, hafter⟩ := exists_slice hb (lineEnd_spec hlast).isCut (lineEnd_spec hlast).le
  rw [linesAround, hfirst, hlast]
  dsimp only [bind, Except.bind]
  rw [hbefore, hafter]
  exact ⟨_, rfl⟩

/-! ## Visible ranges -/

/-- A range that starts and ends with a character that is no white space. -/
def Visible (s : Source) (a b : Nat) : Prop :=
  ∃ t, s.slice a b = .ok t ∧ (∃ c ∈ t.head?, Text.isBlank c = false) ∧ ∃ c ∈ t.getLast?, Text.isBlank c = false

theorem visible_iff : Visible s a b ↔
    ((Text.slice? s a b).any fun t => t.head?.any (!Text.isBlank ·) && t.getLast?.any (!Text.isBlank ·)) = true := by
  rw [Visible, slice]
  cases Text.slice? s a b with
  | none => simp
  | some t => simp [Option.any_eq_true]

instance : Decidable (Visible s a b) := decidable_of_iff _ visible_iff.symm

theorem Visible.lt (h : Visible s a b) : a < b := by
  obtain ⟨t, hslice, ⟨c, hc, -⟩, -⟩ := h
  obtain ⟨-, -, rfl⟩ := slice_spec hslice
  obtain ⟨tail, rfl⟩ := List.head?_eq_some_iff.mp hc
  have hpos := c.utf8Size_pos
  rw [Text.utf8Size_cons]
  omega

theorem Visible.isCut (h : Visible s a b) : IsCut s a ∧ IsCut s b := by
  obtain ⟨t, hslice, -⟩ := h
  exact ⟨(slice_spec hslice).1, (slice_spec hslice).2.1⟩

theorem Visible.le_of_blank {c d : Nat} {t : List Char} (h : Visible s c d) (hslice : s.slice a b = .ok t)
    (hblank : isBlank t = true) (hle : a ≤ c) : b ≤ c := by
  obtain ⟨word, hword, ⟨x, hx, hvisible⟩, -⟩ := h
  obtain ⟨front, back, rfl, rfl, rfl⟩ := slice_eq_ok_iff.mp hslice
  obtain ⟨front', back', heq, rfl, -⟩ := slice_eq_ok_iff.mp hword
  obtain ⟨tail, rfl⟩ := List.head?_eq_some_iff.mp hx
  refine Nat.le_of_not_lt fun hlt => ?_
  have hcut : front ++ (t ++ back) = front' ++ (x :: tail ++ back') := by simpa using heq
  obtain ⟨mid, rfl⟩ := Text.prefix_of_utf8Size_le hcut hle
  rw [List.append_assoc, List.append_cancel_left_eq] at hcut
  obtain ⟨rest, rfl⟩ := Text.prefix_of_utf8Size_le hcut.symm (by
    rw [Text.utf8Size_append] at hlt
    omega)
  rw [List.append_assoc, List.append_cancel_left_eq] at hcut
  cases rest with
  | nil =>
    rw [List.append_nil, Text.utf8Size_append] at hlt
    exact Nat.lt_irrefl _ hlt
  | cons y rest =>
    obtain rfl : y = x := (List.cons.inj hcut).1
    have hy : Text.isBlank y = true := List.all_eq_true.mp hblank y (by simp)
    rw [hvisible] at hy
    cases hy

theorem selection_visible {range : Span} (h : s.selection range = .ok (a, b)) : Visible s a b := by
  unfold selection at h
  split at h
  · rename_i a' b' hrange
    obtain ⟨selected, hselected, h⟩ := bind_eq_ok h
    obtain ⟨hsome, h⟩ := unless_eq_ok h
    cases h
    obtain ⟨front, back, hs, rfl, rfl⟩ := slice_eq_ok_iff.mp hselected
    obtain ⟨lead, hlead, hhead⟩ := Text.trimStart_spec selected
    obtain ⟨tail, htail, hlast⟩ := Text.trimEnd_spec selected
    generalize Text.trimStart selected = rest at hsome hlead hhead
    generalize Text.trimEnd selected = kept at hsome htail hlast
    have hleadSize := congrArg utf8Size hlead
    have htailSize := congrArg utf8Size htail
    rw [Text.utf8Size_append] at hleadSize htailSize
    obtain ⟨mid, rfl⟩ := Text.prefix_of_utf8Size_le (hlead.symm.trans htail) (by omega)
    rw [Text.utf8Size_append] at htailSize hsome
    obtain rfl : rest = mid ++ tail := by
      rw [hlead, List.append_assoc] at htail
      exact List.append_cancel_left htail
    have hmid : mid ≠ [] := by
      rintro rfl
      rw [Text.utf8Size_nil] at htailSize hsome
      omega
    refine ⟨mid, slice_eq_ok_iff.mpr ⟨front ++ lead, tail ++ back, ?_, ?_, ?_⟩, ?_, ?_⟩
    · rw [hs, htail]
      simp
    · rw [Text.utf8Size_append]
      omega
    · simp only [Text.utf8Size_append]
      omega
    · obtain ⟨c, rest, rfl⟩ := List.exists_cons_of_ne_nil hmid
      exact ⟨c, rfl, hhead c rfl⟩
    · rw [List.getLast?_append_of_ne_nil _ hmid] at hlast
      obtain ⟨c, hc⟩ := Option.ne_none_iff_exists'.mp (mt List.getLast?_eq_none_iff.mp hmid)
      exact ⟨c, hc, hlast c hc⟩
  · cases h

/-! ## Edits at places -/

/-- An offset that its position leads back to: it does not stand between a carriage return and the end of its line. -/
def IsPlace (s : Source) (o : Nat) : Prop :=
  ∃ front back, s = front ++ back ∧ utf8Size front = o ∧ (front.getLast? ≠ some '\r' ∨ ∃ c ∈ back.head?, c ≠ '\n')

theorem IsPlace.zero (s : Source) : IsPlace s 0 := ⟨[], s, rfl, rfl, Or.inl (by simp)⟩

theorem LineStart.isPlace (h : LineStart s o a) : IsPlace s a := by
  obtain ⟨front, line, back, hs, ha, -, -, hend⟩ := h
  refine ⟨front, line ++ back, by rw [hs, List.append_assoc], ha, Or.inl ?_⟩
  rcases hend with rfl | ⟨init, rfl⟩
  · simp
  · simp

theorem LineEnd.isPlace (h : LineEnd s o b) (hs : s.getLast? ≠ some '\r') : IsPlace s b := by
  obtain ⟨front, line, back, rfl, rfl, rfl, hend⟩ := h
  refine ⟨front ++ line, back, rfl, Text.utf8Size_append _ _, Or.inl ?_⟩
  rcases hend with ⟨-, rfl⟩ | ⟨init, rfl, -⟩
  · rwa [List.append_nil] at hs
  · rw [← List.append_assoc, List.getLast?_concat]
    decide

theorem Visible.isPlace (h : Visible s a b) : IsPlace s a ∧ IsPlace s b := by
  obtain ⟨t, hslice, ⟨c, hc, hfirst⟩, d, hd, hlast⟩ := h
  obtain ⟨front, back, rfl, rfl, rfl⟩ := slice_eq_ok_iff.mp hslice
  have ht : t ≠ [] := by
    rintro rfl
    cases hc
  constructor
  · refine ⟨front, t ++ back, List.append_assoc _ _ _, rfl, Or.inr ⟨c, List.mem_head?_append_of_mem_head? hc, ?_⟩⟩
    rintro rfl
    exact absurd hfirst (by decide)
  · refine ⟨front ++ t, back, rfl, Text.utf8Size_append _ _, Or.inl fun hreturn => ?_⟩
    rw [List.getLast?_append_of_ne_nil _ ht, Option.mem_def.mp hd] at hreturn
    cases hreturn
    exact absurd hlast (by decide)

theorem afterSemicolon_isPlace (h : s.afterSemicolon o = .ok b) (ho : IsPlace s o) : IsPlace s b := by
  rcases afterSemicolon_spec h with rfl | ⟨front, back, rfl, rfl, rfl⟩
  · exact ho
  · have hsize : (';' : Char).utf8Size = 1 := by decide
    exact ⟨front ++ [';'], back, by simp, by simp [hsize], Or.inl (by simp)⟩

theorem exists_positionOf (h : IsCut s o) : ∃ p, s.positionOf o = .ok p := by
  obtain ⟨front, back, rfl, rfl⟩ := h
  have hmin : min (utf8Size front) (utf8Size (front ++ back)) = utf8Size front :=
    Nat.min_eq_left (by rw [Text.utf8Size_append]; omega)
  rw [positionOf, Position.ofOffset?, hmin, Text.splitAtByte?_utf8Size]
  exact ⟨_, rfl⟩

theorem byteOffset?_of_positionOf {p : Position} (h : s.positionOf o = .ok p) (ho : IsPlace s o) :
    p.byteOffset? s = some o := by
  obtain ⟨front, back, rfl, rfl, hplace⟩ := ho
  have hmin : min (utf8Size front) (utf8Size (front ++ back)) = utf8Size front :=
    Nat.min_eq_left (by rw [Text.utf8Size_append]; omega)
  rw [positionOf, Position.ofOffset?, hmin, Text.splitAtByte?_utf8Size] at h
  cases h
  exact Position.byteOffset?_atEnd hplace

/-- The span of an edit is a range of the source, and the edit expects what stands there, when it expects anything. -/
def At (s : Source) (e : TextEdit) (a b : Nat) : Prop :=
  e.location.byteRange? s = some (a, b) ∧ (e.oldText = "" ∨ Text.slice? s a b = some e.oldText.toList)

variable {e : TextEdit} {new : List Char}

theorem At.fits (h : At s e a b) : e.Fits s := ⟨a, b, h⟩

theorem At.describedAs (h : At s e a b) (d : String) : At s (e.describedAs d) a b := h

theorem At.withType (h : At s e a b) (t : EditType) : At s (e.withType t) a b := h

theorem replacing_eq_ok (h : s.replacing a b new = .ok e) : ∃ p q t, s.positionOf a = .ok p ∧ s.positionOf b = .ok q ∧
    s.slice a b = .ok t ∧ e = .replacing (.between p q) (String.ofList t) (String.ofList new) := by
  obtain ⟨p, hp, h⟩ := bind_eq_ok h
  obtain ⟨q, hq, h⟩ := bind_eq_ok h
  obtain ⟨t, ht, h⟩ := bind_eq_ok h
  cases h
  exact ⟨p, q, t, hp, hq, ht, rfl⟩

/-- An edit from the position of `a` to that of `b` that expects the text between them and has another one. -/
structure Replaces (s : Source) (e : TextEdit) (a b : Nat) (new : List Char) : Prop where
  start : s.positionOf a = .ok e.location.start
  stop : s.positionOf b = .ok e.location.stop
  old : s.slice a b = .ok e.oldText.toList
  new : e.newText = String.ofList new

@[simp] theorem replaces_describedAs {d : String} : Replaces s (e.describedAs d) a b new ↔ Replaces s e a b new :=
  ⟨fun ⟨hstart, hstop, hold, hnew⟩ => ⟨hstart, hstop, hold, hnew⟩,
    fun ⟨hstart, hstop, hold, hnew⟩ => ⟨hstart, hstop, hold, hnew⟩⟩

@[simp] theorem replaces_withType {t : EditType} : Replaces s (e.withType t) a b new ↔ Replaces s e a b new :=
  ⟨fun ⟨hstart, hstop, hold, hnew⟩ => ⟨hstart, hstop, hold, hnew⟩,
    fun ⟨hstart, hstop, hold, hnew⟩ => ⟨hstart, hstop, hold, hnew⟩⟩

theorem replaces_of_replacing (h : s.replacing a b new = .ok e) : Replaces s e a b new := by
  obtain ⟨p, q, t, hp, hq, ht, rfl⟩ := replacing_eq_ok h
  exact ⟨hp, hq, by rw [ht]; exact congrArg Except.ok String.toList_ofList.symm, rfl⟩

theorem inserting_eq_ok (h : s.inserting o new = .ok e) :
    ∃ p, s.positionOf o = .ok p ∧ e = .inserting p (String.ofList new) := by
  obtain ⟨p, hp, h⟩ := bind_eq_ok h
  cases h
  exact ⟨p, hp, rfl⟩

theorem newText_of_inserting (h : s.inserting o new = .ok e) : e.newText = String.ofList new := by
  obtain ⟨p, -, rfl⟩ := inserting_eq_ok h
  rfl

theorem exists_replacing (ha : IsCut s a) (hb : IsCut s b) (hle : a ≤ b) (new : List Char) :
    ∃ e, s.replacing a b new = .ok e := by
  obtain ⟨p, hp⟩ := exists_positionOf ha
  obtain ⟨q, hq⟩ := exists_positionOf hb
  obtain ⟨t, ht⟩ := exists_slice ha hb hle
  rw [replacing, hp, hq, ht]
  exact ⟨_, rfl⟩

theorem exists_inserting (ho : IsCut s o) (new : List Char) : ∃ e, s.inserting o new = .ok e := by
  obtain ⟨p, hp⟩ := exists_positionOf ho
  rw [inserting, hp]
  exact ⟨_, rfl⟩

theorem at_of_replacing (h : s.replacing a b new = .ok e) (ha : IsPlace s a) (hb : IsPlace s b) : At s e a b := by
  obtain ⟨p, q, t, hp, hq, ht, rfl⟩ := replacing_eq_ok h
  obtain ⟨-, -, hsize⟩ := slice_spec ht
  refine ⟨?_, Or.inr ?_⟩
  · rw [Span.byteRange?_eq_some_iff]
    exact ⟨byteOffset?_of_positionOf hp ha, byteOffset?_of_positionOf hq hb, by omega⟩
  · rw [TextEdit.replacing, String.toList_ofList]
    exact Text.slice?_eq_some_iff.mpr (slice_eq_ok_iff.mp ht)

theorem at_of_inserting (h : s.inserting o new = .ok e) (ho : IsPlace s o) : At s e o o := by
  obtain ⟨p, hp, rfl⟩ := inserting_eq_ok h
  refine ⟨?_, Or.inl rfl⟩
  rw [Span.byteRange?_eq_some_iff]
  exact ⟨byteOffset?_of_positionOf hp ho, byteOffset?_of_positionOf hp ho, Nat.le_refl o⟩

/-- Two edits, one of which ends where the other one starts or before, overlap only when both are insertions. -/
theorem beside_of_le {e' : TextEdit} {a' b' : Nat} (h : At s e a b) (h' : At s e' a' b') (hle : b ≤ a')
    (hsome : a < b ∨ a' < b') : TextEdit.Beside e e' :=
  Span.not_overlaps_of_byteRange? h.1 h'.1 hsome hle

end Source

end Refactor.Script
