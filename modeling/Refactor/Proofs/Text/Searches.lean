import Mathlib.Data.List.Infix
import Mathlib.Data.List.TakeWhile
import Refactor.Text.Basic

/-!
# Searches in a text

* `Text.dropLead?_eq_some`, `Text.dropLead?_eq_none_iff` — a beginning of a text, and its absence
* `Text.splitOnce?_eq_some`, `Text.dropLead?_of_splitOnce?_eq_none` — the first occurrence, and its absence
* `Text.contains_iff_infix` — occurrence as a part
* `Text.splitOnce?_char_iff` — the first place of a character
* `Text.trimStart_spec`, `Text.trimEnd_spec`, `Text.trim_spec` — a text without the white space around it
* `Text.trim_append`, `Text.trim_of_ends`, `Text.trim_eq_nil_iff` — what is cut off, and what is not
* `Text.IsLine`, `Text.flatten_inclusiveLines` — the lines of a text
-/

namespace Refactor.Text

theorem dropLead?_eq_some {p cs rest : List Char} (h : dropLead? p cs = some rest) : cs = p ++ rest := by
  fun_induction dropLead? p cs with
  | case1 cs =>
    cases h
    rfl
  | case2 => cases h
  | case3 p c cs ih => rw [ih h, List.cons_append]
  | case4 => cases h

theorem dropLead?_append (p rest : List Char) : dropLead? p (p ++ rest) = some rest := by
  induction p with
  | nil => rfl
  | cons c p ih => rw [List.cons_append, dropLead?, if_pos rfl, ih]

theorem dropLead?_eq_none_iff {p cs : List Char} : dropLead? p cs = none ↔ ¬ p <+: cs := by
  constructor
  · rintro hnone ⟨rest, rfl⟩
    rw [dropLead?_append] at hnone
    cases hnone
  · intro hnot
    cases hlead : dropLead? p cs with
    | none => rfl
    | some rest =>
      rw [dropLead?_eq_some hlead] at hnot
      exact absurd (List.prefix_append p rest) hnot

/-- A text is cut at the first occurrence: none starts before it. -/
theorem splitOnce?_eq_some {s : List Char} : ∀ {cs front rest : List Char}, splitOnce? s cs = some (front, rest) →
    cs = front ++ (s ++ rest) ∧ ∀ c tail, c :: tail <:+ front → dropLead? s (c :: tail ++ (s ++ rest)) = none
  | [], front, rest, h => by
    rw [splitOnce?] at h
    split at h
    · rename_i hs
      cases h
      rw [List.isEmpty_iff.mp hs]
      exact ⟨rfl, by simp⟩
    · cases h
  | c :: cs, front, rest, h => by
    rw [splitOnce?] at h
    cases hlead : dropLead? s (c :: cs) with
    | some rest' =>
      rw [hlead] at h
      cases h
      exact ⟨by rw [List.nil_append, dropLead?_eq_some hlead], by simp⟩
    | none =>
      rw [hlead] at h
      obtain ⟨⟨front', rest'⟩, hsplit, heq⟩ := Option.map_eq_some_iff.mp h
      cases heq
      obtain ⟨rfl, hnone⟩ := splitOnce?_eq_some hsplit
      refine ⟨rfl, fun d tail hsuffix => ?_⟩
      rcases List.suffix_cons_iff.mp hsuffix with heq | hsuffix
      · rw [heq]
        exact hlead
      · exact hnone d tail hsuffix

theorem dropLead?_of_splitOnce?_eq_none {s : List Char} : ∀ {cs : List Char}, splitOnce? s cs = none →
    ∀ tail, tail <:+ cs → dropLead? s tail = none
  | [], h, tail, hsuffix => by
    rw [List.suffix_nil.mp hsuffix]
    rw [splitOnce?] at h
    cases s with
    | nil => cases h
    | cons c s => rfl
  | c :: cs, h, tail, hsuffix => by
    rw [splitOnce?] at h
    cases hlead : dropLead? s (c :: cs) with
    | some rest =>
      rw [hlead] at h
      cases h
    | none =>
      rw [hlead] at h
      rcases List.suffix_cons_iff.mp hsuffix with rfl | hsuffix
      · exact hlead
      · exact dropLead?_of_splitOnce?_eq_none (Option.map_eq_none_iff.mp h) tail hsuffix

theorem splitOnce?_char_iff {c : Char} : ∀ {cs front rest : List Char},
    splitOnce? [c] cs = some (front, rest) ↔ cs = front ++ c :: rest ∧ c ∉ front
  | [], front, rest => by simp [splitOnce?]
  | d :: cs, front, rest => by
    rw [splitOnce?, dropLead?]
    by_cases hd : c = d
    · subst hd
      cases front with
      | nil => simp [dropLead?]
      | cons a front => simp +contextual [dropLead?]
    · rw [if_neg hd]
      cases front with
      | nil => simp [Ne.symm hd]
      | cons a front =>
        have hcut : (splitOnce? [c] cs).map (fun p => (d :: p.1, p.2)) = some (a :: front, rest) ↔
            d = a ∧ splitOnce? [c] cs = some (front, rest) := by
          cases splitOnce? [c] cs <;> simp [Prod.ext_iff, and_assoc]
        refine hcut.trans ?_
        rw [splitOnce?_char_iff, List.cons_append, List.cons.injEq, List.mem_cons, not_or]
        exact ⟨fun ⟨ha, hcs, hc⟩ => ⟨⟨ha, hcs⟩, ha ▸ hd, hc⟩, fun ⟨⟨ha, hcs⟩, _, hc⟩ => ⟨ha, hcs, hc⟩⟩

theorem contains_iff_infix {p cs : List Char} : contains p cs = true ↔ p <:+: cs := by
  induction cs with
  | nil =>
    rw [List.infix_nil, contains, splitOnce?]
    cases p <;> simp
  | cons c cs ih =>
    rw [List.infix_cons_iff, ← ih, contains, splitOnce?]
    cases hlead : dropLead? p (c :: cs) with
    | none => simp [dropLead?_eq_none_iff.mp hlead, contains]
    | some rest =>
      refine iff_of_true rfl (Or.inl ?_)
      rw [dropLead?_eq_some hlead]
      exact List.prefix_append p rest

/-! ## White space around a text -/

theorem trimStart_spec (cs : List Char) :
    ∃ lead, cs = lead ++ trimStart cs ∧ ∀ c ∈ (trimStart cs).head?, isBlank c = false := by
  refine ⟨cs.takeWhile isBlank, List.takeWhile_append_dropWhile.symm, fun c hc => ?_⟩
  have hhead := List.head?_dropWhile_not isBlank cs
  rw [trimStart] at hc
  rw [Option.mem_def.mp hc] at hhead
  simpa using hhead

theorem trimEnd_spec (cs : List Char) :
    ∃ tail, cs = trimEnd cs ++ tail ∧ ∀ c ∈ (trimEnd cs).getLast?, isBlank c = false := by
  obtain ⟨lead, hlead, hhead⟩ := trimStart_spec cs.reverse
  refine ⟨lead.reverse, ?_, fun c hc => hhead c ?_⟩
  · rw [trimEnd, dropWhileEnd, ← List.reverse_append]
    exact List.reverse_eq_iff.mp hlead
  · rwa [trimEnd, dropWhileEnd, List.getLast?_reverse] at hc

theorem trimStart_append {lead : List Char} (h : ∀ c ∈ lead, isBlank c = true) (cs : List Char) :
    trimStart (lead ++ cs) = trimStart cs :=
  List.dropWhile_append_of_pos h

theorem trimEnd_append (cs : List Char) {tail : List Char} (h : ∀ c ∈ tail, isBlank c = true) :
    trimEnd (cs ++ tail) = trimEnd cs := by
  rw [trimEnd, trimEnd, dropWhileEnd, dropWhileEnd, List.reverse_append,
    List.dropWhile_append_of_pos fun c hc => h c (List.mem_reverse.mp hc)]

theorem trim_append {lead tail : List Char} (cs : List Char) (hlead : ∀ c ∈ lead, isBlank c = true)
    (htail : ∀ c ∈ tail, isBlank c = true) : trim (lead ++ cs ++ tail) = trim cs := by
  rw [trim, List.append_assoc, trimStart_append hlead, trimStart, List.dropWhile_append]
  split
  · rename_i hnil
    have hblank : tail.dropWhile isBlank = [] := List.dropWhile_eq_nil_iff.mpr htail
    rw [hblank, trim, trimStart, List.isEmpty_iff.mp hnil]
  · exact trimEnd_append _ htail

theorem trim_of_ends {cs : List Char} (hhead : ∀ c ∈ cs.head?, isBlank c = false)
    (hlast : ∀ c ∈ cs.getLast?, isBlank c = false) : trim cs = cs := by
  have hstart : ∀ {ds : List Char}, (∀ c ∈ ds.head?, isBlank c = false) → ds.dropWhile isBlank = ds := by
    intro ds hds
    cases ds with
    | nil => rfl
    | cons d ds => rw [List.dropWhile_cons_of_neg (by simpa using hds d rfl)]
  rw [trim, trimStart, hstart hhead, trimEnd, dropWhileEnd, hstart (by rwa [List.head?_reverse]), List.reverse_reverse]

theorem trim_spec (cs : List Char) : ∃ lead tail, cs = lead ++ trim cs ++ tail ∧ (∀ c ∈ lead, isBlank c = true) ∧
    ∀ c ∈ tail, isBlank c = true := by
  refine ⟨cs.takeWhile isBlank, ((trimStart cs).reverse.takeWhile isBlank).reverse, ?_, fun c hc => List.mem_takeWhile_imp hc,
    fun c hc => List.mem_takeWhile_imp (List.mem_reverse.mp hc)⟩
  rw [List.append_assoc, trim, trimEnd, dropWhileEnd, ← List.reverse_append, List.takeWhile_append_dropWhile,
    List.reverse_reverse, trimStart, List.takeWhile_append_dropWhile]

theorem trim_eq_nil_iff {cs : List Char} : trim cs = [] ↔ ∀ c ∈ cs, isBlank c = true := by
  constructor
  · intro hnil
    obtain ⟨lead, tail, hcs, hlead, htail⟩ := trim_spec cs
    rw [hnil, List.append_nil] at hcs
    rw [hcs]
    exact List.forall_mem_append.mpr ⟨hlead, htail⟩
  · intro h
    have hnone := @trim_append cs [] [] h (by simp)
    rwa [List.append_nil, List.append_nil] at hnone

/-! ## Lines -/

theorem flatten_inclusiveLines (cs : List Char) : (inclusiveLines cs).flatten = cs := by
  unfold inclusiveLines
  fun_induction inclusiveLines.go cs with
  | case1 => rfl
  | case2 c cs hc ih => rw [List.flatten_cons, ih, List.singleton_append]
  | case3 c cs hc hnil ih =>
    rw [hnil] at ih
    rw [← ih]
    rfl
  | case4 c cs hc l ls hcons ih =>
    rw [hcons] at ih
    rw [← ih]
    rfl

theorem not_mem_of_mem_splitOn {α : Type} [BEq α] [LawfulBEq α] {x : α} {part : List α} :
    ∀ {xs : List α}, part ∈ xs.splitOn x → x ∉ part
  | [], h => by
    simp only [List.splitOn_nil, List.mem_singleton] at h
    simp [h]
  | a :: xs, h => by
    rw [List.splitOn_cons_eq_if_modifyHead] at h
    split at h
    · rcases List.mem_cons.mp h with rfl | h
      · simp
      · exact not_mem_of_mem_splitOn h
    · rename_i hax
      cases hs : xs.splitOn x with
      | nil => exact absurd hs (by simp)
      | cons first rest =>
        rw [hs, List.modifyHead_cons] at h
        rcases List.mem_cons.mp h with rfl | h
        · have hfirst : x ∉ first := @not_mem_of_mem_splitOn α _ _ x first xs (by simp [hs])
          simp only [beq_iff_eq] at hax
          simp [hfirst, Ne.symm hax]
        · exact @not_mem_of_mem_splitOn α _ _ x part xs (by simp [hs, h])

def IsLine (cs : List Char) : Prop := ∀ front back, cs = front ++ '\n' :: back → back = []

theorem IsLine.of_append (front : List Char) {cs : List Char} (h : IsLine (front ++ cs)) : IsLine cs := by
  rintro front' back rfl
  exact h (front ++ front') back (by simp)

theorem isLine_singleton (c : Char) : IsLine [c] := by
  intro front back heq
  cases front with
  | nil => exact (List.cons.inj heq).2.symm
  | cons d front => exact absurd (List.cons.inj heq).2 (by simp)

theorem IsLine.cons {c : Char} {cs : List Char} (hc : c ≠ '\n') (h : IsLine cs) : IsLine (c :: cs) := by
  intro front back heq
  cases front with
  | nil => exact absurd (List.cons.inj heq).1 hc
  | cons d front => exact h front back (List.cons.inj heq).2

theorem isLine_of_mem_inclusiveLines {cs line : List Char} (h : line ∈ inclusiveLines cs) : IsLine line := by
  unfold inclusiveLines at h
  fun_induction inclusiveLines.go cs generalizing line with
  | case1 => cases h
  | case2 c cs hc ih =>
    rcases List.mem_cons.mp h with rfl | h
    · exact isLine_singleton c
    · exact ih h
  | case3 c cs hc hnil ih =>
    rw [List.mem_singleton.mp h]
    exact isLine_singleton c
  | case4 c cs hc l ls hcons ih =>
    rcases List.mem_cons.mp h with rfl | h
    · exact IsLine.cons (by simpa using hc) (ih (hcons ▸ List.mem_cons_self))
    · exact ih (hcons ▸ List.mem_cons_of_mem l h)

end Refactor.Text
