import Mathlib.Tactic.Ring
import Refactor.Plan.Basic
import Refactor.Proofs.Path.Segments

/-!
# Names of plans

The text of a name is read as that name: 32 digits are as much as a number of 128 bits needs, and the dashes between their
groups are taken out again.

* `PlanId.hexDigits?_digits` — digits are read as the number they are written from
* `PlanId.ofDigits?_groups` — five groups of digits
* `PlanId.decode_toJson` — the name that is read from the text of a name
-/

namespace Refactor.PlanId

/-! ## Digits -/

/-- A digit as it is read: its value, whether it is a figure or a letter. -/
theorem hexDigits?_hexDigit {m : Nat} (h : m < 16) (cs : List Char) (acc : Nat) :
    hexDigits? (Json.hexDigit m :: cs) acc = hexDigits? cs (acc * 16 + m) := by
  have hdigit : ∀ m < 16, if (Json.hexDigit m).isDigit then (Json.hexDigit m).toLower.toNat = 48 + m
      else (Json.hexDigit m).toLower.toNat = 87 + m ∧ 10 ≤ m := by decide
  have hm := hdigit m h
  rw [hexDigits?]
  split at hm
  · rename_i hfigure
    rw [if_pos hfigure, hm, Nat.add_sub_cancel_left]
  · rename_i hletter
    rw [if_neg hletter, hm.1, if_pos (by simp; omega), Nat.add_sub_cancel_left]

theorem hexDigits?_digits (n : Nat) : ∀ (v acc : Nat) (cs : List Char),
    hexDigits? (digits n v ++ cs) acc = hexDigits? cs (acc * 16 ^ n + v % 16 ^ n) := by
  induction n with
  | zero => intro v acc cs; simp [digits, Nat.mod_one]
  | succ n ih =>
    intro v acc cs
    have hlow : v % 16 < 16 := Nat.mod_lt _ (by decide)
    have hvalue : (acc * 16 ^ n + v / 16 % 16 ^ n) * 16 + v % 16 = acc * 16 ^ (n + 1) + v % 16 ^ (n + 1) := by
      rw [Nat.pow_succ, Nat.mul_comm (16 ^ n) 16, Nat.mod_mul]
      ring
    rw [digits, List.append_assoc, ih, List.singleton_append, hexDigits?_hexDigit hlow, hvalue]

theorem length_digits (n : Nat) : ∀ v : Nat, (digits n v).length = n := by
  induction n with
  | zero => exact fun _ => rfl
  | succ n ih => intro v; rw [digits, List.length_append, ih, List.length_singleton]

theorem mem_digits {c : Char} {n : Nat} : ∀ {v : Nat}, c ∈ digits n v → ∃ m < 16, c = Json.hexDigit m := by
  induction n with
  | zero => intro v h; cases h
  | succ n ih =>
    intro v h
    rcases List.mem_append.mp h with h | h
    · exact ih h
    · exact ⟨v % 16, Nat.mod_lt _ (by decide), List.mem_singleton.mp h⟩

theorem not_mem_digits {c : Char} (hc : c ∈ ['-', '{', 'u']) (n v : Nat) : c ∉ digits n v := by
  have hspecial : ∀ m < 16, Json.hexDigit m ∉ ['-', '{', 'u'] := by decide
  intro h
  obtain ⟨m, hm, rfl⟩ := mem_digits h
  exact hspecial m hm hc

/-! ## Groups -/

/-- The digits of a name in their five groups. -/
def groups (ds : List Char) : List (List Char) :=
  [ds.take 8, (ds.drop 8).take 4, (ds.drop 12).take 4, (ds.drop 16).take 4, ds.drop 20]

theorem text_toList (i : PlanId) : i.text.toList = ['-'].intercalate (groups (digits 32 i.value)) := by
  unfold text
  dsimp only
  rw [toList_joinWith]
  simp [groups]

variable {ds : List Char}

theorem flatten_groups (ds : List Char) : (groups ds).flatten = ds := by
  have h₁ : ds.drop 16 = (ds.drop 16).take 4 ++ ds.drop 20 := by
    rw [show ds.drop 20 = (ds.drop 16).drop 4 by rw [List.drop_drop]]
    exact (List.take_append_drop ..).symm
  have h₂ : ds.drop 12 = (ds.drop 12).take 4 ++ ds.drop 16 := by
    rw [show ds.drop 16 = (ds.drop 12).drop 4 by rw [List.drop_drop]]
    exact (List.take_append_drop ..).symm
  have h₃ : ds.drop 8 = (ds.drop 8).take 4 ++ ds.drop 12 := by
    rw [show ds.drop 12 = (ds.drop 8).drop 4 by rw [List.drop_drop]]
    exact (List.take_append_drop ..).symm
  unfold groups
  simp only [List.flatten_cons, List.flatten_nil, List.append_nil]
  rw [← h₁, ← h₂, ← h₃, List.take_append_drop]

theorem lengths_groups (h : ds.length = 32) : (groups ds).map List.length = [8, 4, 4, 4, 12] := by
  simp [groups, h]

theorem mem_of_mem_groups {g : List Char} (hg : g ∈ groups ds) {c : Char} (hc : c ∈ g) : c ∈ ds := by
  rw [← flatten_groups ds]
  exact List.mem_flatten.mpr ⟨g, hg, hc⟩

theorem ofDigits?_groups (h : ds.length = 32) (hdash : '-' ∉ ds) :
    ofDigits? (['-'].intercalate (groups ds)) = (hexDigits? ds 0).map (⟨·⟩) := by
  have hsplit : (['-'].intercalate (groups ds)).splitOn '-' = groups ds :=
    List.splitOn_intercalate '-' (fun g hg hc => hdash (mem_of_mem_groups hg hc)) (by simp [groups])
  unfold ofDigits?
  dsimp only
  rw [hsplit, flatten_groups, h, lengths_groups h]
  rfl

/-! ## Texts -/

theorem text_cons (i : PlanId) : ∃ c cs, i.text.toList = c :: cs ∧ c ∈ digits 32 i.value := by
  rw [text_toList]
  cases hds : digits 32 i.value with
  | nil =>
    have := length_digits 32 i.value
    rw [hds] at this
    cases this
  | cons c ds => exact ⟨c, _, rfl, by simp⟩

theorem ofText?_text (i : PlanId) (h : i.value < Word.count 128) : ofText? i.text = some i := by
  obtain ⟨c, cs, hcs, hc⟩ := text_cons i
  have hspecial : ∀ d ∈ ['-', '{', 'u'], c ≠ d := by
    rintro d hd rfl
    exact not_mem_digits hd _ _ hc
  have hlead : ∀ (d : Char) (ds : List Char), d ∈ ['-', '{', 'u'] → Text.dropLead? (d :: ds) i.text.toList = none := by
    intro d ds hd
    rw [hcs, Text.dropLead?, if_neg (Ne.symm (hspecial d hd))]
  unfold ofText? afterLead?
  have hname : "urn:uuid:".toList = 'u' :: ['r', 'n', ':', 'u', 'u', 'i', 'd', ':'] := by decide
  rw [hname, hlead 'u' _ (by simp), hlead '{' _ (by simp)]
  show ofDigits? i.text.toList = some i
  have hvalue := hexDigits?_digits 32 i.value 0 []
  rw [List.append_nil] at hvalue
  rw [text_toList, ofDigits?_groups (length_digits _ _) (not_mem_digits (by simp) _ _), hvalue]
  have hmod : i.value % 16 ^ 32 = i.value := Nat.mod_eq_of_lt h
  rw [hexDigits?, hmod, Nat.zero_mul, Nat.zero_add]
  rfl

theorem decode_toJson (i : PlanId) (h : i.value < Word.count 128) : decode i.toJson = .ok i := by
  rw [toJson, decode, ofText?_text i h]

end Refactor.PlanId
