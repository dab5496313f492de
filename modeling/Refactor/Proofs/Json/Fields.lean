import Mathlib.Data.List.Induction
import Mathlib.Data.List.Nodup
import Mathlib.Data.List.Perm.Basic
import Refactor.Json.Decode

/-!
# Fields of documents

An object that is built from fields holds under each key the last value that is given with it, and where no key is given
twice it holds just the fields given. Its fields are then read one by one, whatever their order.

* `Json.lookup_fieldsOf`, `Json.lookup_presentOf` — the fields of a built object
* `Json.fieldsOf_map` — the fields that are held are those given, in the order of their keys
* `Decoder.required_eq`, `Decoder.defaulted_eq`, `Decoder.optional_eq` — a field that is read is looked up
* `Decoder.tagged_eq` — an alternative and what is left of its object
* `Decoder.mapM_eq`, `Decoder.list_eq`, `Decoder.readField_written` — entries, arrays and missing values
-/

namespace Refactor

/-! ## Built objects -/

namespace Json

variable {fields : List (String × Json)} {key : String}

def fieldsOf (fields : List (String × Json)) : List (String × Json) :=
  fields.foldl (fun acc (k, v) => insertField k v acc) []

/-- The fields that are held by the object built from those of some fields that are present. -/
def presentOf (given : List (String × Option Json)) : List (String × Json) :=
  fieldsOf (given.filterMap fun (k, v) => v.map (k, ·))

theorem ofFields_eq (fields : List (String × Json)) : ofFields fields = .obj (fieldsOf fields) := rfl

theorem ofSome_eq (given : List (String × Option Json)) : ofSome given = .obj (presentOf given) := rfl

@[simp]
theorem lookup_cons {α : Type} (key k : String) (v : α) (rest : List (String × α)) :
    ((k, v) :: rest).lookup key = if key = k then some v else rest.lookup key := by
  rw [List.lookup_cons]
  by_cases h : key = k
  · simp [h]
  · rw [beq_eq_false_iff_ne.mpr h, if_neg h]

theorem lookup_insertField (key key' : String) (value : Json) : ∀ fields : List (String × Json),
    (insertField key value fields).lookup key' = if key' = key then some value else fields.lookup key'
  | [] => lookup_cons ..
  | (k, v) :: rest => by
    have ih := lookup_insertField key key' value rest
    rw [insertField]
    split
    · rename_i hk
      subst hk
      rw [lookup_cons, lookup_cons]
      split <;> rfl
    · rename_i hk
      split
      · rw [lookup_cons]
      · rw [lookup_cons, lookup_cons, ih]
        by_cases hkey : key' = key
        · rw [if_neg fun heq => hk (hkey.symm.trans heq), if_pos hkey, if_pos hkey]
        · rw [if_neg hkey, if_neg hkey]

theorem lookup_foldl_insertField (key : String) : ∀ fields acc : List (String × Json),
    (fields.foldl (fun acc (k, v) => insertField k v acc) acc).lookup key =
      (fields.reverse.lookup key).or (acc.lookup key)
  | [], acc => Option.none_or.symm
  | (k, v) :: rest, acc => by
    rw [List.foldl_cons, lookup_foldl_insertField key rest, lookup_insertField, List.reverse_cons, List.lookup_append,
      Option.or_assoc, lookup_cons]
    by_cases hkey : key = k <;> simp [hkey]

theorem lookup_fieldsOf_reverse (fields : List (String × Json)) (key : String) :
    (fieldsOf fields).lookup key = fields.reverse.lookup key :=
  (lookup_foldl_insertField key fields []).trans Option.or_none

theorem get?_ofFields (fields : List (String × Json)) (key : String) :
    (ofFields fields).get? key = fields.reverse.lookup key := by
  have hfind : ∀ fields : List (String × Json), (fields.find? (·.1 == key)).map (·.2) = fields.lookup key := by
    intro fields
    induction fields with
    | nil => rfl
    | cons field rest ih =>
      rw [List.find?_cons, lookup_cons, ← ih]
      by_cases hkey : key = field.1
      · simp [hkey]
      · rw [if_neg hkey, beq_eq_false_iff_ne.mpr (Ne.symm hkey)]
  rw [← lookup_fieldsOf_reverse]
  exact hfind _

theorem lookup_eq_none {α : Type} {fields : List (String × α)} (h : key ∉ fields.map (·.1)) : fields.lookup key = none := by
  rw [List.lookup_eq_none_iff]
  intro field hfield
  rw [bne_iff_ne]
  rintro rfl
  exact h (List.mem_map_of_mem hfield)

@[simp]
theorem lookup_fieldsOf (h : (fields.map (·.1)).Nodup) (key : String) :
    (fieldsOf fields).lookup key = fields.lookup key := by
  rw [lookup_fieldsOf_reverse]
  induction fields with
  | nil => rfl
  | cons field rest ih =>
    obtain ⟨hfresh, hrest⟩ := List.nodup_cons.mp h
    rw [List.reverse_cons, List.lookup_append, ih hrest, lookup_cons, lookup_cons]
    by_cases hkey : key = field.1
    · subst hkey
      simp [lookup_eq_none hfresh]
    · simp [hkey]

theorem lookup_filterMap {given : List (String × Option Json)} (h : (given.map (·.1)).Nodup) (key : String) :
    (given.filterMap fun (k, v) => v.map (k, ·)).lookup key = (given.lookup key).join := by
  induction given with
  | nil => rfl
  | cons field rest ih =>
    obtain ⟨k, v⟩ := field
    obtain ⟨hfresh, hrest⟩ := List.nodup_cons.mp h
    have ih := ih hrest
    by_cases hkey : key = k
    · subst hkey
      rw [lookup_eq_none hfresh] at ih
      cases v <;> simp [ih]
    · cases v <;> simp [lookup_cons, hkey, ih]

@[simp]
theorem lookup_presentOf {given : List (String × Option Json)} (h : (given.map (·.1)).Nodup) (key : String) :
    (presentOf given).lookup key = (given.lookup key).join := by
  rw [presentOf, lookup_fieldsOf, lookup_filterMap h]
  refine h.sublist ?_
  clear h
  induction given with
  | nil => exact List.nil_sublist _
  | cons field rest ih =>
    obtain ⟨k, v⟩ := field
    cases v with
    | none => exact ih.cons k
    | some j => exact ih.cons_cons k

@[simp]
theorem lookup_filter {field : String} (h : key ≠ field) :
    (fields.filter (·.1 != field)).lookup key = fields.lookup key := by
  induction fields with
  | nil => rfl
  | cons first rest ih =>
    obtain ⟨k, v⟩ := first
    rw [List.filter_cons]
    by_cases hk : k = field
    · rw [if_neg (by simp [hk]), ih, lookup_cons, if_neg (hk ▸ h)]
    · rw [if_pos (by simpa using hk), lookup_cons, lookup_cons, ih]

/-! ## Order of fields -/

variable {α : Type} {w : α → String × Json}

theorem insertField_map {a : α} : ∀ {as : List α}, (w a).1 ∉ as.map (fun b => (w b).1) →
    ∃ bs : List α, bs.Perm (a :: as) ∧ insertField (w a).1 (w a).2 (as.map w) = bs.map w
  | [], _ => ⟨[a], List.Perm.refl _, rfl⟩
  | b :: as, h => by
    rw [List.map_cons, List.mem_cons, not_or] at h
    rw [List.map_cons, insertField, if_neg h.1]
    split
    · exact ⟨a :: b :: as, List.Perm.refl _, rfl⟩
    · obtain ⟨bs, hperm, heq⟩ := insertField_map h.2
      exact ⟨b :: bs, (hperm.cons b).trans (List.Perm.swap a b as), congrArg (w b :: ·) heq⟩

theorem fieldsOf_map {as : List α} (h : (as.map fun a => (w a).1).Nodup) :
    ∃ bs : List α, bs.Perm as ∧ fieldsOf (as.map w) = bs.map w := by
  induction as using List.reverseRecOn with
  | nil => exact ⟨[], List.Perm.refl _, rfl⟩
  | append_singleton as a ih =>
    rw [List.map_append, List.nodup_append] at h
    obtain ⟨hinit, -, hfresh⟩ := h
    obtain ⟨bs, hperm, heq⟩ := ih hinit
    have hnotin : (w a).1 ∉ bs.map fun b => (w b).1 := fun hmem =>
      hfresh _ ((hperm.map _).mem_iff.mp hmem) _ (by simp) rfl
    obtain ⟨cs, hcs, hinsert⟩ := insertField_map hnotin
    refine ⟨cs, (hcs.trans (hperm.cons a)).trans (List.perm_append_singleton a as).symm, ?_⟩
    have hstep : fieldsOf ((as ++ [a]).map w) =
        insertField (w a).1 (w a).2 (fieldsOf (as.map w)) := by
      rw [fieldsOf, List.map_append, List.foldl_append]
      rfl
    rw [hstep, heq, hinsert]

end Json

/-! ## Reading fields -/

namespace Decoder

variable {α : Type} {d : Decoder α} {f : α → Json}

@[simp]
theorem ok_bind {α β : Type} (a : α) (k : α → Except String β) : (Except.ok a >>= k) = k a := by
  cases h : k a <;> exact h

@[simp]
theorem pure_eq {α : Type} (a : α) : (pure a : Except String α) = .ok a := by
  rw [pure, Applicative.toPure]
  rfl

@[simp]
theorem record_ofFields (what : String) (names : List String) (fields : List (String × Json)) :
    record what names (.ofFields fields) = .ok (Json.fieldsOf fields) := by
  rw [Json.ofFields_eq, record]

@[simp]
theorem record_ofSome (what : String) (names : List String) (given : List (String × Option Json)) :
    record what names (.ofSome given) = .ok (Json.presentOf given) := by
  rw [Json.ofSome_eq, record]

@[simp]
theorem record_obj (what : String) (names : List String) (fields : List (String × Json)) :
    record what names (.obj fields) = .ok fields := by
  rw [record]

/-- What is read of a field: `missing` when there is none. -/
def readField (missing : Except String α) (d : Decoder α) : Option Json → Except String α
  | none => missing
  | some j => d j

@[simp]
theorem readField_none (missing : Except String α) (d : Decoder α) : readField missing d none = missing := by
  rw [readField]

@[simp]
theorem readField_some (missing : Except String α) (d : Decoder α) (j : Json) : readField missing d (some j) = d j := by
  rw [readField]

def missingField (name : String) : Except String α := .error ("missing field `" ++ name ++ "`")

@[simp]
theorem required_eq (fields : List (String × Json)) (name : String) (d : Decoder α) :
    required fields name d = readField (missingField name) d (fields.lookup name) := by
  unfold required
  cases fields.lookup name <;> rfl

@[simp]
theorem defaulted_eq (fields : List (String × Json)) (name : String) (a : α) (d : Decoder α) :
    defaulted fields name a d = readField (.ok a) d (fields.lookup name) := by
  unfold defaulted
  cases fields.lookup name <;> rfl

@[simp]
theorem optional_eq (fields : List (String × Json)) (name : String) (d : Decoder α) :
    optional fields name d = readField (.ok none) (nullable d) (fields.lookup name) :=
  defaulted_eq ..

theorem nullable_eq {j : Json} {a : α} (h : d j = .ok a) (hnull : j ≠ .null) : nullable d j = .ok (some a) := by
  unfold nullable
  split
  · exact absurd rfl hnull
  · rw [h]
    rfl

/-- A missing value is read as missing, and any other one as what it is read as by itself. -/
theorem readField_map {β : Type} {o : Option β} {f : β → Json} {g : β → α} (h : ∀ b ∈ o, d (f b) = .ok (g b))
    (hnull : ∀ b, f b ≠ .null) : readField (.ok none) (nullable d) (o.map f) = .ok (o.map g) := by
  cases o with
  | none => exact readField_none ..
  | some b => rw [Option.map_some, readField_some, nullable_eq (h b rfl) (hnull b), Option.map_some]

theorem readField_written {o : Option α} (h : ∀ a ∈ o, d (f a) = .ok a) (hnull : ∀ a, f a ≠ .null) :
    readField (.ok none) (nullable d) (o.map f) = .ok o :=
  (readField_map (g := id) h hnull).trans (by rw [Option.map_id, id])

theorem mapM_eq {β : Type} {g : β → Except String α} {f : α → β} : ∀ {as : List α}, (∀ a ∈ as, g (f a) = .ok a) →
    (as.map f).mapM g = .ok as
  | [], _ => rfl
  | a :: as, h => by
    rw [List.map_cons, List.mapM_cons, h a List.mem_cons_self, mapM_eq fun b hb => h b (List.mem_cons_of_mem a hb)]
    rfl

theorem each_eq : ∀ {as : List α}, (∀ a ∈ as, d (f a) = .ok a) → each d (as.map f) = .ok as
  | [], _ => rfl
  | a :: as, h => by
    rw [List.map_cons, each, h a (by simp), each_eq fun b hb => h b (List.mem_cons_of_mem a hb)]
    rfl

theorem list_eq {as : List α} (h : ∀ a ∈ as, d (f a) = .ok a) : list d (Json.list f as) = .ok as := each_eq h

/-- The name of an alternative is read from its field, and the other fields are left. -/
theorem tagged_eq {fields : List (String × Json)} {field s : String} {names : List String}
    (h : fields.lookup field = some (.str s)) (hs : s ∈ names) (what : String) :
    tagged what field names (.obj fields) = .ok (s, .obj (fields.filter (·.1 != field))) := by
  unfold tagged
  dsimp only
  rw [h]
  dsimp only
  rw [tag, nameAmong, if_pos (by simpa using hs)]
  rfl

/-! ## Plain values -/

@[simp]
theorem string_str (s : String) : string (.str s) = .ok s := by
  rw [string]

@[simp]
theorem list_str (ss : List String) : list string (.list .str ss) = .ok ss := list_eq fun s _ => string_str s

@[simp]
theorem readField_str (o : Option String) : readField (.ok none) (nullable string) (o.map .str) = .ok o :=
  readField_written (fun s _ => string_str s) fun _ => Json.noConfusion

@[simp]
theorem boolean_bool (b : Bool) : boolean (.bool b) = .ok b := by
  rw [boolean]

theorem below_nat {bound n : Nat} (h : n < bound) (expected : String) : below bound expected (.nat n) = .ok n := by
  unfold below Json.nat
  dsimp only
  rw [if_pos (by omega)]
  rfl

theorem word32_nat {n : Nat} (h : n < Word.count 32) : word32 (.nat n) = .ok n := below_nat h _

theorem word64_nat {n : Nat} (h : n < Word.count 64) : word64 (.nat n) = .ok n := below_nat h _

theorem size_nat {n : Nat} (h : n < Word.count 64) : size (.nat n) = .ok n := below_nat h _

end Decoder

end Refactor
