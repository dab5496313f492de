import Refactor.Edit.Codec
import Refactor.Plan.Result
import Refactor.Proofs.Json.Fields
import Refactor.Proofs.Path.Sorted
import Refactor.Proofs.Plan.Names
import Refactor.Proofs.Text.Encoding
import Refactor.Proofs.Text.Offsets

/-!
# Edits, plans and results read back

Reading the document of an edit, an operation, a plan, a preview or a result gives the value again, whichever of its optional
parts are missing. What numbers a document can hold is said for each type, as the numbers here have no bounds of their own. A
map by path comes back as it was from an object, whose fields stand in the order of their texts and not in that of the paths.
The one part that does not come back is a detail of an error that is `null`: it is read as no detail.

* `PathMap.decode_toJson` — maps by path
* `WorkspaceEdit.decode_toJson` — edits of a workspace
* `Operation.decode_toJson` — operations, of every kind
* `Plan.decode_toJson`, `Preview.decode_toJson` — plans and previews
* `ErrorResponse.decode_toJson` — errors, up to a detail that is `null`
* `ApplyResult.decode_toJson`, `ApplyResult.decode_eq_iff` — results
* `decode_written` — all of them
-/

namespace Refactor

open Decoder

/-! ## Edits -/

theorem Position.decode_toJson {p : Position} (h : p.IsWord) : decode p.toJson = .ok p := by
  simp [decode, toJson, word32_nat h.1, word32_nat h.2]

/-- A span whose lines and columns are numbers of 32 bits. -/
def Span.IsWord (s : Span) : Prop :=
  s.startLine < Word.count 32 ∧ s.startColumn < Word.count 32 ∧ s.endLine < Word.count 32 ∧ s.endColumn < Word.count 32

theorem Span.decode_toJson {s : Span} (h : s.IsWord) : decode s.toJson = .ok s := by
  obtain ⟨hline, hcolumn, hline', hcolumn'⟩ := h
  simp [decode, toJson, word32_nat hline, word32_nat hcolumn, word32_nat hline', word32_nat hcolumn']

theorem EditType.decode_text (t : EditType) : decode (.str t.text) = .ok t := by
  cases t <;> rfl

theorem TextEdit.decode_toJson {e : TextEdit} (h : e.location.IsWord) : decode e.toJson = .ok e := by
  simp [decode, toJson, EditType.decode_text, Span.decode_toJson h]

/-! ### Paths -/

@[simp]
theorem Path.decode_toJson (p : Path) : Decoder.path p.toJson = .ok p := by
  rw [toJson, Decoder.path]

@[simp]
theorem Path.decode_list (ps : List Path) : Decoder.list Decoder.path (.list toJson ps) = .ok ps :=
  list_eq fun p _ => p.decode_toJson

@[simp]
theorem Path.readField_toJson (o : Option Path) : readField (.ok none) (nullable Decoder.path) (o.map toJson) = .ok o :=
  readField_written (fun p _ => p.decode_toJson) fun _ => Json.noConfusion

namespace PathMap

variable {α : Type} {d : Decoder α} {f : α → Json} {m : PathMap α}

theorem Sorted.nodup_raw (h : Sorted m) : (m.map fun entry => entry.1.raw).Nodup := by
  rw [List.nodup_iff_pairwise_ne, List.pairwise_map]
  refine h.imp fun {a b} hlt heq => ?_
  have hne := Path.not_beq_of_cmp_lt hlt
  rw [show a.1 = b.1 from congrArg Path.mk heq] at hne
  simp at hne

theorem decode_toJson (h : Sorted m) (hd : ∀ entry ∈ m, d (f entry.2) = .ok entry.2) :
    decode d (m.toJson f) = .ok m := by
  obtain ⟨entries, hperm, hfields⟩ := Json.fieldsOf_map (w := fun entry : Path × α => (entry.1.raw, f entry.2))
    h.nodup_raw
  have hjson : m.toJson f = .obj (entries.map fun entry => (entry.1.raw, f entry.2)) := congrArg Json.obj hfields
  rw [hjson, decode, mapM_eq fun entry hentry => by simp [hd entry (hperm.mem_iff.mp hentry)], ok_bind,
    h.ofList_perm hperm]
  rfl

end PathMap

/-! ### Changes to files -/

theorem FileOperation.decode_toJson (o : FileOperation) : decode o.toJson = .ok o := by
  cases o with
  | move source target overwrite =>
    rw [toJson, Json.ofFields_eq, decode, tagged_eq (s := "move") (by simp) (by simp)]
    simp
  | create path content overwrite =>
    rw [toJson, Json.ofFields_eq, decode, tagged_eq (s := "create") (by simp) (by simp)]
    simp
  | delete path =>
    rw [toJson, Json.ofFields_eq, decode, tagged_eq (s := "delete") (by simp) (by simp)]
    simp

/-- The values of an edit that its type can hold: files are sorted, and lines and columns have 32 bits. -/
structure WorkspaceEdit.Held (w : WorkspaceEdit) : Prop where
  sorted : PathMap.Sorted w.changes
  location : ∀ entry ∈ w.changes, ∀ e ∈ entry.2, e.location.IsWord

theorem WorkspaceEdit.decode_toJson {w : WorkspaceEdit} (h : w.Held) : decode w.toJson = .ok w := by
  have hchanges : PathMap.decode (Decoder.list TextEdit.decode) (w.changes.toJson (Json.list TextEdit.toJson)) =
      .ok w.changes :=
    PathMap.decode_toJson h.sorted fun entry hentry =>
      list_eq fun e he => TextEdit.decode_toJson (h.location entry hentry e he)
  have hoperations : Decoder.list FileOperation.decode (.list FileOperation.toJson w.operations) = .ok w.operations :=
    list_eq fun o _ => o.decode_toJson
  simp [decode, toJson, hchanges, hoperations]

/-! ## Operations -/

theorem MoveSpec.decode_toJson (m : MoveSpec) : decode m.toJson = .ok m := by
  simp [decode, toJson]

def SymbolTarget.Held : SymbolTarget → Prop
  | .position _ p => p.IsWord
  | .name .. => True

theorem SymbolTarget.decode_toJson {t : SymbolTarget} (h : t.Held) : decode t.toJson = .ok t := by
  cases t with
  | position file p =>
    rw [toJson, Json.ofFields_eq, decode, tagged_eq (s := "position") (by simp) (by simp)]
    simp [Position.decode_toJson h]
  | name name file =>
    rw [toJson, Json.ofSome_eq, decode, tagged_eq (s := "name") (by simp) (by simp)]
    simp

def DeleteTarget.Held : DeleteTarget → Prop
  | .symbol _ p => p.IsWord
  | .file _ | .directory _ => True

theorem DeleteTarget.decode_toJson {t : DeleteTarget} (h : t.Held) : decode t.toJson = .ok t := by
  cases t with
  | symbol file p =>
    rw [toJson, Json.ofFields_eq, decode, tagged_eq (s := "symbol") (by simp) (by simp)]
    simp [Position.decode_toJson h]
  | file path =>
    rw [toJson, Json.ofFields_eq, decode, tagged_eq (s := "file") (by simp) (by simp)]
    simp
  | directory path =>
    rw [toJson, Json.ofFields_eq, decode, tagged_eq (s := "directory") (by simp) (by simp)]
    simp

theorem ExtractKind.decode_text (k : ExtractKind) : decode (.str k.text) = .ok k := by
  cases k <;> rfl

theorem InlineKind.decode_text (k : InlineKind) : decode (.str k.text) = .ok k := by
  cases k <;> rfl

namespace Operation

/-- Operations whose positions and spans are made of words. -/
def Held : Operation → Prop
  | .renameSymbol target _ => target.Held
  | .extract _ _ range _ => range.IsWord
  | .inline _ _ position => position.IsWord
  | .delete target => target.Held
  | .renameFile .. | .renameDirectory .. | .move .. | .batchMove .. => True

theorem label_mem (o : Operation) : o.label ∈ labels := by
  cases o <;> simp [label, labels]

theorem decode_toJson {o : Operation} (h : o.Held) : decode o.toJson = .ok o := by
  have hkind : (Json.fieldsOf (("kind", .str o.label) :: o.fields)).lookup "kind" = some (.str o.label) := by
    cases o <;> simp [fields]
  rw [decode, toJson, Json.ofFields_eq, tagged_eq hkind o.label_mem, ok_bind]
  cases o with
  | renameFile oldPath newPath overwrite => simp [label, fields]
  | renameDirectory oldPath newPath overwrite => simp [label, fields]
  | renameSymbol target newName => simp [label, fields, SymbolTarget.decode_toJson h]
  | move source destination overwrite => simp [label, fields]
  | batchMove moves overwrite =>
    have hmoves : Decoder.list MoveSpec.decode (.list MoveSpec.toJson moves) = .ok moves :=
      list_eq fun m _ => m.decode_toJson
    simp [label, fields, hmoves]
  | extract kind file range name => simp [label, fields, kind.decode_text, Span.decode_toJson h]
  | inline kind file position => simp [label, fields, kind.decode_text, Position.decode_toJson h]
  | delete target => simp [label, fields, DeleteTarget.decode_toJson h]

end Operation

/-! ## Plans -/

theorem PlanWarning.decode_toJson (w : PlanWarning) : decode w.toJson = .ok w := by
  obtain ⟨code, message, candidates⟩ := w
  cases candidates with
  | nil => simp [decode, toJson]
  | cons candidate rest => simp [decode, toJson]

theorem PlanWarning.decode_list (ws : List PlanWarning) : Decoder.list decode (.list toJson ws) = .ok ws :=
  list_eq fun w _ => w.decode_toJson

theorem RiskLevel.decode_text (r : RiskLevel) : decode (.str r.text) = .ok r := by
  cases r <;> rfl

def Impact.Held (i : Impact) : Prop := i.estimatedChanges < Word.count 64

theorem Impact.decode_toJson {i : Impact} (h : i.Held) : decode i.toJson = .ok i := by
  simp [decode, toJson, i.risk.decode_text, size_nat h]

/-- Moments that are read as they were written. -/
def Moment.Lawful (τ : Type) [Moment τ] : Prop := ∀ t : τ, parse (encode t) = .ok t

/-- Plans that their type can hold: names have 128 bits, counts have 64, and maps are sorted. -/
structure Plan.Held {τ : Type} (p : Plan τ) : Prop where
  id : p.id.value < Word.count 128
  operation : p.operation.Held
  edit : p.edit.Held
  estimatedChanges : p.estimatedChanges < Word.count 64
  impact : p.impact.Held
  checksums : PathMap.Sorted p.checksums

theorem Plan.decode_toJson {τ : Type} [Moment τ] (hτ : Moment.Lawful τ) {p : Plan τ} (h : p.Held) :
    decode p.toJson = .ok p := by
  have hchecksums : PathMap.decode string (p.checksums.toJson .str) = .ok p.checksums :=
    PathMap.decode_toJson h.checksums fun entry _ => string_str entry.2
  have hmoment : Moment.decode (.str (Moment.encode p.createdAt)) = .ok p.createdAt := hτ p.createdAt
  simp [decode, toJson, PlanId.decode_toJson _ h.id, Operation.decode_toJson h.operation,
    WorkspaceEdit.decode_toJson h.edit, PlanWarning.decode_list, size_nat h.estimatedChanges,
    Impact.decode_toJson h.impact, hchecksums, hmoment]

/-! ## Previews -/

theorem FileChange.decode_text (c : FileChange) : decode (.str c.text) = .ok c := by
  cases c <;> rfl

theorem FilePreview.decode_toJson (f : FilePreview) : decode f.toJson = .ok f := by
  simp [decode, toJson, f.status.decode_text]

structure Preview.Held (p : Preview) : Prop where
  planId : p.planId.value < Word.count 128
  impact : p.impact.Held

theorem Preview.decode_toJson {p : Preview} (h : p.Held) : decode p.toJson = .ok p := by
  have hfiles : Decoder.list FilePreview.decode (.list FilePreview.toJson p.files) = .ok p.files :=
    list_eq fun f _ => f.decode_toJson
  simp [decode, toJson, PlanId.decode_toJson _ h.planId, hfiles, PlanWarning.decode_list, Impact.decode_toJson h.impact]

/-! ## Results -/

theorem ApplyState.decode_text (s : ApplyState) : decode (.str s.text) = .ok s := by
  cases s <;> rfl

/-- Outcomes of a check that their type can hold: exit codes have 32 bits and durations 64. -/
structure ValidationResult.Held (v : ValidationResult) : Prop where
  exitCode : ∀ n ∈ v.exitCode, Word.fitsSigned 32 n = true
  durationMs : v.durationMs < Word.count 64

theorem ValidationResult.decode_toJson {v : ValidationResult} (h : v.Held) : decode v.toJson = .ok v := by
  have hexit : nullable int32 (.ofOption .int v.exitCode) = .ok v.exitCode := by
    cases hcode : v.exitCode with
    | none => rfl
    | some n =>
      have hint : int32 (.int n) = .ok n := by rw [int32, if_pos (h.exitCode n hcode)]
      exact nullable_eq hint Json.noConfusion
  simp [decode, toJson, hexit, word64_nat h.durationMs]

theorem bytesDecode_toJson (b : ByteArray) : bytesDecode (bytesToJson b) = .ok b := by
  have hnumbers : Decoder.list (below 256 "u8") (bytesToJson b) = .ok (b.toList.map UInt8.toNat) := by
    have hjson : bytesToJson b = .list .nat (b.toList.map UInt8.toNat) := by
      simp [bytesToJson, Json.list, Function.comp_def]
    rw [hjson]
    refine list_eq fun n hn => ?_
    obtain ⟨x, _, rfl⟩ := List.mem_map.mp hn
    exact below_nat x.toNat_lt _
  rw [bytesDecode, hnumbers, ok_bind, List.map_map]
  have hback : Nat.toUInt8 ∘ UInt8.toNat = id := funext fun x => UInt8.ofNat_toNat
  rw [hback, List.map_id, Bytes.toList_eq]
  rfl

theorem readField_bytes (o : Option ByteArray) : readField (.ok none) (nullable bytesDecode) (o.map bytesToJson) = .ok o :=
  readField_written (fun b _ => bytesDecode_toJson b) fun _ => Json.noConfusion

theorem RestoreFailure.decode_toJson (f : RestoreFailure) : decode f.toJson = .ok f := by
  simp [decode, toJson, readField_bytes]

/-! ## Errors in results -/

theorem ErrorKind.decode_text (k : ErrorKind) : decode (.str k.text) = .ok k := by
  cases k <;> rfl

namespace ErrorResponse

/-- An error as it is read: a detail that is `null` is no detail. -/
def read (e : ErrorResponse) : ErrorResponse := { e with details := e.details.filter fun j => !j.isNull }

theorem read_eq_iff (e : ErrorResponse) : e.read = e ↔ e.details ≠ some .null := by
  obtain ⟨code, message, category, kind, retryable, details, suggestion⟩ := e
  rw [read, mk.injEq]
  cases details with
  | none => simp
  | some j => cases j <;> simp [Json.isNull]

theorem toJson_eq (e : ErrorResponse) : e.toJson = .ofSome [("code", some (.str e.code)),
    ("message", some (.str e.message)), ("category", some (.str e.category)), ("kind", some (.str e.kind.text)),
    ("retryable", some (.bool e.retryable)), ("details", e.details), ("suggestion", e.suggestion.map .str)] := by
  obtain ⟨code, message, category, kind, retryable, details, suggestion⟩ := e
  cases details <;> cases suggestion <;> rfl

theorem decode_toJson (e : ErrorResponse) : decode e.toJson = .ok e.read := by
  have hdetails : readField (.ok none) (nullable fun j => .ok j) e.details = .ok e.read.details := by
    rw [read]
    cases e.details with
    | none => rfl
    | some j => cases j <;> rfl
  rw [toJson_eq]
  simp [decode, e.kind.decode_text, hdetails, read]

end ErrorResponse

namespace ApplyResult

/-- Results that their type can hold. -/
structure Held (r : ApplyResult) : Prop where
  planId : r.planId.value < Word.count 128
  validation : ∀ v ∈ r.validation, v.Held
  durationMs : r.durationMs < Word.count 64

theorem decode_toJson {r : ApplyResult} (h : r.Held) :
    decode r.toJson = .ok { r with error := r.error.map ErrorResponse.read } := by
  have hhistory : Decoder.list ApplyState.decode (.list (fun s => .str s.text) r.history) = .ok r.history :=
    list_eq fun s _ => s.decode_text
  have hfailures : Decoder.list RestoreFailure.decode (.list RestoreFailure.toJson r.restoreFailures) =
      .ok r.restoreFailures := list_eq fun f _ => f.decode_toJson
  have hvalidation : readField (.ok none) (nullable ValidationResult.decode)
      (r.validation.map ValidationResult.toJson) = .ok r.validation :=
    readField_written (fun v hv => ValidationResult.decode_toJson (h.validation v hv)) fun _ => Json.noConfusion
  have herror : readField (.ok none) (nullable ErrorResponse.decode) (r.error.map ErrorResponse.toJson) =
      .ok (r.error.map ErrorResponse.read) :=
    readField_map (fun e _ => e.decode_toJson) fun _ => Json.noConfusion
  simp [decode, toJson, PlanId.decode_toJson _ h.planId, r.finalState.decode_text, hhistory, hfailures, hvalidation,
    herror, word64_nat h.durationMs]

/-- A result is read as it was written just when no detail of its error is `null`. -/
theorem decode_eq_iff {r : ApplyResult} (h : r.Held) :
    decode r.toJson = .ok r ↔ ∀ e ∈ r.error, e.details ≠ some .null := by
  have hsame : { r with error := r.error.map ErrorResponse.read } = r ↔ r.error.map ErrorResponse.read = r.error := by
    cases r
    simp
  rw [decode_toJson h, Except.ok.injEq, hsame]
  cases r.error with
  | none => simp
  | some e => simp [e.read_eq_iff]

end ApplyResult

/-! ## All forms -/

/-- Operations, edits, plans and previews are read as they were written, and so are the results whose error, if there is
one, has no detail that is `null`. For plans this takes that moments are read as they were written. -/
theorem decode_written :
    (∀ o : Operation, o.Held → Operation.decode o.toJson = .ok o) ∧
    (∀ w : WorkspaceEdit, w.Held → WorkspaceEdit.decode w.toJson = .ok w) ∧
    (∀ (τ : Type) [Moment τ], Moment.Lawful τ → ∀ p : Plan τ, p.Held → Plan.decode p.toJson = .ok p) ∧
    (∀ p : Preview, p.Held → Preview.decode p.toJson = .ok p) ∧
    ∀ r : ApplyResult, r.Held → (ApplyResult.decode r.toJson = .ok r ↔ ∀ e ∈ r.error, e.details ≠ some .null) :=
  ⟨fun _ => Operation.decode_toJson, fun _ => WorkspaceEdit.decode_toJson, fun _ _ hτ _ => Plan.decode_toJson hτ,
    fun _ => Preview.decode_toJson, fun _ => ApplyResult.decode_eq_iff⟩

/-- A plan with two files, whose texts are in another order than their paths. -/
def Plan.sample : Plan where
  id := ⟨0x0123456789abcdef0123456789abcdef⟩
  operation := .extract .variable ⟨"/p/a/b.ts"⟩ ⟨0, 1, 0, 2⟩ "x"
  edit := {
    changes := [(⟨"/p/a/b.ts"⟩, [{ editType := .replace, location := ⟨0, 1, 0, 2⟩, newText := "x" }]), (⟨"/p/a-b"⟩, [])]
    operations := [.move ⟨"/p/a-b"⟩ ⟨"/p/c"⟩ true, .delete ⟨"/p/d"⟩] }
  warnings := [.danglingReferences "", .ambiguousReference "" ["/p/c"]]
  affectedFiles := [⟨"/p/a/b.ts"⟩, ⟨"/p/a-b"⟩]
  estimatedChanges := 3
  checksums := [(⟨"/p/a/b.ts"⟩, "00"), (⟨"/p/a-b"⟩, "11")]
  createdAt := "2024-02-29T12:00:00Z"

/-- A preview of that plan. -/
def Preview.sample : Preview where
  planId := Plan.sample.id
  files := [{ path := ⟨"/p/a-b"⟩, newPath := some ⟨"/p/c"⟩, status := .moved, before := some "", rendered := some "" },
    { path := ⟨"/p/d"⟩, status := .deleted }]
  warnings := Plan.sample.warnings
  impact := Plan.sample.impact

/-- A failed result whose error has the given details. -/
def ApplyResult.sample (details : Option Json) : ApplyResult where
  planId := Plan.sample.id
  history := [.validating, .rollingBack, .released]
  restoreFailures := [{ path := ⟨"/p/a-b"⟩, error := "", priorContent := some ⟨#[0, 255]⟩ }]
  validation := some { passed := false, command := "false", exitCode := some (-1), stdout := "", stderr := "" }
  error := some { ErrorResponse.ofError (.internal "") with details }

theorem Plan.held_sample : Plan.sample.Held where
  id := by decide
  operation := by simp [Plan.sample, Operation.Held, Span.IsWord, Word.count]
  edit := ⟨by simp [Plan.sample, PathMap.Sorted]; decide, by simp [Plan.sample, Span.IsWord, Word.count]⟩
  estimatedChanges := by decide
  impact := (by decide : 0 < Word.count 64)
  checksums := by simp [Plan.sample, PathMap.Sorted]; decide

theorem ApplyResult.held_sample (details : Option Json) : (ApplyResult.sample details).Held where
  planId := Plan.held_sample.id
  validation := by
    rintro v ⟨⟩
    exact ⟨by rintro n ⟨⟩; decide, by decide⟩
  durationMs := (by decide : 0 < Word.count 64)

theorem decode_written_sample :
    Operation.decode Plan.sample.operation.toJson = .ok Plan.sample.operation ∧
    WorkspaceEdit.decode Plan.sample.edit.toJson = .ok Plan.sample.edit ∧
    Plan.decode Plan.sample.toJson = .ok Plan.sample ∧
    Preview.decode Preview.sample.toJson = .ok Preview.sample ∧
    ApplyResult.decode (ApplyResult.sample none).toJson = .ok (ApplyResult.sample none) :=
  ⟨decode_written.1 _ Plan.held_sample.operation, decode_written.2.1 _ Plan.held_sample.edit,
    decode_written.2.2.1 String (fun _ => rfl) _ Plan.held_sample, decode_written.2.2.2.1 _ ⟨Plan.held_sample.id, Plan.held_sample.impact⟩,
    (decode_written.2.2.2.2 _ (ApplyResult.held_sample none)).mpr (by simp [ApplyResult.sample, ErrorResponse.ofError])⟩

/-- A result whose error has a detail that is `null` does not come back. -/
theorem decode_null_detail :
    ApplyResult.decode (ApplyResult.sample (some .null)).toJson ≠ .ok (ApplyResult.sample (some .null)) := by
  rw [Ne, ApplyResult.decode_eq_iff (ApplyResult.held_sample _)]
  simp [ApplyResult.sample, ErrorResponse.ofError]

end Refactor
