import Refactor.Proofs.Text.Encoding
import Refactor.Proofs.Text.Searches
import Refactor.Server.Message

/-!
# Frames and back

Messages are sent one behind the other, each behind its header. A reader takes the header line by line and then as many
bytes as the header announced, without looking at them, so it stands at the next header again. Lines before and behind the
one that announces the length do not matter: before it blank lines and other headers, behind it other headers only, since
there a blank line begins the body.

* `Frame.Line`, `Frame.splitLine_sent` — a line of a header, and that it is read as one
* `Frame.headers_lead`, `Frame.headers_announcement`, `Frame.headers_after` — what the lines of a header do
* `Frame.Framed`, `Frame.next_framed` — a message with its header is read as this message, whatever follows
* `Frame.Reads` — reading a stream again and again until it ended
* `Frame.readAll_framed` — messages that were sent are read, all of them and in their order
-/

namespace Refactor.Frame

/-- What sends a byte at least for every item is no shorter than the items. -/
theorem length_le_flatMap {α β : Type} {f : α → List β} (h : ∀ a, 0 < (f a).length) :
    ∀ items : List α, items.length ≤ (items.flatMap f).length
  | [] => Nat.zero_le _
  | a :: items => by
    have ih := length_le_flatMap h items
    have ha := h a
    rw [List.flatMap_cons, List.length_append, List.length_cons]
    omega

/-! ## Bytes of texts -/

theorem bytes_append (s t : String) : bytes (s ++ t) = bytes s ++ bytes t := by
  rw [bytes, bytes, bytes, Bytes.toList_ofText, Bytes.toList_ofText, Bytes.toList_ofText, String.toList_append,
    List.flatMap_append]

theorem bytes_newline : bytes "\n" = [10] := by
  rw [bytes, Bytes.toList_ofText]
  decide

/-- Only a newline has the byte of a newline. -/
theorem newline_mem_bytes_iff (s : String) : 10 ∈ bytes s ↔ '\n' ∈ s.toList := by
  have hchar : ∀ c, 10 ∈ String.utf8EncodeChar c ↔ c = '\n' := fun c => Bytes.mem_utf8EncodeChar_iff (d := '\n') (by decide)
  simp [bytes, Bytes.toList_ofText, List.mem_flatMap, hchar]

/-! ## Lines -/

structure Line where
  text : String
  unbroken : '\n' ∉ text.toList

namespace Line

def sent (l : Line) : List UInt8 := bytes (l.text ++ "\n")

def IsBlank (l : Line) : Prop := ∀ c ∈ l.text.toList, Text.isBlank c = true

instance (l : Line) : Decidable l.IsBlank :=
  decidable_of_iff (l.text.toList.all Text.isBlank = true) List.all_eq_true

/-- The name of a header: the text before the first colon, without the white space around it, in lower case. -/
def name? (l : Line) : Option (List Char) :=
  (Text.splitOnce? [':'] l.text.toList).map fun (name, _) => Text.lowerAscii (Text.trim name)

/-- A line that says nothing about a length: it has another name, or none. -/
def IsOther (l : Line) : Prop := ¬ l.IsBlank ∧ l.name? ≠ some "content-length".toList

instance (l : Line) : Decidable l.IsOther :=
  inferInstanceAs (Decidable (¬ l.IsBlank ∧ l.name? ≠ some "content-length".toList))

variable (l : Line)

theorem sent_eq : l.sent = bytes l.text ++ [10] := by
  rw [sent, bytes_append, bytes_newline]

theorem length_sent_pos : 0 < l.sent.length := by
  simp [sent_eq]

theorem trim_eq_nil_iff {l : Line} : Text.trim l.text.toList = [] ↔ l.IsBlank := Text.trim_eq_nil_iff

theorem trim_sent : Text.trim (l.text ++ "\n").toList = Text.trim l.text.toList := by
  have htrim := @Text.trim_append [] ['\n'] l.text.toList (by simp) (List.forall_mem_singleton.mpr rfl)
  rw [String.toList_append]
  exact htrim

theorem IsOther.contentLength? {l : Line} (h : l.IsOther) : Frame.contentLength? (Text.trim l.text.toList) = none := by
  unfold Frame.contentLength?
  cases hcut : Text.splitOnce? [':'] (Text.trim l.text.toList) with
  | none => rfl
  | some cut =>
    obtain ⟨name, value⟩ := cut
    obtain ⟨hcut, hcolon⟩ := Text.splitOnce?_char_iff.mp hcut
    -- the white space before the line belongs to what stands before its colon, and is no part of the name
    obtain ⟨lead, tail, htext, hlead, -⟩ := Text.trim_spec l.text.toList
    have hleadColon : ':' ∉ lead := fun hmem => absurd (hlead _ hmem) (by decide)
    have hwhole : Text.splitOnce? [':'] l.text.toList = some (lead ++ name, value ++ tail) := by
      refine Text.splitOnce?_char_iff.mpr ⟨?_, List.mem_append.not.mpr (not_or.mpr ⟨hleadColon, hcolon⟩)⟩
      rw [htext, hcut]
      simp
    have hname : Text.trim (lead ++ name) = Text.trim name := by
      have htrim := @Text.trim_append lead [] name hlead (by simp)
      rwa [List.append_nil] at htrim
    have hother : Text.lowerAscii (Text.trim name) ≠ "content-length".toList := fun heq => h.2 <| by
      rw [Line.name?, hwhole, ← heq, ← hname]
      rfl
    exact if_neg (by simpa using hother)

end Line

theorem splitLine_append {line : List UInt8} (h : 10 ∉ line) (rest : List UInt8) :
    splitLine (line ++ 10 :: rest) = (line ++ [10], rest) := by
  induction line with
  | nil => rfl
  | cons b line ih =>
    rw [List.mem_cons, not_or] at h
    rw [List.cons_append, splitLine, if_neg (by simpa using Ne.symm h.1), ih h.2]
    rfl

theorem splitLine_sent (l : Line) (rest : List UInt8) : splitLine (l.sent ++ rest) = (l.sent, rest) := by
  rw [Line.sent_eq, List.append_assoc]
  exact splitLine_append (fun hmem => l.unbroken ((newline_mem_bytes_iff _).mp hmem)) rest

/-! ## Headers -/

/-- A line is read as a whole, and what is done depends on its text. -/
theorem headers_sent (ended : Bool) (fuel : Nat) (length : Option Nat) (l : Line) (rest : List UInt8) :
    headers ended (fuel + 1) length (l.sent ++ rest) =
      if l.IsBlank then length.elim (headers ended fuel none rest) fun n => body ended n rest
      else headers ended fuel ((contentLength? (Text.trim l.text.toList)).or length) rest := by
  have hne : l.sent.isEmpty = false := by simp [Line.sent_eq]
  have hlast : l.sent.getLast? = some 10 := by simp [Line.sent_eq]
  have htext : Bytes.text? ⟨l.sent.toArray⟩ = some (l.text ++ "\n") := Bytes.text?_toList_ofText _
  rw [headers, splitLine_sent]
  simp only [hne, hlast, htext, Line.trim_sent, bne_self_eq_false, Bool.false_and, Bool.false_eq_true, if_false]
  by_cases hblank : l.IsBlank
  · rw [if_pos hblank, Line.trim_eq_nil_iff.mpr hblank]
    cases length <;> rfl
  · rw [if_neg hblank]
    split
    · exact absurd (Line.trim_eq_nil_iff.mp ‹_›) hblank
    · exact absurd (Line.trim_eq_nil_iff.mp ‹_›) hblank
    · rfl

variable {ended : Bool} {l : Line}

theorem headers_other (h : l.IsOther) (fuel : Nat) (length : Option Nat) (rest : List UInt8) :
    headers ended (fuel + 1) length (l.sent ++ rest) = headers ended fuel length rest := by
  rw [headers_sent, if_neg h.1, h.contentLength?]
  rfl

/-- Before the length is known, blank lines and other headers do nothing. -/
theorem headers_lead (fuel : Nat) (rest : List UInt8) : ∀ {lead : List Line}, (∀ l ∈ lead, l.IsBlank ∨ l.IsOther) →
    headers ended (fuel + lead.length) none (lead.flatMap Line.sent ++ rest) = headers ended fuel none rest
  | [], _ => rfl
  | l :: lead, h => by
    obtain ⟨hl, hlead⟩ := List.forall_mem_cons.mp h
    rw [List.flatMap_cons, List.append_assoc, List.length_cons, ← Nat.add_assoc, ← headers_lead fuel rest hlead]
    rcases hl with hl | hl
    · rw [headers_sent, if_pos hl]
      rfl
    · exact headers_other hl _ _ _

/-- Other headers do nothing. -/
theorem headers_after (fuel : Nat) (length : Option Nat) (rest : List UInt8) : ∀ {after : List Line},
    (∀ l ∈ after, l.IsOther) →
    headers ended (fuel + after.length) length (after.flatMap Line.sent ++ rest) = headers ended fuel length rest
  | [], _ => rfl
  | l :: after, h => by
    obtain ⟨hl, hafter⟩ := List.forall_mem_cons.mp h
    rw [List.flatMap_cons, List.append_assoc, List.length_cons, ← Nat.add_assoc, headers_other hl,
      headers_after fuel length rest hafter]

/-! ## Lengths -/

theorem toList_toString (n : Nat) : (toString n).toList = Nat.toDigits 10 n := by
  rw [Nat.toString_eq_ofList_toDigits, String.toList_ofList]

theorem toString_ne_nil (n : Nat) : (toString n).toList ≠ [] := by
  rw [toList_toString]
  exact Nat.toDigits_ne_nil

theorem isDigit_of_mem_toString {n : Nat} {c : Char} (h : c ∈ (toString n).toList) : c.isDigit = true := by
  rw [toList_toString] at h
  exact Nat.isDigit_of_mem_toDigits (by decide) (by decide) h

theorem not_isBlank_of_isDigit {c : Char} (h : c.isDigit = true) : Text.isBlank c = false := by
  have hbounds : 48 ≤ c.toNat ∧ c.toNat ≤ 57 := by
    simpa [Char.isDigit, UInt32.le_iff_toNat_le] using h
  unfold Text.isBlank
  simp only [Bool.or_eq_false_iff, Bool.and_eq_false_iff, decide_eq_false_iff_not, beq_eq_false_iff_ne]
  omega

theorem not_isBlank_of_last (front : List Char) (n : Nat) {c : Char} (hc : c ∈ (front ++ (toString n).toList).getLast?) :
    Text.isBlank c = false := by
  rw [List.getLast?_append_of_ne_nil _ (toString_ne_nil n)] at hc
  exact not_isBlank_of_isDigit (isDigit_of_mem_toString (List.mem_of_getLast? hc))

theorem length?_toString {n : Nat} (h : n < Word.count 64) : length? (toString n).toList = some n := by
  have hsign : Text.dropLead? ['+'] (toString n).toList = none := by
    refine Text.dropLead?_eq_none_iff.mpr fun ⟨rest, hplus⟩ => ?_
    have hdigit : '+' ∈ (toString n).toList := hplus ▸ List.mem_cons_self
    exact absurd (isDigit_of_mem_toString hdigit) (by decide)
  have hall : (toString n).toList.all Char.isDigit = true := List.all_eq_true.mpr fun c hc => isDigit_of_mem_toString hc
  have hne : (toString n).toList.isEmpty = false := List.isEmpty_eq_false_iff.mpr (toString_ne_nil n)
  have hvalue : (toString n).toList.foldl (fun n c => 10 * n + (c.toNat - 48)) 0 = n := by
    rw [toList_toString]
    exact Nat.ofDigitChars_ten_toDigits
  rw [length?, hsign, Option.getD_none]
  dsimp only
  rw [hne, hall, hvalue, if_neg (by simp), if_pos h]

def announcementText (n : Nat) : String := "Content-Length: " ++ toString n ++ "\r"

theorem toList_announcementText (n : Nat) :
    (announcementText n).toList = "Content-Length".toList ++ ([':', ' '] ++ (toString n).toList) ++ ['\r'] := by
  have hname : "Content-Length: ".toList = "Content-Length".toList ++ [':', ' '] := rfl
  have htext : (announcementText n).toList = "Content-Length: ".toList ++ (toString n).toList ++ ['\r'] :=
    String.toList_append.trans (congrArg (· ++ ['\r']) String.toList_append)
  rw [htext, hname, List.append_assoc _ [':', ' ']]

/-- The line that announces the length of a body. -/
def announcement (n : Nat) : Line where
  text := announcementText n
  unbroken := by
    rw [toList_announcementText, List.mem_append, List.mem_append, List.mem_append, not_or, not_or, not_or]
    exact ⟨⟨by decide, by decide, fun hdigit => absurd (isDigit_of_mem_toString hdigit) (by decide)⟩, by decide⟩

theorem trim_announcement (n : Nat) :
    Text.trim (announcement n).text.toList = "Content-Length".toList ++ ':' :: ' ' :: (toString n).toList := by
  have htrim := @Text.trim_append [] ['\r'] ("Content-Length".toList ++ ([':', ' '] ++ (toString n).toList)) (by simp)
    (List.forall_mem_singleton.mpr rfl)
  have hends : ∀ c ∈ ("Content-Length".toList ++ ([':', ' '] ++ (toString n).toList)).getLast?, Text.isBlank c = false := by
    rw [← List.append_assoc]
    exact fun c => not_isBlank_of_last _ n
  rw [announcement, toList_announcementText]
  refine htrim.trans (Text.trim_of_ends (fun c hc => ?_) hends)
  cases hc
  decide

theorem trim_digits (n : Nat) : Text.trim (' ' :: (toString n).toList) = (toString n).toList := by
  have htrim := @Text.trim_append [' '] [] (toString n).toList (List.forall_mem_singleton.mpr rfl) (by simp)
  rw [List.append_nil, List.singleton_append] at htrim
  rw [htrim]
  exact Text.trim_of_ends (fun c hc => not_isBlank_of_isDigit (isDigit_of_mem_toString (List.mem_of_head? hc)))
    fun c hc => not_isBlank_of_last [] n hc

theorem contentLength?_of_name {line name value : List Char} (hcut : Text.splitOnce? [':'] line = some (name, value))
    (hname : (Text.lowerAscii (Text.trim name) == "content-length".toList) = true) :
    contentLength? line = length? (Text.trim value) := by
  unfold contentLength?
  rw [hcut]
  exact if_pos hname

theorem contentLength?_announcement {n : Nat} (h : n < Word.count 64) :
    contentLength? (Text.trim (announcement n).text.toList) = some n := by
  rw [contentLength?_of_name (Text.splitOnce?_char_iff.mpr ⟨trim_announcement n, by decide⟩) (by decide), trim_digits,
    length?_toString h]

theorem headers_announcement {n : Nat} (h : n < Word.count 64) (fuel : Nat) (length : Option Nat) (rest : List UInt8) :
    headers ended (fuel + 1) length ((announcement n).sent ++ rest) = headers ended fuel (some n) rest := by
  have htext : ¬ (announcement n).IsBlank := by
    rw [← Line.trim_eq_nil_iff, trim_announcement]
    exact List.append_ne_nil_of_right_ne_nil _ (List.cons_ne_nil _ _)
  rw [headers_sent, if_neg htext, contentLength?_announcement h]
  rfl

def headerEnd : Line := ⟨"\r", by decide⟩

theorem encode_eq (m : Json) :
    encode m = (announcement (bytes m.render).length).sent ++ (headerEnd.sent ++ bytes m.render) := by
  have hlines : ∀ text cr nl : String, bytes (text ++ (cr ++ nl ++ (cr ++ nl))) = bytes (text ++ cr ++ nl) ++ bytes (cr ++ nl) :=
    fun text cr nl => by simp only [bytes_append, List.append_assoc]
  have hend : "\r\n\r\n" = "\r" ++ "\n" ++ ("\r" ++ "\n") := rfl
  have hheader : bytes ("Content-Length: " ++ toString (bytes m.render).length ++ "\r\n\r\n") =
      (announcement (bytes m.render).length).sent ++ headerEnd.sent :=
    (congrArg (fun e => bytes ("Content-Length: " ++ toString (bytes m.render).length ++ e)) hend).trans (hlines _ _ _)
  exact (congrArg (· ++ bytes m.render) hheader).trans (List.append_assoc _ _ _)

theorem splitLine_encode (m : Json) :
    splitLine (encode m) = ((announcement (bytes m.render).length).sent, headerEnd.sent ++ bytes m.render) := by
  rw [encode_eq, splitLine_sent]

/-! ## Messages -/

/-- A message as it may be sent: lines may stand before the one that announces its length, and behind it. The body of a
message is kept in memory, so its length is a word. -/
structure Framed where
  message : Json
  lead : List Line
  after : List Line
  lead_spare : ∀ l ∈ lead, l.IsBlank ∨ l.IsOther
  after_other : ∀ l ∈ after, l.IsOther
  fits : (bytes message.render).length < Word.count 64

/-- The bytes that are sent: those of the encoded message, with the other lines around its first one. -/
def Framed.sent (f : Framed) : List UInt8 :=
  f.lead.flatMap Line.sent ++ (splitLine (encode f.message)).1 ++ f.after.flatMap Line.sent ++ (splitLine (encode f.message)).2

theorem Framed.length_sent_pos (f : Framed) : 0 < f.sent.length := by
  have hend := headerEnd.length_sent_pos
  simp only [sent, splitLine_encode, List.length_append]
  omega

/-- A body is read as the message whose text it is, and reading stops right behind it. -/
theorem body_bytes (ended : Bool) {m : Json} (hparse : Json.parse m.render.toList = .ok m) (rest : List UInt8) :
    body ended (bytes m.render).length (bytes m.render ++ rest) = .message m rest := by
  have htext : Bytes.text? ⟨(bytes m.render).toArray⟩ = some m.render := Bytes.text?_toList_ofText _
  have hlength : ¬ (bytes m.render ++ rest).length < (bytes m.render).length := by
    rw [List.length_append]
    omega
  rw [body, if_neg hlength, List.take_left' rfl, List.drop_left' rfl, htext, Option.map_some, hparse]

/-- A message is read with its header and nothing behind it, whatever lines stand in the header and whatever follows. -/
theorem next_framed (ended : Bool) (f : Framed) (hparse : Json.parse f.message.render.toList = .ok f.message)
    (rest : List UInt8) : next ended (f.sent ++ rest) = .message f.message rest := by
  have hsent : f.sent ++ rest = f.lead.flatMap Line.sent ++ ((announcement (bytes f.message.render).length).sent ++
      (f.after.flatMap Line.sent ++ (headerEnd.sent ++ (bytes f.message.render ++ rest)))) := by
    rw [Framed.sent, splitLine_encode]
    simp only [List.append_assoc]
  -- every line has a byte of its own, so there is fuel for all of them
  obtain ⟨spare, hfuel⟩ : ∃ spare, (f.sent ++ rest).length + 1 = spare + 1 + f.after.length + 1 + f.lead.length := by
    have hlead := length_le_flatMap Line.length_sent_pos f.lead
    have hafter := length_le_flatMap Line.length_sent_pos f.after
    have hannounced := (announcement (bytes f.message.render).length).length_sent_pos
    have hend := headerEnd.length_sent_pos
    refine ⟨(f.sent ++ rest).length - f.after.length - f.lead.length - 1, ?_⟩
    rw [hsent]
    simp only [List.length_append]
    omega
  rw [next, hfuel, hsent, headers_lead _ _ f.lead_spare, headers_announcement f.fits, headers_after _ _ _ f.after_other,
    headers_sent, if_pos (by decide)]
  exact body_bytes ended hparse rest

/-! ## Streams -/

/-- Reading a whole stream again and again gives these messages, and then finds that it ended. -/
inductive Reads : List UInt8 → List Json → Prop where
  | ended {stream : List UInt8} (h : next true stream = .ended) : Reads stream []
  | message {stream rest : List UInt8} {m : Json} {ms : List Json} (h : next true stream = .message m rest)
      (hrest : Reads rest ms) : Reads stream (m :: ms)

theorem Reads.readFrom {stream : List UInt8} {ms : List Json} (h : Reads stream ms) : ∀ {fuel}, ms.length < fuel →
    Frame.readFrom fuel stream = (ms, .clean) := by
  induction h with
  | ended h =>
    rintro (_ | fuel) hfuel
    · exact absurd hfuel (Nat.not_lt_zero _)
    · rw [Frame.readFrom, h]
  | message h _ ih =>
    rintro (_ | fuel) hfuel
    · exact absurd hfuel (Nat.not_lt_zero _)
    · rw [Frame.readFrom, h]
      dsimp only
      rw [ih (Nat.lt_of_succ_lt_succ hfuel)]

theorem reads_framed : ∀ {fs : List Framed}, (∀ f ∈ fs, Json.parse f.message.render.toList = .ok f.message) →
    Reads (fs.flatMap Framed.sent) (fs.map Framed.message)
  | [], _ => .ended rfl
  | f :: fs, hparse => by
    obtain ⟨hf, hfs⟩ := List.forall_mem_cons.mp hparse
    rw [List.flatMap_cons, List.map_cons]
    exact .message (next_framed true f hf _) (reads_framed hfs)

/-- Messages that were sent one behind the other are read in their order, and then the stream has ended. -/
theorem readAll_framed (fs : List Framed) (hparse : ∀ f ∈ fs, Json.parse f.message.render.toList = .ok f.message) :
    Reads (fs.flatMap Framed.sent) (fs.map Framed.message) ∧
      readAll (fs.flatMap Framed.sent) = (fs.map Framed.message, .clean) := by
  refine ⟨reads_framed hparse, (reads_framed hparse).readFrom ?_⟩
  rw [List.length_map]
  exact Nat.lt_succ_of_le (length_le_flatMap Framed.length_sent_pos fs)

/-- A message whose text looks like a header, among lines that do not matter. -/
def disguised : Framed where
  message := .ofFields [("method", .str "Content-Length: 3\r\n\r\n[]\né")]
  lead := [⟨"\r", by decide⟩, ⟨" Trace : Content-Length: 1\r", by decide⟩]
  after := [⟨"content-type: application/vscode-jsonrpc; charset=utf-8\r", by decide⟩, ⟨"é\r", by decide⟩]
  lead_spare := by decide
  after_other := by decide
  fits := by
    rw [bytes, Bytes.toList_ofText]
    decide +kernel

/-- A message with nothing around it. -/
def plain : Framed where
  message := .arr [.int 1, .null]
  lead := []
  after := []
  lead_spare := by simp
  after_other := by simp
  fits := by
    rw [bytes, Bytes.toList_ofText]
    decide +kernel

theorem readAll_framed_disguised : (∀ f ∈ [disguised, plain], Json.parse f.message.render.toList = .ok f.message) ∧
    Reads (disguised.sent ++ plain.sent) [disguised.message, plain.message] ∧
    readAll (disguised.sent ++ plain.sent) = ([disguised.message, plain.message], .clean) := by
  have hdisguised : disguised.message.render.toList =
      "\x7b\"method\":\"Content-Length: 3\\r\\n\\r\\n[]\\né\"\x7d".toList := by decide +kernel
  have hplain : plain.message.render.toList = "[1,null]".toList := by decide +kernel
  have hparse : ∀ f ∈ [disguised, plain], Json.parse f.message.render.toList = .ok f.message := by
    intro f hf
    rcases List.mem_pair.mp hf with rfl | rfl
    · rw [hdisguised, String.toList_ofList]
      rfl
    · rw [hplain, String.toList_ofList]
      rfl
  have hsent : [disguised, plain].flatMap Framed.sent = disguised.sent ++ plain.sent := by simp
  exact ⟨hparse, hsent ▸ readAll_framed [disguised, plain] hparse⟩

end Refactor.Frame
