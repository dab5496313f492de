import Refactor.Proofs.Path.Segments
import Refactor.Proofs.Text.Encoding
import Refactor.Server.Uri

/-!
# File URIs and back

A path is written into a URI segment by segment and read from it as a whole. Slashes stay where they are and every other
byte becomes itself or an octet, so the path of the URI is the path with each character quoted; reading takes the octets
back into bytes, and a quoted percent sign is an octet like any other. Of the coding only this is used.

* `Percent.Coding.Lawful` — a coding that writes byte by byte and reads what it has written
* `Percent.standard_lawful` — the coding of URIs is one
* `Uri.ofPathBy_path` — the path of a URI, character by character
* `Uri.Readable`, `Uri.ofText_ofPathBy` — the URI of every path passes the check
* `Uri.toPath_ofPath` — the URI of an absolute path names this path
-/

namespace Refactor

/-! ## Octets -/

namespace Percent

/-- A coding that writes texts byte by byte, where only unreserved ASCII stands for itself and every other byte is an octet,
and that reads back one byte after the other and leaves slashes alone. -/
structure Coding.Lawful (k : Coding) (written : UInt8 → List Char) : Prop where
  encode : ∀ s, (k.encode s).toList = (Bytes.ofText s).toList.flatMap written
  kept : ∀ b, (isUnreserved b = true ∧ written b = [Char.ofNat b.toNat]) ∨
    ∃ hi lo, (Bytes.hexValue? hi).isSome = true ∧ (Bytes.hexValue? lo).isSome = true ∧ written b = ['%', hi, lo]
  decode : ∀ b cs, (k.decode (String.ofList (written b ++ cs))).data.toList = b :: (k.decode (String.ofList cs)).data.toList
  slash : ∀ cs, (k.decode (String.ofList ('/' :: cs))).data.toList = 47 :: (k.decode (String.ofList cs)).data.toList
  nothing : (k.decode "").data.toList = []

/-- What stands for itself is below 128 and no percent sign. -/
theorem isUnreserved_spec {b : UInt8} (h : isUnreserved b = true) :
    b.toNat < 128 ∧ b ≠ 37 ∧ Uri.isUnreserved (Char.ofNat b.toNat) = true := by
  unfold isUnreserved at h
  rw [Bool.and_eq_true, decide_eq_true_iff] at h
  refine ⟨h.1, ?_, h.2⟩
  rintro rfl
  exact absurd h.2 (by decide)

theorem digit_spec : ∀ n < 16, (digit n).toNat < 128 ∧ Bytes.hexValue? (digit n) = some n := by
  decide

theorem ofNat_byte {c : Char} (h : c.toNat < 128) : Char.ofNat (UInt8.ofNat c.toNat).toNat = c := by
  rw [UInt8.toNat_ofNat_of_lt' (Nat.lt_trans h (by decide)), Char.ofNat_toNat]

theorem decodeBytes_cons {b : UInt8} (hb : b ≠ 37) (rest : List UInt8) :
    decodeBytes (b :: rest) = b :: decodeBytes rest := by
  rcases rest with _ | ⟨hi, _ | ⟨lo, rest⟩⟩
  · rfl
  · rfl
  · rw [decodeBytes, if_neg (by simpa using hb)]

theorem encodeByte_kept (b : UInt8) : (isUnreserved b = true ∧ encodeByte b = [Char.ofNat b.toNat]) ∨
    ∃ hi lo, (Bytes.hexValue? hi).isSome = true ∧ (Bytes.hexValue? lo).isSome = true ∧ encodeByte b = ['%', hi, lo] := by
  unfold encodeByte
  split
  · rename_i hb
    exact Or.inl ⟨hb, rfl⟩
  · obtain ⟨-, hhi⟩ := digit_spec (b.toNat / 16) (by have := b.toNat_lt; omega)
    obtain ⟨-, hlo⟩ := digit_spec (b.toNat % 16) (by omega)
    exact Or.inr ⟨_, _, by rw [hhi]; rfl, by rw [hlo]; rfl, rfl⟩

theorem decodeBytes_encodeByte (b : UInt8) (rest : List UInt8) :
    decodeBytes ((encodeByte b).flatMap String.utf8EncodeChar ++ rest) = b :: decodeBytes rest := by
  unfold encodeByte
  split
  · rename_i hb
    obtain ⟨hlt, hpercent, -⟩ := isUnreserved_spec hb
    rw [List.flatMap_singleton, Bytes.utf8EncodeChar_ofNat _ hlt, UInt8.ofNat_toNat, List.singleton_append,
      decodeBytes_cons hpercent]
  · obtain ⟨hhi, hhiValue⟩ := digit_spec (b.toNat / 16) (by have := b.toNat_lt; omega)
    obtain ⟨hlo, hloValue⟩ := digit_spec (b.toNat % 16) (by omega)
    have hpercent : String.utf8EncodeChar '%' = [37] := by decide
    simp only [List.flatMap_cons, List.flatMap_nil, List.append_nil, hpercent, Bytes.utf8EncodeChar_of_lt hhi,
      Bytes.utf8EncodeChar_of_lt hlo, List.cons_append, List.nil_append]
    rw [decodeBytes, if_pos (beq_self_eq_true _), ofNat_byte hhi, ofNat_byte hlo, hhiValue, hloValue]
    dsimp only
    rw [Nat.div_add_mod, UInt8.ofNat_toNat]

theorem standard_lawful : standard.Lawful encodeByte where
  encode _ := String.toList_ofList
  kept := encodeByte_kept
  decode b cs := by
    show decodeBytes _ = b :: decodeBytes _
    rw [Bytes.toList_ofText, String.toList_ofList, List.flatMap_append, decodeBytes_encodeByte, Bytes.toList_ofText,
      String.toList_ofList]
  slash cs := by
    show decodeBytes _ = 47 :: decodeBytes _
    rw [Bytes.toList_ofText, String.toList_ofList, Bytes.toList_ofText, String.toList_ofList]
    exact decodeBytes_cons (by decide) _
  nothing := by
    show decodeBytes _ = []
    rw [Bytes.toList_ofText]
    rfl

end Percent

/-! ## Paths in URIs -/

namespace Uri

/-- A character in the path of a URI. -/
def quoted (written : UInt8 → List Char) (c : Char) : List Char :=
  if c = '/' then ['/'] else (String.utf8EncodeChar c).flatMap written

theorem flatMap_intercalate {α β : Type} {f : α → List β} {x : α} {y : β} (h : f x = [y]) : ∀ parts : List (List α),
    ([x].intercalate parts).flatMap f = [y].intercalate (parts.map (·.flatMap f))
  | [] => rfl
  | [part] => by simp
  | part :: next :: parts => by
    rw [List.intercalate_cons_cons, List.flatMap_append, List.flatMap_append, flatMap_intercalate h (next :: parts)]
    simp [h]

section

variable {k : Percent.Coding} {written : UInt8 → List Char}

/-- Encoding the segments of a path quotes its characters. -/
theorem toList_joinWith_encode (hk : k.Lawful written) (cs : List Char) :
    (joinWith "/" ((cs.splitOn '/').map fun s => k.encode (String.ofList s))).toList = cs.flatMap (quoted written) := by
  have hsegment : ∀ s ∈ cs.splitOn '/', (k.encode (String.ofList s)).toList = s.flatMap (quoted written) := fun s hs => by
    rw [hk.encode, Bytes.toList_ofText, String.toList_ofList, List.flatMap_assoc]
    refine List.flatMap_congr fun c hc => ?_
    have hslash : c ≠ '/' := fun heq => Text.not_mem_of_mem_splitOn hs (heq ▸ hc)
    rw [quoted, if_neg hslash]
  have hsegments : (cs.splitOn '/').map (String.toList ∘ fun s => k.encode (String.ofList s)) =
      (cs.splitOn '/').map (·.flatMap (quoted written)) := List.map_congr_left hsegment
  have hslash : quoted written '/' = ['/'] := if_pos rfl
  rw [joinWith_toList, List.map_map, hsegments, ← flatMap_intercalate hslash, List.intercalate_splitOn]

theorem decode_flatMap (hk : k.Lawful written) (bs : List UInt8) (cs : List Char) :
    (k.decode (String.ofList (bs.flatMap written ++ cs))).data.toList = bs ++ (k.decode (String.ofList cs)).data.toList := by
  induction bs with
  | nil => rfl
  | cons b bs ih =>
    rw [List.flatMap_cons, List.append_assoc, hk.decode, ih]
    rfl

theorem decode_quoted (hk : k.Lawful written) (cs : List Char) :
    (k.decode (String.ofList (cs.flatMap (quoted written)))).data.toList = cs.flatMap String.utf8EncodeChar := by
  induction cs with
  | nil => exact hk.nothing
  | cons c cs ih =>
    rw [List.flatMap_cons, List.flatMap_cons, ← ih]
    unfold quoted
    split
    · rename_i hc
      subst hc
      exact hk.slash _
    · exact decode_flatMap hk _ _

end

/-! ## The check -/

def Readable (p : Char → Bool) (cs : List Char) : Prop := ∀ index, readClass p index cs = .ok (cs, [])

variable {p : Char → Bool} {cs : List Char}

theorem readClass_slash (h : p '/' = false) (index : Nat) (cs : List Char) :
    readClass p index ('/' :: cs) = .ok ([], '/' :: cs) := by
  have hread : readClass p index ('/' :: cs) = if p '/' then _ else .ok ([], '/' :: cs) := rfl
  rw [hread, h]
  rfl

theorem Readable.nil : Readable p [] := fun _ => rfl

theorem Readable.char (h : Readable p cs) {c : Char} (hc : p c = true) (hpercent : c ≠ '%') : Readable p (c :: cs) := by
  intro index
  unfold readClass
  split
  · contradiction
  · rename_i heq
    exact absurd (List.cons.inj heq).1 hpercent
  · rename_i heq
    obtain ⟨rfl, rfl⟩ := List.cons.inj heq
    rw [if_pos hc, h]
    rfl

theorem Readable.octet (h : Readable p cs) {hi lo : Char} (hhi : (Bytes.hexValue? hi).isSome = true)
    (hlo : (Bytes.hexValue? lo).isSome = true) : Readable p ('%' :: hi :: lo :: cs) := by
  intro index
  rw [readClass, hhi, hlo, h]
  rfl

theorem Readable.written {k : Percent.Coding} {written : UInt8 → List Char} (hk : k.Lawful written)
    (h : Readable isPath cs) (b : UInt8) : Readable isPath (written b ++ cs) := by
  rcases hk.kept b with ⟨hb, hself⟩ | ⟨hi, lo, hhi, hlo, hoctet⟩
  · obtain ⟨-, -, hchar⟩ := Percent.isUnreserved_spec hb
    rw [hself]
    refine h.char (by simp [isPath, isSegment, hchar]) fun heq => ?_
    rw [heq] at hchar
    exact absurd hchar (by decide)
  · rw [hoctet]
    exact h.octet hhi hlo

theorem Readable.flatMap_quoted {k : Percent.Coding} {written : UInt8 → List Char} (hk : k.Lawful written)
    (cs : List Char) : Readable isPath (cs.flatMap (quoted written)) := by
  induction cs with
  | nil => exact .nil
  | cons c cs ih =>
    rw [List.flatMap_cons]
    unfold quoted
    split
    · exact ih.char (by decide) (by decide)
    · induction String.utf8EncodeChar c with
      | nil => exact ih
      | cons b bs hbs =>
        rw [List.flatMap_cons, List.append_assoc]
        exact hbs.written hk b

theorem ofText_file (text : String) {cs : List Char} (h : text.toList = "file://".toList ++ '/' :: cs) :
    ofText text = finish text 7 ('/' :: cs) := by
  have hauthority : authority text 7 ('/' :: cs) = finish text 7 ('/' :: cs) := by
    rw [authority, readClass_slash (by decide)]
    show host text 7 ('/' :: cs) = _
    rw [host, readClass_slash (by decide)]
    · rfl
    · exact fun rest hbracket => absurd (List.cons.inj hbracket).1 (by decide)
  rw [← hauthority, ofText, h]
  rfl

/-! ## URIs of paths -/

theorem startsWith_slash_iff {s : String} : startsWith s "/" = true ↔ ∃ cs, s.toList = '/' :: cs :=
  List.isPrefixOf_iff_prefix.trans ⟨fun ⟨cs, hcs⟩ => ⟨cs, hcs.symm⟩, fun ⟨cs, hcs⟩ => ⟨cs, hcs.symm⟩⟩

section

variable {k : Percent.Coding} {written : UInt8 → List Char} (hk : k.Lawful written) (p : Path)

include hk

/-- The path of a URI is the path with its characters quoted, behind a slash when it does not start with one. -/
theorem ofPathBy_path : ∃ slash, (slash = [] ∨ slash = ['/']) ∧ (p.isAbsolute = true → slash = []) ∧
    (ofPathBy k p).path.toList = slash ++ p.raw.toList.flatMap (quoted written) ∧
      ∃ cs, (ofPathBy k p).path.toList = '/' :: cs := by
  unfold ofPathBy
  dsimp only
  split
  · rename_i hslash
    exact ⟨[], Or.inl rfl, fun _ => rfl, toList_joinWith_encode hk _, startsWith_slash_iff.mp hslash⟩
  · rename_i hslash
    refine ⟨['/'], Or.inr rfl, fun habsolute => absurd ?_ hslash, ?_⟩
    · obtain ⟨cs, hcs⟩ := startsWith_slash_iff.mp habsolute
      exact startsWith_slash_iff.mpr ⟨cs.flatMap (quoted written), by rw [toList_joinWith_encode hk, hcs]; rfl⟩
    · rw [String.toList_append, toList_joinWith_encode hk]
      exact ⟨rfl, _, rfl⟩

/-- The URI of every path passes the check, and nothing of it is taken for anything but the path. -/
theorem ofText_ofPathBy : ofText (ofPathBy k p).text = .ok (ofPathBy k p) := by
  obtain ⟨slash, hslash, -, hpath, cs, hcs⟩ := ofPathBy_path hk p
  have hreadable : Readable isPath ('/' :: cs) := by
    have hquoted := Readable.flatMap_quoted hk p.raw.toList
    rw [← hcs, hpath]
    rcases hslash with rfl | rfl
    · exact hquoted
    · exact hquoted.char (by decide) (by decide)
  have htext : (ofPathBy k p).text.toList = "file://".toList ++ '/' :: cs := by
    rw [← hcs, ← String.toList_append]
    rfl
  have hfinish : finish (ofPathBy k p).text 7 ('/' :: cs) = .ok (ofPathBy k p) := by
    rw [finish, hreadable]
    show Except.ok (Uri.mk (ofPathBy k p).text (String.ofList ('/' :: cs))) = .ok (ofPathBy k p)
    rw [← hcs, String.ofList_toList]
  rw [ofText_file _ htext, hfinish]

omit hk in
theorem toList_text_ofPathBy (k : Percent.Coding) :
    (ofPathBy k p).text.toList = "file:".toList ++ ("//".toList ++ (ofPathBy k p).path.toList) :=
  @String.toList_append "file://" (ofPathBy k p).path

variable {p}

theorem path_ofPathBy (h : p.isAbsolute = true) :
    (ofPathBy k p).path = String.ofList (p.raw.toList.flatMap (quoted written)) := by
  obtain ⟨slash, -, hslash, hpath, -⟩ := ofPathBy_path hk p
  rw [← String.toList_inj, String.toList_ofList, hpath, hslash h, List.nil_append]

theorem toPathBy_ofPathBy (h : p.isAbsolute = true) : toPathBy k (ofPathBy k p) = .ok p := by
  have hscheme : startsWith (ofPathBy k p).text "file:" = true :=
    List.isPrefixOf_iff_prefix.mpr ⟨_, (toList_text_ofPathBy p k).symm⟩
  have hdecoded : k.decode (ofPathBy k p).path = ⟨(Bytes.ofText p.raw).toList.toArray⟩ := by
    rw [ByteArray.ext_iff, ← Array.toList_inj, path_ofPathBy hk h, decode_quoted hk, Bytes.toList_ofText]
  rw [toPathBy, hscheme, hdecoded]
  dsimp only
  rw [Bytes.text?_toList_ofText]
  rfl

end

/-- The URI of an absolute path is one, and names this path again, in any lawful coding and in the one of URIs. -/
theorem toPath_ofPath {p : Path} (h : p.isAbsolute = true) :
    (∀ (k : Percent.Coding) (written : UInt8 → List Char), k.Lawful written →
      ofText (ofPathBy k p).text = .ok (ofPathBy k p) ∧ toPathBy k (ofPathBy k p) = .ok p) ∧
    ofText (ofPath p).text = .ok (ofPath p) ∧ toPath (ofPath p) = .ok p :=
  ⟨fun _ _ hk => ⟨ofText_ofPathBy hk p, toPathBy_ofPathBy hk h⟩,
    ofText_ofPathBy Percent.standard_lawful p, toPathBy_ofPathBy Percent.standard_lawful h⟩

/-- Blanks, the signs of URIs and letters of several bytes are octets in the URI. -/
theorem toPath_ofPath_quoted : (Path.mk "/tmp/a b/100%25#?+é.ts").isAbsolute = true ∧
    (ofPath ⟨"/tmp/a b/100%25#?+é.ts"⟩).text = "file:///tmp/a%20b/100%2525%23%3F%2B%C3%A9.ts" ∧
    ofText "file:///tmp/a%20b/100%2525%23%3F%2B%C3%A9.ts" = .ok (ofPath ⟨"/tmp/a b/100%25#?+é.ts"⟩) ∧
    toPath (ofPath ⟨"/tmp/a b/100%25#?+é.ts"⟩) = .ok ⟨"/tmp/a b/100%25#?+é.ts"⟩ := by
  have habsolute : (Path.mk "/tmp/a b/100%25#?+é.ts").isAbsolute = true := by decide
  have htext : (ofPath ⟨"/tmp/a b/100%25#?+é.ts"⟩).text = "file:///tmp/a%20b/100%2525%23%3F%2B%C3%A9.ts" := by
    rw [← String.toList_inj, ofPath, toList_text_ofPathBy, path_ofPathBy Percent.standard_lawful habsolute,
      String.toList_ofList]
    decide
  obtain ⟨-, hchecked, hback⟩ := toPath_ofPath habsolute
  exact ⟨habsolute, htext, htext ▸ hchecked, hback⟩

end Uri

end Refactor
