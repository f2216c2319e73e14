import DockerEngine.Lib.Json
import DockerEngine.Lib.Numerals

/-!
# Log records

A record of a container's log is one JSON object on one line. `JSONLogBytes` has the log as bytes and the time as the
text that is to be written; `JSONLog` has a time. Both write a string in the same way: the bytes that stand for
themselves are copied in runs, from `start` to the place that is looked at, and what has to be escaped is written in
between.

**The law** (`marshalJSONBuf_decodes`): what is appended is one JSON object without a control byte, from which the log
and the stream are read back, with each byte that is not part of valid UTF-8 replaced by `U+FFFD`. A field that is
empty is left out. The two kinds of record give the same bytes.

A time is known by its year and by its text in `timeutils.JSONFormat`.
-/

namespace DockerEngine.Jsonlog

open Bytes Utf8 Json List UInt8

/-! ## Strings -/

/-- The ASCII bytes that stand for themselves. -/
def plain (b : UInt8) : Bool := 0x20 ≤ b && b != ch '\\' && b != ch '"' && b != ch '<' && b != ch '>' && b != ch '&'

/-- What is written for another ASCII byte. -/
def escapeByte (b : UInt8) : Bytes :=
  if b = ch '\\' ∨ b = ch '"' then [ch '\\', b]
  else if b = ch '\n' then [ch '\\', ch 'n']
  else if b = ch '\r' then [ch '\\', ch 'r']
  else text "\\u00" ++ [hexDigit (b >>> 4), hexDigit (b &&& 0xF)]

/-- `s[start:i]`. -/
def slice (s : Bytes) (start i : Nat) : Bytes := (s.take i).drop start

/-- The run up to the place that is looked at. -/
def flush (s : Bytes) (start i : Nat) (buf : Bytes) : Bytes := if start < i then buf ++ slice s start i else buf

/-- The loop over a string. -/
def writeLoop (s : Bytes) (start i : Nat) (buf : Bytes) : Bytes :=
  if h : i < s.length then
    if s[i] < 0x80 then
      if plain s[i] then writeLoop s start (i + 1) buf
      else writeLoop s (i + 1) (i + 1) (flush s start i buf ++ escapeByte s[i])
    else
      let c := (decodeRune (s.drop i)).1
      let size := (decodeRune (s.drop i)).2
      if c = runeError ∧ size = 1 then writeLoop s (i + size) (i + size) (flush s start i buf ++ text "\\ufffd")
      else if c = '\u2028' ∨ c = '\u2029' then
        writeLoop s (i + size) (i + size)
          (flush s start i buf ++ (text "\\u202" ++ [hexDigit (ofNat (c.toNat % 16))]))
      else writeLoop s start (i + size) buf
  else if start < s.length then buf ++ s.drop start
  else buf
termination_by s.length - i
decreasing_by
  · omega
  · omega
  all_goals
    have hpos : 0 < (decodeRune (s.drop i)).2 := decodeRune_pos (by simpa using h)
    omega

/-- A string in quotes. -/
def writeString (buf s : Bytes) : Bytes := writeLoop s 0 0 (buf ++ [ch '"']) ++ [ch '"']

/-- `ffjson_WriteJsonString`. -/
def ffjsonWriteJsonString (buf s : Bytes) : Bytes := writeString buf s

/-- `ffjson_WriteJsonBytesAsString`. -/
def ffjsonWriteJsonBytesAsString (buf s : Bytes) : Bytes := writeString buf s

/-! ## Records -/

/-- The year of a time, and the time in `timeutils.JSONFormat`. -/
structure Clock (T : Type) where
  year : T → Int
  format : T → Bytes

/-- `timeutils.FastMarshalJSON`. -/
def fastMarshalJSON {T : Type} (clock : Clock T) (t : T) : Except String Bytes :=
  if clock.year t < 0 ∨ 10000 ≤ clock.year t then .error "time.MarshalJSON: year outside of range [0,9999]"
  else .ok (clock.format t)

/-- `JSONLogBytes`. -/
structure JSONLogBytes where
  log : Bytes
  stream : Bytes
  created : Bytes

/-- `JSONLog`. -/
structure JSONLog (T : Type) where
  log : Bytes
  stream : Bytes
  created : T

/-- A comma, unless the member is the first one. -/
def comma (first : Bool) (buf : Bytes) : Bytes := if first then buf else buf ++ text ","

/-- A record up to its time. The writer of the log is given. -/
def marshalHead (writeLog : Bytes → Bytes → Bytes) (log stream buf : Bytes) : Bytes :=
  let buf := buf ++ text "\x7b"
  let (first, buf) := if log.length ≠ 0 then (false, writeLog (buf ++ text "\"log\":") log) else (true, buf)
  let (first, buf) :=
    if stream.length ≠ 0 then (false, ffjsonWriteJsonString (comma first buf ++ text "\"stream\":") stream)
    else (first, buf)
  comma first buf ++ text "\"time\":"

/-- `MarshalJSONBuf` of a record whose time is a text. It does not fail. -/
def JSONLogBytes.marshalJSONBuf (mj : JSONLogBytes) (buf : Bytes) : Bytes :=
  marshalHead ffjsonWriteJsonBytesAsString mj.log mj.stream buf ++ mj.created ++ text "\x7d"

/-- `MarshalJSONBuf` of a record whose time has to be written. What was written before an error stays. -/
def JSONLog.marshalJSONBuf {T : Type} (clock : Clock T) (mj : JSONLog T) (buf : Bytes) : Bytes × Except String Unit :=
  let buf := marshalHead ffjsonWriteJsonString mj.log mj.stream buf
  match fastMarshalJSON clock mj.created with
  | .error e => (buf, .error e)
  | .ok timestamp => (buf ++ timestamp ++ text "\x7d", .ok ())

/-! ## What is written for a rune -/

/-- The hexadecimal digit of a number below sixteen. -/
def hexChar (n : Nat) : Char := ascii (hexDigit (ofNat n))

/-- The characters that are written for a rune. -/
def escapeRune : Option Char → List Char
  | none => "\\ufffd".toList
  | some c =>
    if c.toNat < 128 then
      if plain (ofNat c.toNat) then [c]
      else if c = '\\' ∨ c = '"' then ['\\', c]
      else if c = '\n' then ['\\', 'n']
      else if c = '\r' then ['\\', 'r']
      else ['\\', 'u', '0', '0', hexChar (c.toNat / 16), hexChar (c.toNat % 16)]
    else if c = '\u2028' ∨ c = '\u2029' then ['\\', 'u', '2', '0', '2', hexChar (c.toNat % 16)]
    else [c]

/-- The characters between the quotes. -/
def escaped (s : Bytes) : List Char := (runes s).flatMap escapeRune

variable {b : UInt8}

theorem escaped_ascii (hb : b < 128) :
    encodeText (escapeRune (some (ascii b))) = if plain b then [b] else escapeByte b :=
  ascii_cases (P := fun b => encodeText (escapeRune (some (ascii b))) = if plain b then [b] else escapeByte b)
    (by decide +kernel) hb

theorem toNat_of_ascii {c : Char} (hc : c.toNat < 128) : ascii (ofNat c.toNat) = c := by
  rw [ascii, toNat_ofNat', Nat.mod_eq_of_lt (by omega), Char.ofNat_toNat]

theorem ofNat_lt {n : Nat} (h : n < 128) : ofNat n < 128 := by
  rw [lt_iff_toNat_lt, toNat_ofNat', Nat.mod_eq_of_lt (by omega)]
  exact h

/-- What is written for a rune is read back as that rune. -/
theorem reads_escapeRune (r : Option Char) : reads (escapeRune r) (r.getD runeError) := by
  cases r with
  | none => decide +kernel
  | some c =>
    by_cases hascii : c.toNat < 128
    · have := ascii_cases (P := fun b => reads (escapeRune (some (ascii b))) (ascii b)) (by decide +kernel)
        (ofNat_lt hascii)
      rwa [toNat_of_ascii hascii] at this
    by_cases hsep : c = '\u2028' ∨ c = '\u2029'
    · obtain rfl | rfl := hsep
      · decide +kernel
      · decide +kernel
    · have hne : ∀ d : Char, d.toNat < 128 → c ≠ d := fun d hd h => hascii (h ▸ hd)
      have hlt : ¬ c < ' ' := fun hlt => hascii (Nat.lt_trans (UInt32.lt_iff_toNat_lt.mp hlt) (by decide))
      rw [escapeRune, if_neg hascii, if_neg hsep]
      simp [reads, hne '"' (by decide), hne '\\' (by decide), hlt]

/-! ## The loop -/

variable (s : Bytes)

variable {c : Char} {start i : Nat}

theorem slice_add (h : start ≤ i) (hi : i ≤ s.length) (n : Nat) :
    slice s start (i + n) = slice s start i ++ (s.drop i).take n := by
  rw [slice, slice, take_add, drop_append_of_le_length (by rw [length_take]; omega)]

theorem slice_self (i : Nat) : slice s i i = [] := by
  rw [slice, drop_eq_nil_iff, length_take]
  omega

theorem flush_eq (h : start ≤ i) (buf : Bytes) : flush s start i buf = buf ++ slice s start i := by
  rw [flush]
  split
  · rfl
  · rw [show start = i by omega, slice_self, append_nil]

theorem escaped_encode (c : Char) (s : Bytes) : escaped (encode c ++ s) = escapeRune (some c) ++ escaped s := by
  rw [escaped, runes_encode, flatMap_cons]
  rfl

theorem escaped_bad {s : Bytes} (h : decode (b :: s) = none) : escaped (b :: s) = escapeRune none ++ escaped s := by
  rw [escaped, runes_bad h, flatMap_cons]
  rfl

theorem encodeText_none : encodeText (escapeRune none) = text "\\ufffd" := by
  decide +kernel

theorem encodeText_separator (h : c = '\u2028' ∨ c = '\u2029') :
    encodeText (escapeRune (some c)) = text "\\u202" ++ [hexDigit (ofNat (c.toNat % 16))] := by
  obtain rfl | rfl := h
  · decide +kernel
  · decide +kernel

/-- A byte that is not ASCII: either no character begins, or one that is not ASCII. -/
theorem decodeRune_cases {t : Bytes} (hb : ¬ b < 0x80) :
    (decodeRune (b :: t) = (runeError, 1) ∧ decode (b :: t) = none) ∨
      ∃ c u, decodeRune (b :: t) = (c, (encode c).length) ∧ b :: t = encode c ++ u ∧ ¬ c.toNat < 128 := by
  rw [decodeRune]
  cases hdecode : decode (b :: t) with
  | none => exact .inl ⟨rfl, rfl⟩
  | some c =>
    obtain ⟨u, hu⟩ := eq_of_decode hdecode
    refine .inr ⟨c, u, rfl, hu, fun hc => hb ?_⟩
    have hencode := Utf8.encode_ascii (ofNat_lt hc)
    rw [toNat_of_ascii hc] at hencode
    rw [hencode, singleton_append] at hu
    rw [(cons.inj hu).1]
    exact ofNat_lt hc

/-- **The loop writes the runes that are left**, after the run that it has not written yet. -/
theorem writeLoop_eq (buf : Bytes) (hstart : start ≤ i) (hi : i ≤ s.length) :
    writeLoop s start i buf = buf ++ slice s start i ++ encodeText (escaped (s.drop i)) := by
  induction hn : s.length - i using Nat.strongRecOn generalizing start i buf with
  | _ n ih =>
    rw [writeLoop]
    by_cases h : i < s.length
    · rw [dif_pos h]
      have hdrop : s.drop i = s[i] :: s.drop (i + 1) := drop_eq_getElem_cons h
      by_cases hb : s[i] < 0x80
      · rw [if_pos hb, hdrop]
        have hrune : s[i] :: s.drop (i + 1) = encode (ascii s[i]) ++ s.drop (i + 1) := by
          rw [Utf8.encode_ascii hb, singleton_append]
        rw [hrune, escaped_encode, encodeText_append, escaped_ascii hb]
        by_cases hplain : plain s[i]
        · rw [if_pos hplain, if_pos hplain, ih _ (by omega) _ (by omega) (by omega) rfl,
            slice_add s hstart hi, hdrop, take_succ_cons, take_zero]
          simp
        · rw [if_neg hplain, if_neg hplain, ih _ (by omega) _ (Nat.le_refl _) (by omega) rfl, slice_self,
            flush_eq s hstart]
          simp
      · rw [if_neg hb]
        obtain ⟨hrune, hbad⟩ | ⟨c, u, hrune, hu, hc⟩ := decodeRune_cases (t := s.drop (i + 1)) hb
        · simp only [hdrop, hrune, and_self, if_true]
          rw [ih _ (by omega) _ (Nat.le_refl _) (by omega) rfl, slice_self, flush_eq s hstart, escaped_bad hbad,
            encodeText_append, encodeText_none]
          simp
        · have hpos := length_encode_pos c
          have hrest : s.drop (i + (encode c).length) = u := by
            rw [← drop_drop, hdrop, hu, drop_left]
          have hle : i + (encode c).length ≤ s.length := by
            have hlength := congrArg length (hdrop.trans hu)
            rw [length_drop, length_append] at hlength
            omega
          have hvalid : ¬ (c = runeError ∧ (encode c).length = 1) := by
            rintro ⟨rfl, hone⟩
            exact absurd hone (by decide)
          rw [hu] at hrune
          simp only [hdrop, hu, hrune, if_neg hvalid, escaped_encode, encodeText_append]
          by_cases hsep : c = '\u2028' ∨ c = '\u2029'
          · rw [if_pos hsep, ih _ (by omega) _ (Nat.le_refl _) hle rfl, slice_self, flush_eq s hstart, hrest,
              encodeText_separator hsep]
            simp
          · rw [if_neg hsep, ih _ (by omega) _ (by omega) hle rfl, slice_add s hstart hi, hrest, hdrop, hu,
              take_left, escapeRune, if_neg hc, if_neg hsep]
            simp [encodeText]
    · obtain rfl : i = s.length := by omega
      have hslice : slice s start s.length = s.drop start := by rw [slice, take_length]
      have hempty : encodeText (escaped []) = [] := by simp [escaped, runes, encodeText]
      rw [dif_neg h, drop_length, hempty, append_nil, ← hslice]
      exact flush_eq s hstart buf

theorem writeString_eq (buf s : Bytes) : writeString buf s = buf ++ encodeText ('"' :: (escaped s ++ ['"'])) := by
  have hquote : encodeText ['"'] = [ch '"'] := by decide
  have hcons : encodeText ('"' :: (escaped s ++ ['"'])) = encodeText (['"'] ++ (escaped s ++ ['"'])) := rfl
  rw [hcons, encodeText_append, encodeText_append, hquote, writeString,
    writeLoop_eq s _ (Nat.le_refl 0) (Nat.zero_le _), slice_self, drop_zero]
  simp only [append_assoc, nil_append]

/-- A string that is written is read back, repaired. -/
theorem string_escaped :
    ∃ value, string ('"' :: (escaped s ++ ['"'])) = some (value, []) ∧ encodeText value = repaired s := by
  refine ⟨_, string_of_reads reads_escapeRune (runes s), ?_⟩
  rw [encodeText, flatMap_map, repaired_eq]

/-! ## The record -/

/-- The members of a record. -/
noncomputable def fields (log stream time : Bytes) : List (Bytes × Bytes) :=
  (if log = [] then [] else [(text "log", repaired log)]) ++
    (if stream = [] then [] else [(text "stream", repaired stream)]) ++ [(text "time", time)]

/-- The text of a member, with the text of its value. -/
def fieldText (key : String) (value : List Char) : List Char := '"' :: (key.toList ++ ['"']) ++ ':' :: value

/-- The text of a string. -/
def quoted (s : Bytes) : List Char := '"' :: (escaped s ++ ['"'])

/-- The texts of the members of a record, with the text of the time. -/
def fieldTexts (log stream : Bytes) (time : List Char) : List (List Char) :=
  (if log = [] then [] else [fieldText "log" (quoted log)]) ++
    (if stream = [] then [] else [fieldText "stream" (quoted stream)]) ++ [fieldText "time" time]

theorem marshalHead_eq (log stream buf : Bytes) (time : List Char) :
    marshalHead writeString log stream buf ++ encodeText time ++ text "\x7d" =
      buf ++ encodeText (objectText (fieldTexts log stream time)) := by
  have hopen : text "\x7b" = encodeText ['\x7b'] := by decide
  have hclose : text "\x7d" = encodeText ['\x7d'] := by decide
  have hcomma : text "," = encodeText [','] := by decide
  have hlog : text "\"log\":" = encodeText ('"' :: ("log".toList ++ ['"']) ++ [':']) := by decide
  have hstream : text "\"stream\":" = encodeText ('"' :: ("stream".toList ++ ['"']) ++ [':']) := by decide
  have htime : text "\"time\":" = encodeText ('"' :: ("time".toList ++ ['"']) ++ [':']) := by decide
  by_cases hl : log = []
  · by_cases hs : stream = []
    · simp [marshalHead, comma, fieldTexts, fieldText, objectText, hl, hs, hopen, hclose, htime, intercalate,
        ← encodeText_append]
    · simp [marshalHead, comma, fieldTexts, fieldText, objectText, hl, hs, hopen, hclose, hcomma, hstream, htime,
        intercalate, ← encodeText_append, ffjsonWriteJsonString, writeString_eq, quoted]
  · by_cases hs : stream = []
    · simp [marshalHead, comma, fieldTexts, fieldText, objectText, hl, hs, hopen, hclose, hcomma, hlog, htime,
        intercalate, ← encodeText_append, writeString_eq, quoted]
    · simp [marshalHead, comma, fieldTexts, fieldText, objectText, hl, hs, hopen, hclose, hcomma, hlog, hstream,
        htime, intercalate, ← encodeText_append, ffjsonWriteJsonString, writeString_eq, quoted]

theorem member_fieldText {key : String} {v value : List Char}
    (hkey : string ('"' :: (key.toList ++ ['"'])) = some (key.toList, [])) (hv : string v = some (value, [])) :
    Member (fieldText key v) (key.toList, value) :=
  ⟨_, v, rfl, hkey, hv⟩

theorem forall₂_ite {log : Bytes} {t : List Char} {m : List Char × List Char} (h : Member t m) :
    List.Forall₂ Member (if log = [] then [] else [t]) (if log = [] then [] else [m]) := by
  split
  · exact .nil
  · exact .cons h .nil

/-- The texts are members, with the values that they should have. -/
theorem members_fieldTexts (log stream : Bytes) {time value : List Char} (h : string time = some (value, [])) :
    ∃ ms, List.Forall₂ Member (fieldTexts log stream time) ms ∧
      ms.map (fun m => (encodeText m.1, encodeText m.2)) = fields log stream (encodeText value) := by
  obtain ⟨l, hl, hlog⟩ := string_escaped log
  obtain ⟨s, hs, hstream⟩ := string_escaped stream
  have hlogKey : encodeText "log".toList = text "log" := by decide
  have hstreamKey : encodeText "stream".toList = text "stream" := by decide
  have htimeKey : encodeText "time".toList = text "time" := by decide
  refine ⟨(if log = [] then [] else [("log".toList, l)]) ++ (if stream = [] then [] else [("stream".toList, s)]) ++
    [("time".toList, value)], ?_, ?_⟩
  · exact rel_append (rel_append (forall₂_ite (member_fieldText (by decide +kernel) hl))
      (forall₂_ite (member_fieldText (by decide +kernel) hs)))
      (.cons (member_fieldText (by decide +kernel) h) .nil)
  · rw [fields, map_append, map_append, apply_ite (map _), apply_ite (map _)]
    simp only [map_nil, map_cons, hlogKey, hstreamKey, htimeKey, hlog, hstream]

/-- **A record is one line from which everything is read back.** The time is any text that is a JSON string. -/
theorem marshalJSONBuf_decodes {T : Type} (clock : Clock T) (mj : JSONLogBytes) {time : Bytes}
    (htime : decodeString mj.created = some time) (buf : Bytes) :
    ∃ record, mj.marshalJSONBuf buf = buf ++ record ∧ (∀ b ∈ record, 0x20 ≤ b) ∧
      decodeObject record = some (fields mj.log mj.stream time) ∧
      ∀ t, fastMarshalJSON clock t = .ok mj.created →
        JSONLog.marshalJSONBuf clock ⟨mj.log, mj.stream, t⟩ buf = (buf ++ record, .ok ()) := by
  obtain ⟨cs, value, hcs, hstring, rfl⟩ := decodeString_iff.mp htime
  obtain ⟨ms, hms, hfields⟩ := members_fieldTexts mj.log mj.stream hstring
  have hne : fieldTexts mj.log mj.stream cs ≠ [] := by simp [fieldTexts]
  have hmarshal := marshalHead_eq mj.log mj.stream buf cs
  refine ⟨encodeText (objectText (fieldTexts mj.log mj.stream cs)), ?_, le_of_mem_objectText hms, ?_, fun t ht => ?_⟩
  · rw [JSONLogBytes.marshalJSONBuf, hcs]
    exact hmarshal
  · rw [decodeObject_objectText hms hne, hfields]
  · rw [JSONLog.marshalJSONBuf, ht, hcs]
    exact congrArg (·, Except.ok ()) hmarshal

/-- A line with a byte that is not UTF-8. -/
def sample : JSONLogBytes := ⟨text "a\"" ++ [0xFF] ++ text "\n", text "stdout", text "\"2015\""⟩

theorem marshalJSONBuf_decodes_sample :
    ∃ record, sample.marshalJSONBuf [] = [] ++ record ∧ (∀ b ∈ record, 0x20 ≤ b) ∧
      decodeObject record = some (fields sample.log sample.stream (text "2015")) ∧
      ∀ t : Unit, fastMarshalJSON ⟨fun _ => 2015, fun _ => text "\"2015\""⟩ t = .ok sample.created →
        JSONLog.marshalJSONBuf ⟨fun _ => 2015, fun _ => text "\"2015\""⟩ ⟨sample.log, sample.stream, t⟩ [] =
          ([] ++ record, .ok ()) :=
  marshalJSONBuf_decodes _ sample
    (decodeString_iff.mpr ⟨"\"2015\"".toList, "2015".toList, by decide, by decide +kernel, by decide⟩) []

end DockerEngine.Jsonlog
