import FromScratch.MapReduce.Record

/-! Records survive the trip to disk: what is escaped is read back, and no
separator inside a key or a value ends a field or a line. -/

namespace FromScratch.Proofs.Codec
open FromScratch.MapReduce GoString Record

/-- Only an ASCII character has an ASCII byte in its encoding. -/
theorem val_of_mem_encode {c : Char} {byte : UInt8} (member : byte ∈ String.utf8EncodeChar c) (ascii : byte.toNat < 128) :
    c.val.toNat = byte.toNat := by
  have bound := c.val.toNat_lt
  unfold String.utf8EncodeChar at member
  simp only at member
  split at member
  next low =>
    rw [List.mem_singleton] at member
    subst member
    simp only [UInt8.toNat_ofNat']
    omega
  next =>
    -- Every byte of a longer encoding has its high bit set.
    split at member
    next =>
      simp only [List.mem_cons, List.not_mem_nil, or_false] at member
      rcases member with rfl | rfl <;> simp only [UInt8.toNat_ofNat'] at ascii <;> omega
    next =>
      split at member
      next =>
        simp only [List.mem_cons, List.not_mem_nil, or_false] at member
        rcases member with rfl | rfl | rfl <;> simp only [UInt8.toNat_ofNat'] at ascii <;> omega
      next =>
        simp only [List.mem_cons, List.not_mem_nil, or_false] at member
        rcases member with rfl | rfl | rfl | rfl <;> simp only [UInt8.toNat_ofNat'] at ascii <;> omega

theorem runesFrom_skip (skipped rest : GoString) : runesFrom (skipped ++ rest) skipped.length = runesFrom rest 0 := by
  induction skipped with
  | nil => rfl
  | cons byte skipped ih => exact ih

theorem decodeRune_encode (c : Char) (rest : GoString) : decodeRune (String.utf8EncodeChar c ++ rest) = some c := by
  unfold decodeRune
  rw [List.toByteArray_append]
  exact ByteArray.utf8DecodeChar?_utf8EncodeChar_append

theorem runes_encode (c : Char) (rest : GoString) : runes (String.utf8EncodeChar c ++ rest) = c :: runes rest := by
  have decoded := decodeRune_encode c rest
  have size := String.length_utf8EncodeChar c
  cases encoding : String.utf8EncodeChar c with
  | nil => exact absurd encoding String.utf8EncodeChar_ne_nil
  | cons byte tail =>
    rw [encoding] at decoded size
    rw [List.cons_append] at decoded ⊢
    have left : c.utf8Size - 1 = tail.length := by
      rw [← size]
      simp
    rw [runes, runesFrom, decoded]
    simp only
    rw [left, runesFrom_skip, runes]

theorem runes_writeRunes (cs : List Char) : runes (writeRunes cs) = cs := by
  induction cs with
  | nil => rfl
  | cons c cs ih =>
    rw [writeRunes, List.flatMap_cons, runes_encode]
    exact congrArg (c :: ·) ih

section Escape

theorem special_val {c : Char} {byte : UInt8} (member : byte ∈ String.utf8EncodeChar c) (special : special byte = true) :
    c = '\\' ∨ c = '\t' ∨ c = '\n' ∨ c = '\r' := by
  have same (ascii : byte.toNat < 128) := val_of_mem_encode member ascii
  have named (d : Char) (same : c.val.toNat = d.val.toNat) : c = d := Char.ext (UInt32.toNat_inj.mp same)
  simp only [Record.special, Bool.or_eq_true, beq_iff_eq] at special
  rcases special with ((rfl | rfl) | rfl) | rfl
  · exact Or.inl (named _ (same (by decide)))
  · exact Or.inr (Or.inl (named _ (same (by decide))))
  · exact Or.inr (Or.inr (Or.inl (named _ (same (by decide)))))
  · exact Or.inr (Or.inr (Or.inr (named _ (same (by decide)))))

/-- A byte that neither ends a field nor a line. -/
def inside (byte : UInt8) : Prop := byte ≠ tab ∧ byte ≠ newline ∧ byte ≠ carriageReturn

theorem plain_inside {byte : UInt8} (plain : ¬ special byte = true) : byte ≠ backslash ∧ inside byte := by
  simp only [special, Bool.or_eq_true, beq_iff_eq, not_or] at plain
  obtain ⟨⟨⟨slash, tab⟩, newline⟩, carriage⟩ := plain
  exact ⟨slash, tab, newline, carriage⟩

theorem escapeRune_inside (c : Char) : ∀ byte ∈ escapeRune c, inside byte := by
  have pair (second : UInt8) (fine : inside second) : ∀ byte ∈ [backslash, second], inside byte := by
    intro byte member
    simp only [List.mem_cons, List.not_mem_nil, or_false] at member
    rcases member with rfl | rfl
    · exact ⟨by decide, by decide, by decide⟩
    · exact fine
  unfold escapeRune
  split
  · exact pair _ ⟨by decide, by decide, by decide⟩
  · split
    · exact pair _ ⟨by decide, by decide, by decide⟩
    · split
      · exact pair _ ⟨by decide, by decide, by decide⟩
      · split
        · exact pair _ ⟨by decide, by decide, by decide⟩
        · intro byte member
          refine (plain_inside fun special => ?_).2
          rcases special_val member special with same | same | same | same <;> contradiction

theorem escape_inside (s : GoString) : ∀ byte ∈ escape s, inside byte := by
  intro byte member
  unfold escape at member
  split at member
  next =>
    obtain ⟨c, _, member⟩ := List.mem_flatMap.mp member
    exact escapeRune_inside c byte member
  next plain =>
    refine (plain_inside fun special => ?_).2
    exact plain (List.any_eq_true.mpr ⟨byte, member, special⟩)

theorem unescapeFrom_plain {plain : GoString} (free : backslash ∉ plain) (rest : GoString) :
    unescapeFrom (plain ++ rest) = (plain ++ ·) <$> unescapeFrom rest := by
  induction plain with
  | nil => simp
  | cons byte plain ih =>
    rw [List.mem_cons, not_or] at free
    rw [List.cons_append, unescapeFrom.eq_def]
    simp only
    rw [if_pos (Ne.symm free.1), ih free.2]
    cases unescapeFrom rest <;> rfl

theorem unescapeFrom_escaped {second byte : UInt8} (named : unescapeByte second = .ok byte) (rest : GoString) :
    unescapeFrom (backslash :: second :: rest) = (byte :: ·) <$> unescapeFrom rest := by
  rw [unescapeFrom, if_neg (by simp)]
  simp only [named]
  cases unescapeFrom rest <;> rfl

theorem unescapeFrom_escapeRune (c : Char) (rest : GoString) :
    unescapeFrom (escapeRune c ++ rest) = (String.utf8EncodeChar c ++ ·) <$> unescapeFrom rest := by
  unfold escapeRune
  split
  next same => subst same; exact unescapeFrom_escaped rfl rest
  next slash =>
    split
    next same => subst same; exact unescapeFrom_escaped rfl rest
    next tab =>
      split
      next same => subst same; exact unescapeFrom_escaped rfl rest
      next newline =>
        split
        next same => subst same; exact unescapeFrom_escaped rfl rest
        next carriage =>
          refine unescapeFrom_plain (fun member => ?_) rest
          rcases special_val member rfl with same | same | same | same <;> contradiction

theorem unescapeFrom_escapeRunes (cs : List Char) : unescapeFrom (cs.flatMap escapeRune) = .ok (writeRunes cs) := by
  induction cs with
  | nil => rfl
  | cons c cs ih =>
    rw [List.flatMap_cons, unescapeFrom_escapeRune, ih]
    rfl

theorem unescape_eq (s : GoString) : unescape s = unescapeFrom s := by
  unfold unescape
  split
  next => rfl
  next plain =>
    have same := unescapeFrom_plain plain []
    rw [List.append_nil] at same
    rw [same]
    simp [unescapeFrom]

/-- What reading a string back delivers: the runes it was written as. -/
def stored (s : GoString) : GoString := if s.any special then writeRunes (runes s) else s

theorem unescape_escape (s : GoString) : unescape (escape s) = .ok (stored s) := by
  unfold escape stored
  split
  next => rw [unescape_eq, unescapeFrom_escapeRunes]
  next plain =>
    refine if_neg fun member => plain ?_
    exact List.any_eq_true.mpr ⟨_, member, rfl⟩

/-- Text is stored as it is. -/
theorem stored_valid {s : GoString} (valid : ValidUtf8 s) : stored s = s := by
  obtain ⟨cs, rfl⟩ := valid
  rw [stored, runes_writeRunes, ite_self]

end Escape

section Lines

def line (r : Record) : GoString := escape r.key ++ tab :: escape r.value

theorem encode_line (r : Record) : r.encode = line r ++ [newline] := by
  simp [encode, line]

theorem line_ne_nil (r : Record) : line r ≠ [] := by
  simp [line]

theorem line_whole (r : Record) : newline ∉ line r ∧ carriageReturn ∉ line r := by
  refine ⟨fun member => ?_, fun member => ?_⟩
  · rcases List.mem_append.mp member with key | rest
    · exact (escape_inside _ _ key).2.1 rfl
    · rcases List.mem_cons.mp rest with same | value
      · exact absurd same (by decide)
      · exact (escape_inside _ _ value).2.1 rfl
  · rcases List.mem_append.mp member with key | rest
    · exact (escape_inside _ _ key).2.2 rfl
    · rcases List.mem_cons.mp rest with same | value
      · exact absurd same (by decide)
      · exact (escape_inside _ _ value).2.2 rfl

def restored (r : Record) : Record := { key := stored r.key, value := stored r.value }

theorem parse_line (r : Record) : Record.parse (line r) = .ok (restored r) := by
  have untabbed : ∀ byte ∈ escape r.key, decide (byte ≠ tab) = true := fun byte member =>
    decide_eq_true (escape_inside _ byte member).1
  have key : (line r).takeWhile (· ≠ tab) = escape r.key := by
    rw [line, List.takeWhile_append_of_pos untabbed]
    simp
  have value : ((line r).dropWhile (· ≠ tab)).drop 1 = escape r.value := by
    rw [line, List.dropWhile_append_of_pos untabbed]
    simp
  rw [Record.parse, if_neg (by simp [line]), key, value, unescape_escape, unescape_escape]
  rfl

theorem restored_valid {r : Record} (key : ValidUtf8 r.key) (value : ValidUtf8 r.value) : restored r = r := by
  rw [restored, stored_valid key, stored_valid value]

theorem map_restored {records : List Record} (text : ∀ r ∈ records, restored r = r) : records.map restored = records := by
  rw [List.map_congr_left text, List.map_id']

end Lines

section Files
open Scanner

theorem pieces_line {first : GoString} (whole : newline ∉ first) (rest : GoString) :
    pieces (first ++ newline :: rest) = (first, (pieces rest).1 :: (pieces rest).2) := by
  induction first with
  | nil => simp [pieces]
  | cons byte first ih =>
    rw [List.mem_cons, not_or] at whole
    rw [List.cons_append, pieces, ih whole.2]
    simp [Ne.symm whole.1]

theorem dropCR_whole {first : GoString} (whole : carriageReturn ∉ first) : dropCR first = first := by
  unfold dropCR
  refine if_neg fun last => whole ?_
  exact List.mem_of_getLast? last

/-- The record's line fits the buffer it is read back through. -/
def Short (r : Record) : Prop := r.encode.length ≤ maxTokenSize

instance decidableShort : DecidablePred Short := fun r => inferInstanceAs (Decidable (r.encode.length ≤ maxTokenSize))

/-- The records in front of the first line that is too long, and its error. -/
def readBack : List Record → List Record × Option Err
  | [] => ([], none)
  | r :: records => if Short r then (r :: (readBack records).1, (readBack records).2) else ([], some .tooLong)

theorem readBack_short {records : List Record} (short : ∀ r ∈ records, Short r) : readBack records = (records, none) := by
  induction records with
  | nil => rfl
  | cons r records ih =>
    rw [readBack, if_pos (short r List.mem_cons_self), ih fun r member => short r (List.mem_cons_of_mem _ member)]

theorem short_of_readBack {records : List Record} (clean : (readBack records).2 = none) : ∀ r ∈ records, Short r := by
  induction records with
  | nil => nofun
  | cons r records ih =>
    rw [readBack] at clean
    split at clean
    next short =>
      intro other member
      rcases List.mem_cons.mp member with rfl | later
      · exact short
      · exact ih clean other later
    next => cases clean

theorem short_iff (r : Record) : Short r ↔ ¬ maxTokenSize ≤ (line r).length := by
  rw [Short, encode_line, List.length_append, List.length_singleton]
  omega

/-- Reading a file back delivers its lines up to the first that is too long. -/
theorem scan_encodeAll (records : List Record) :
    scan { bytes := encodeAll records } = ((readBack records).1.map line, (readBack records).2) := by
  induction records with
  | nil => rfl
  | cons r records ih =>
    have file : encodeAll (r :: records) = line r ++ newline :: encodeAll records := by
      simp [encodeAll, encode_line]
    unfold scan at ih ⊢
    simp only at ih ⊢
    rw [file, pieces_line (line_whole r).1, readBack]
    simp only
    rw [tokens]
    by_cases short : Short r
    · rw [if_neg ((short_iff r).mp short), if_pos short, ih, dropCR_whole (line_whole r).2]
      rfl
    · rw [if_pos (not_not.mp fun fits => short ((short_iff r).mpr fits)), if_neg short]
      rfl

end Files

section RoundTrip
open Source

/-- The strings `escape` leaves alone or decodes without a loss. -/
def Storable (s : GoString) : Prop := s.any special = false ∨ ValidUtf8 s

theorem stored_iff (s : GoString) : stored s = s ↔ Storable s := by
  constructor
  · intro same
    by_cases plain : s.any special = true
    · rw [stored, if_pos plain] at same
      exact Or.inr ⟨runes s, same.symm⟩
    · exact Or.inl (Bool.not_eq_true _ ▸ plain)
  · rintro (plain | valid)
    · rw [stored, plain]
      rfl
    · exact stored_valid valid

theorem restored_iff (r : Record) : restored r = r ↔ Storable r.key ∧ Storable r.value := by
  rw [← stored_iff, ← stored_iff]
  cases r
  simp [restored]

theorem readAll_lines (records : List Record) : readAll { lines := records.map line } = .ok (records.map restored) := by
  induction records with
  | nil => rw [readAll.eq_def]; rfl
  | cons r records ih =>
    have first : next { lines := (r :: records).map line } = .ok (some (restored r, { lines := records.map line })) := by
      rw [next, List.map_cons, nextFrom, if_neg (line_ne_nil r), parse_line]
      rfl
    rw [readAll.eq_def, first]
    simp only
    rw [ih]
    rfl

theorem readAll_encodeAll {records : List Record} (short : ∀ r ∈ records, Short r) :
    readAll (ofStream { bytes := encodeAll records }) = .ok (records.map restored) := by
  have source : ofStream { bytes := encodeAll records } = { lines := records.map line } := by
    unfold ofStream
    rw [scan_encodeAll, readBack_short short]
  rw [source, readAll_lines]

/-- What is written is read back exactly when every field is free of separators
or is text. -/
theorem round_trip_iff {records : List Record} (short : ∀ r ∈ records, Short r) :
    readAll (ofStream { bytes := encodeAll records }) = .ok records ↔ ∀ r ∈ records, Storable r.key ∧ Storable r.value := by
  rw [readAll_encodeAll short, Except.ok.injEq]
  constructor
  · intro same r member
    rw [← restored_iff]
    have each : List.map restored records = List.map id records := by rw [same, List.map_id]
    exact List.map_inj_left.mp each r member
  · exact fun storable => map_restored fun r member => (restored_iff r).mpr (storable r member)

theorem round_trip_words : readAll (ofStream { bytes := encodeAll [⟨[97, 9, 98], [255]⟩] }) =
    .ok [⟨[97, 9, 98], [255]⟩] := by
  refine (round_trip_iff (by decide)).mpr fun r member => ?_
  cases List.mem_singleton.mp member
  exact ⟨Or.inr ⟨['a', '\t', 'b'], by decide⟩, Or.inl (by decide)⟩

/-- A byte that starts no rune is replaced when a tab stands beside it. -/
theorem round_trip_loses : (∀ r ∈ [(⟨[255, 9], [97]⟩ : Record)], r.encode.length < Scanner.maxTokenSize) ∧
    readAll (ofStream { bytes := encodeAll [⟨[255, 9], [97]⟩] }) = .ok [⟨[239, 191, 189, 9], [97]⟩] ∧
    readAll (ofStream { bytes := encodeAll [⟨[255, 9], [97]⟩] }) ≠ .ok [⟨[255, 9], [97]⟩] := by
  have read : readAll (ofStream { bytes := encodeAll [⟨[255, 9], [97]⟩] }) = .ok [⟨[239, 191, 189, 9], [97]⟩] := by
    rw [readAll_encodeAll (by decide)]
    decide
  refine ⟨fun r member => ?_, read, ?_⟩
  · cases List.mem_singleton.mp member
    decide
  · rw [read]
    decide

end RoundTrip

end FromScratch.Proofs.Codec
