import FromScratch.MapReduce.WordCount
import FromScratch.Proofs.MapOutput

/-! The words of a text of plain words, as the regular expression finds them line
by line. -/

namespace FromScratch.Proofs.WordSplitting
open FromScratch.MapReduce WordCount Codec Scanner Record MapPlan MapOutput

section Bytes

/-- A lower-case letter. -/
def Letter (byte : UInt8) : Prop := 97 ≤ byte.toNat ∧ byte.toNat ≤ 122

instance (byte : UInt8) : Decidable (Letter byte) := inferInstanceAs (Decidable (_ ∧ _))

variable {byte : UInt8}

theorem Letter.isAlphanumeric (letter : Letter byte) : isAlphanumeric byte = true := by
  have bounds : 97 ≤ byte ∧ byte ≤ 122 := ⟨UInt8.le_iff_toNat_le.mpr letter.1, UInt8.le_iff_toNat_le.mpr letter.2⟩
  simp [WordCount.isAlphanumeric, bounds.1, bounds.2]

theorem Letter.isToken (letter : Letter byte) : isToken byte = true := by
  rw [WordCount.isToken, letter.isAlphanumeric, Bool.true_or]

theorem Letter.isWord (letter : Letter byte) : isWord byte = true := by
  rw [WordCount.isWord, letter.isAlphanumeric, Bool.true_or]

theorem Letter.toLower (letter : Letter byte) : toLower byte = byte := by
  have above : ¬ byte ≤ 90 := fun upper => absurd (UInt8.le_iff_toNat_le.mp upper) (by have := letter.1; simp; omega)
  rw [WordCount.toLower, if_neg fun upper => above upper.2]

theorem Letter.ne (letter : Letter byte) {other : UInt8} (below : other.toNat < 97) : byte ≠ other := by
  intro same
  subst same
  exact absurd letter.1 (not_le.mpr below)

end Bytes

/-- A word of lower-case letters. -/
structure Plain (word : GoString) : Prop where
  filled : word ≠ []
  short : word.length ≤ 2 ^ 20
  letters : ∀ byte ∈ word, Letter byte

theorem vocab_plain : ∀ word ∈ VOCAB, Plain word := by
  have each : ∀ word ∈ VOCAB, word ≠ [] ∧ word.length ≤ 11 ∧ ∀ byte ∈ word, Letter byte := by decide +kernel
  intro word listed
  obtain ⟨filled, short, letters⟩ := each word listed
  exact ⟨filled, short.trans (by decide), letters⟩

section Matches

theorem findFrom_skip (before : Option UInt8) (skipped rest : GoString) :
    findFrom before skipped.length (skipped ++ rest) = findFrom (skipped.getLast?.or before) 0 rest := by
  induction skipped generalizing before with
  | nil => rfl
  | cons byte skipped ih =>
    rw [List.length_cons, List.cons_append, findFrom, ih, List.getLast?_cons]
    cases skipped.getLast? <;> rfl

/-- Nothing of a word: the start of the text, its end or a blank. -/
def Gap (neighbour : Option UInt8) : Prop := neighbour = none ∨ neighbour = some 32

variable {word rest : GoString} {before : Option UInt8}

theorem Gap.any (gap : Gap before) : before.any isWord = false := by
  rcases gap with rfl | rfl <;> rfl

theorem takeWhile_word (plain : Plain word) (gap : Gap rest.head?) : (word ++ rest).takeWhile isToken = word := by
  have empty : rest.takeWhile isToken = [] := by
    cases rest with
    | nil => rfl
    | cons byte rest =>
      rcases gap with empty | blank
      · cases empty
      · cases blank
        rfl
  rw [List.takeWhile_append_of_pos fun byte member => (plain.letters byte member).isToken, empty, List.append_nil]

theorem longest_word (plain : Plain word) (gap : Gap rest.head?) :
    longest (word ++ rest) word.length = some word.length := by
  obtain ⟨size, length⟩ : ∃ size, word.length = size + 1 :=
    ⟨word.length - 1, by have := List.length_pos_of_ne_nil plain.filled; omega⟩
  have inside : size < word.length := by omega
  have last : (word ++ rest)[size]? = some word[size] := by
    rw [List.getElem?_append_left inside, List.getElem?_eq_getElem inside]
  have next : (word ++ rest)[size + 1]? = rest.head? := by
    rw [List.getElem?_append_right (by omega), ← length, Nat.sub_self, List.head?_eq_getElem?]
  have letter : isWord word[size] = true := (plain.letters _ (List.getElem_mem inside)).isWord
  rw [length, longest, boundary, last, next, gap.any, Option.any_some, letter]
  rfl

theorem matchAt_word (plain : Plain word) (gap : Gap before) (gap' : Gap rest.head?) :
    matchAt before (word ++ rest) = some word.length := by
  obtain ⟨first, others, rfl⟩ := List.exists_cons_of_ne_nil plain.filled
  have letter : isWord first = true := (plain.letters first List.mem_cons_self).isWord
  rw [matchAt, takeWhile_word plain gap', longest_word plain gap', boundary, gap.any]
  simp [letter]

/-- A word between gaps is the next match. -/
theorem findFrom_word (plain : Plain word) (gap : Gap before) (rest : GoString) (gap' : Gap rest.head?) :
    ∃ last, Letter last ∧ findFrom before 0 (word ++ rest) = word :: findFrom (some last) 0 rest := by
  have found := matchAt_word plain gap gap'
  obtain ⟨first, others, rfl⟩ := List.exists_cons_of_ne_nil plain.filled
  refine ⟨(first :: others).getLast (List.cons_ne_nil _ _), plain.letters _ (List.getLast_mem _), ?_⟩
  rw [List.cons_append] at found ⊢
  rw [findFrom, found]
  simp only
  have whole : (first :: (others ++ rest)).take (first :: others).length = first :: others := by
    rw [← List.cons_append, List.take_left]
  have passed : findFrom (some first) ((first :: others).length - 1) (others ++ rest) =
      findFrom (others.getLast?.or (some first)) 0 rest := findFrom_skip _ others rest
  rw [whole, passed]
  have last : others.getLast?.or (some first) = some ((first :: others).getLast (List.cons_ne_nil _ _)) := by
    rw [← List.getLast?_eq_some_getLast, List.getLast?_cons]
    cases others.getLast? <;> rfl
  rw [last]

theorem findFrom_blank {last : UInt8} (letter : Letter last) (rest : GoString) :
    findFrom (some last) 0 (32 :: rest) = findFrom (some 32) 0 rest := by
  have nothing : matchAt (some last) (32 :: rest) = none := by
    have word : isWord last = true := letter.isWord
    have token : (32 :: rest).takeWhile isToken = [] := rfl
    rw [matchAt, token]
    split <;> rfl
  rw [findFrom, nothing]

theorem findFrom_line {words : List GoString} (plain : ∀ word ∈ words, Plain word) (gap : Gap before) :
    findFrom before 0 (List.intercalate [32] words) = words := by
  induction words generalizing before with
  | nil => rfl
  | cons word words ih =>
    have first := plain word List.mem_cons_self
    have others : ∀ word ∈ words, Plain word := fun word later => plain word (List.mem_cons_of_mem _ later)
    cases words with
    | nil =>
      obtain ⟨last, _, found⟩ := findFrom_word first gap [] (Or.inl rfl)
      rw [List.append_nil] at found
      rw [List.intercalate_singleton, found]
      rfl
    | cons next words =>
      rw [List.intercalate_cons_cons]
      obtain ⟨last, letter, found⟩ := findFrom_word first gap (32 :: List.intercalate [32] (next :: words))
        (Or.inr rfl)
      rw [List.append_assoc, List.singleton_append, found, findFrom_blank letter, ih others (Or.inr rfl)]

end Matches

section Texts

theorem mem_line {words : List GoString} {byte : UInt8} (member : byte ∈ List.intercalate [32] words) :
    byte = 32 ∨ ∃ word ∈ words, byte ∈ word := by
  induction words with
  | nil => cases member
  | cons word words ih =>
    cases words with
    | nil =>
      rw [List.intercalate_singleton] at member
      exact Or.inr ⟨word, List.mem_cons_self, member⟩
    | cons next words =>
      rw [List.intercalate_cons_cons, List.mem_append, List.mem_append, List.mem_singleton] at member
      rcases member with (inside | blank) | later
      · exact Or.inr ⟨word, List.mem_cons_self, inside⟩
      · exact Or.inl blank
      · refine (ih later).imp_right ?_
        rintro ⟨word, listed, inside⟩
        exact ⟨word, List.mem_cons_of_mem _ listed, inside⟩

theorem document_cons (words : List GoString) (lines : List (List GoString)) :
    document (words :: lines) = List.intercalate [32] words ++ newline :: document lines := by
  simp [document, newline]

section Line
variable {words : List GoString} (plain : ∀ word ∈ words, Plain word)
include plain

theorem mem_letters {byte : UInt8} (member : byte ∈ List.intercalate [32] words) : byte = 32 ∨ Letter byte := by
  refine (mem_line member).imp_right ?_
  rintro ⟨word, listed, inside⟩
  exact (plain word listed).letters byte inside

theorem line_clean : newline ∉ List.intercalate [32] words ∧ carriageReturn ∉ List.intercalate [32] words := by
  refine ⟨fun member => ?_, fun member => ?_⟩
  · rcases mem_letters plain member with blank | letter
    · cases blank
    · exact letter.ne (by decide) rfl
  · rcases mem_letters plain member with blank | letter
    · cases blank
    · exact letter.ne (by decide) rfl

theorem line_lower : (List.intercalate [32] words).map toLower = List.intercalate [32] words := by
  have each : ∀ byte ∈ List.intercalate [32] words, toLower byte = byte := by
    intro byte member
    rcases mem_letters plain member with rfl | letter
    · rfl
    · exact letter.toLower
  rw [List.map_congr_left each, List.map_id']

/-- The record of a word. -/
def one (word : GoString) : Record := { key := word, value := [49] }

theorem map_line (path : GoString) : map path (List.intercalate [32] words) = words.map one := by
  rw [map, line_lower plain, findAllString, findFrom_line plain (Or.inl rfl)]
  rfl

end Line

theorem scan_document {lines : List (List GoString)} (plain : ∀ words ∈ lines, ∀ word ∈ words, Plain word)
    (clean : (scan { bytes := document lines }).2 = none) :
    (scan { bytes := document lines }).1 = lines.map fun words => List.intercalate [32] words := by
  induction lines with
  | nil => rfl
  | cons words lines ih =>
    have whole := line_clean (plain words List.mem_cons_self)
    unfold scan at ih clean ⊢
    simp only at ih clean ⊢
    rw [document_cons, pieces_line whole.1] at clean ⊢
    simp only [tokens] at clean ⊢
    split at clean
    next => cases clean
    next short =>
      rw [if_neg short, dropCR_whole whole.2, ih (fun words later => plain words (List.mem_cons_of_mem _ later)) clean]
      rfl

/-- What the mapper emits for a corpus is its words. -/
theorem emitted_corpus {contents : GoString → Option GoString} {corpus : Corpus}
    (held : ∀ file ∈ corpus, contents file.1 = some (document file.2))
    (plain : ∀ file ∈ corpus, ∀ words ∈ file.2, ∀ word ∈ words, Plain word)
    (readable : ∀ file ∈ corpus, Readable contents file.1) :
    emitted map contents (corpus.map Prod.fst) = corpus.words.map one := by
  rw [emitted, List.flatMap_map, Corpus.words, List.map_flatMap]
  refine List.flatMap_congr fun file listed => ?_
  obtain ⟨bytes, found, clean⟩ := readable file listed
  cases (held file listed).symm.trans found
  rw [emittedFrom, found, Option.getD_some, scan_document (plain file listed) clean, List.flatMap_map, List.map_flatten,
    ← List.flatMap_def]
  exact List.flatMap_congr fun words member => map_line (plain file listed words member) file.1

end Texts

end FromScratch.Proofs.WordSplitting
