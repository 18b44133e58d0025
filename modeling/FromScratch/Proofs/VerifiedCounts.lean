import Mathlib.Algebra.BigOperators.Group.List.Lemmas
import Mathlib.Data.Nat.Cast.Basic
import FromScratch.Proofs.WordTotals

/-! What the script that verifies a word count makes of the files it reads: it is
content when every word is on a line of its own file, with its count, and no other
file has a line. -/

namespace FromScratch.Proofs.VerifiedCounts
open FromScratch.MapReduce WordCount Lib Codec WordSplitting WordTotals

section Lines

/-- The key and the count on a line that is not empty, or an exception. -/
def parse (line : GoString) : Option (GoString × Int) := do
  let key ← unescape (line.takeWhile (· ≠ Record.tab))
  let value ← unescape ((line.dropWhile (· ≠ Record.tab)).drop 1)
  let count ← int value
  pure (key, count)

theorem unescape_plain {s : GoString} (free : ∀ byte ∈ s, byte ≠ 92) : unescape s = some s := by
  induction s with
  | nil => rfl
  | cons byte s ih =>
    unfold unescape
    rw [if_pos (free byte List.mem_cons_self), ih fun other later => free other (List.mem_cons_of_mem _ later)]
    rfl

theorem universalNewlines_plain {s : GoString} (free : Record.carriageReturn ∉ s) : universalNewlines s = s := by
  induction s with
  | nil => rfl
  | cons byte s ih =>
    rw [List.mem_cons, not_or] at free
    have inside : byte ≠ 13 := Ne.symm free.1
    unfold universalNewlines
    rw [if_neg inside, ih free.2]

/-- The lines of a file are the lines that were written. -/
theorem lines_encodeAll (records : List Record) : lines (Record.encodeAll records) = records.map line := by
  have clean : Record.carriageReturn ∉ Record.encodeAll records := by
    intro member
    obtain ⟨r, _, inside⟩ := List.mem_flatMap.mp member
    rw [encode_line, List.mem_append, List.mem_singleton] at inside
    rcases inside with inside | newline
    · exact (line_whole r).2 inside
    · cases newline
  have parts : (Record.encodeAll records).splitOn 10 = records.map line ++ [[]] := by
    clear clean
    induction records with
    | nil => rfl
    | cons r records ih =>
      have file : Record.encodeAll (r :: records) = line r ++ 10 :: Record.encodeAll records := by
        simp [Record.encodeAll, encode_line, Record.newline]
      have whole : 10 ∉ line r := (line_whole r).1
      rw [file, List.splitOn_append_cons_self_of_not_mem whole, ih]
      rfl
  rw [lines, universalNewlines_plain clean, parts]
  simp

theorem int_numeral (count : Nat) : int (Decimal.numeral count) = some (count : Int) := by
  have digits := Decimal.numeral_digits count
  have filled := Decimal.numeral_ne_nil count
  have unspaced {byte : UInt8} (digit : Decimal.IsDigit byte) : ¬ isSpace byte = true := by
    intro space
    simp only [isSpace, Bool.or_eq_true, Bool.and_eq_true, decide_eq_true_eq, UInt8.le_iff_toNat_le] at space
    obtain ⟨low, high⟩ := digit
    simp at space
    omega
  have front : (Decimal.numeral count).dropWhile isSpace = Decimal.numeral count :=
    List.dropWhile_eq_self_iff.mpr fun inside => unspaced (digits _ (List.getElem_mem inside))
  have body : ((Decimal.numeral count).dropWhile isSpace).rdropWhile isSpace = Decimal.numeral count := by
    rw [front]
    exact List.rdropWhile_eq_self_iff.mpr fun inside => unspaced (digits _ (List.getLast_mem inside))
  have minus := digits_unsigned digits 45 (by decide)
  have plus := digits_unsigned digits 43 (by decide)
  have whole : (Decimal.numeral count).splitOn 95 = [Decimal.numeral count] :=
    List.splitOn_eq_singleton fun member => absurd (digits _ member) (by decide)
  have all : ([Decimal.numeral count].all fun group => decide (group ≠ [] ∧ group.all fun digit => Decimal.IsDigit digit)) =
      true := by
    simpa [filled] using digits
  simp only [int, body, minus, plus, or_self, if_false, whole]
  rw [if_pos all, List.flatten_singleton, Decimal.value_numeral]

/-- The line of a word and its count. -/
theorem parse_count {word : GoString} (plain : Plain word) {count : Nat} (small : count < 2 ^ 63) :
    parse (line ⟨word, itoa (Int64.ofNat count)⟩) = some (word, (count : Int)) := by
  have untabbed : ∀ byte ∈ word, decide (byte ≠ Record.tab) = true :=
    fun byte member => decide_eq_true ((plain.letters byte member).ne (by decide))
  have unescaped : unescape word = some word :=
    unescape_plain fun byte member => (plain.letters byte member).ne (by decide)
  have number : unescape (Decimal.numeral count) = some (Decimal.numeral count) := by
    refine unescape_plain fun byte member => ?_
    rintro rfl
    exact absurd (Decimal.numeral_digits count _ member) (by decide)
  have key : (word ++ Record.tab :: Decimal.numeral count).takeWhile (· ≠ Record.tab) = word := by
    rw [List.takeWhile_append_of_pos untabbed]
    simp
  have value : ((word ++ Record.tab :: Decimal.numeral count).dropWhile (· ≠ Record.tab)).drop 1 =
    Decimal.numeral count := by
    rw [List.dropWhile_append_of_pos untabbed]
    simp
  have text : line ⟨word, itoa (Int64.ofNat count)⟩ = word ++ Record.tab :: Decimal.numeral count := by
    rw [line, escape_word plain, escape_itoa, itoa_ofNat small]
  rw [parse, text, key, value, unescaped, number]
  simp [int_numeral]

end Lines

section Script
variable {N : Type}

/-- What the output is when these counts have been read for these keys. -/
structure Gathers (read : N → GoString → Int → Prop) (output : Output N) : Prop where
  counted : ∀ key count, output.actual.lookup key = some count → ∃ name, read name key count
  counts : ∀ name key count, read name key count → key ∈ output.actual
  owned : ∀ key name, output.owner.lookup key = some name → ∃ count, read name key count
  owns : ∀ name key count, read name key count → key ∈ output.owner
  single : output.duplicates = [] ↔
    ∀ key first count second other, read first key count → read second key other → first = second

theorem Gathers.empty : Gathers (N := N) (fun _ _ _ => False) {} := ⟨nofun, nofun, nofun, nofun, by simp⟩

variable {read : N → GoString → Int → Prop} {output output' : Output N} {name : N}

theorem Gathers.congr (gathers : Gathers read output) {other : N → GoString → Int → Prop}
    (same : ∀ name key count, read name key count ↔ other name key count) : Gathers other output := by
  have equal : read = other := by
    funext name key count
    exact propext (same name key count)
  rwa [← equal]

variable [DecidableEq N]

/-- The output with one more count. -/
def put (name : N) (output : Output N) (key : GoString) (count : Int) : Output N where
  actual := output.actual.insert key count
  owner := output.owner.insert key name
  duplicates := match output.owner.lookup key with
    | some first => if first ≠ name then output.duplicates ++ [(key, first, name)] else output.duplicates
    | none => output.duplicates

theorem readLine_parse {line : GoString} (filled : line ≠ []) :
    readLine name output line = (parse line).map fun entry => put name output entry.1 entry.2 := by
  rw [readLine, if_neg filled]
  unfold parse
  cases unescape (line.takeWhile (· ≠ Record.tab)) with
  | none => rfl
  | some key =>
    cases unescape ((line.dropWhile (· ≠ Record.tab)).drop 1) with
    | none => rfl
    | some value =>
      simp only [Option.bind_eq_bind, Option.bind_some]
      cases int value with
      | none => rfl
      | some count => rfl

/-- A key stays with one file as long as it is read from no other. -/
theorem Gathers.put (gathers : Gathers read output) (name : N) (key : GoString) (count : Int) :
    Gathers (fun n k c => read n k c ∨ n = name ∧ k = key ∧ c = count) (put name output key count) := by
  refine ⟨fun k c found => ?_, fun n k c known => ?_, fun k n found => ?_, fun n k c known => ?_, ?_⟩
  · simp only [VerifiedCounts.put, FiniteMap.lookup_insert_eq] at found
    split at found
    next same => exact ⟨name, Or.inr ⟨rfl, same, (Option.some.inj found).symm⟩⟩
    next => exact (gathers.counted k c found).imp fun _ => Or.inl
  · simp only [VerifiedCounts.put, AList.mem_insert]
    rcases known with known | ⟨_, same, _⟩
    · exact Or.inr (gathers.counts n k c known)
    · exact Or.inl same
  · simp only [VerifiedCounts.put, FiniteMap.lookup_insert_eq] at found
    split at found
    next same => exact ⟨count, Or.inr ⟨(Option.some.inj found).symm, same, rfl⟩⟩
    next => exact (gathers.owned k n found).imp fun _ => Or.inl
  · simp only [VerifiedCounts.put, AList.mem_insert]
    rcases known with known | ⟨_, same, _⟩
    · exact Or.inr (gathers.owns n k c known)
    · exact Or.inl same
  · have extend (kept : ∀ other count, read other key count → other = name) :
        (∀ key first count second other, read first key count → read second key other → first = second) ↔
          ∀ k first c second other, (read first k c ∨ first = name ∧ k = key ∧ c = count) →
            (read second k other ∨ second = name ∧ k = key ∧ other = count) → first = second := by
      refine ⟨fun single k first c second other known known' => ?_,
        fun single k first c second other known known' => single k first c second other (Or.inl known) (Or.inl known')⟩
      rcases known with known | ⟨rfl, rfl, rfl⟩
      · rcases known' with known' | ⟨rfl, rfl, rfl⟩
        · exact single k first c second other known known'
        · exact kept first c known
      · rcases known' with known' | ⟨rfl, _, _⟩
        · exact (kept second other known').symm
        · rfl
    simp only [VerifiedCounts.put]
    cases owner : output.owner.lookup key with
    | none =>
      refine gathers.single.trans (extend fun other c known => ?_)
      exact absurd (gathers.owns other key c known) (AList.lookup_eq_none.mp owner)
    | some first =>
      obtain ⟨c, known⟩ := gathers.owned key first owner
      simp only
      split
      next different =>
        refine iff_of_false (List.append_ne_nil_of_right_ne_nil _ (List.cons_ne_nil _ _)) fun single => different ?_
        exact single key first c name count (Or.inl known) (Or.inr ⟨rfl, rfl, rfl⟩)
      next same =>
        refine ⟨fun empty => ?_, fun single => ?_⟩
        · refine (extend fun other c' known' => ?_).mp (gathers.single.mp empty)
          exact (gathers.single.mp empty key other c' first c known' known).trans (not_not.mp same)
        · refine gathers.single.mpr fun k first c second other known known' => ?_
          exact single k first c second other (Or.inl known) (Or.inl known')

theorem Gathers.readLines {ls : List GoString} (gathers : Gathers read output)
    (run : ls.foldlM (readLine name) output = some output') :
    (∀ line ∈ ls, line ≠ [] → (parse line).isSome = true) ∧
      Gathers (fun n k c => read n k c ∨ n = name ∧ ∃ line ∈ ls, line ≠ [] ∧ parse line = some (k, c)) output' := by
  induction ls generalizing read output with
  | nil =>
    cases run
    exact ⟨nofun, gathers.congr (by simp)⟩
  | cons line ls ih =>
    rw [List.foldlM_cons] at run
    by_cases filled : line = []
    · subst filled
      obtain ⟨parsed, after⟩ := ih gathers run
      exact ⟨List.forall_mem_cons.mpr ⟨fun nonempty => absurd rfl nonempty, parsed⟩, after.congr (by simp)⟩
    · rw [readLine_parse filled] at run
      cases found : parse line with
      | none =>
        rw [found] at run
        cases run
      | some entry =>
        rw [found] at run
        obtain ⟨parsed, after⟩ := ih (gathers.put name entry.1 entry.2) run
        refine ⟨List.forall_mem_cons.mpr ⟨fun _ => by rw [found]; rfl, parsed⟩, after.congr fun n k c => ?_⟩
        have same : some entry = some (k, c) ↔ k = entry.1 ∧ c = entry.2 := by
          rw [Option.some.injEq, Prod.ext_iff]
          exact and_congr eq_comm eq_comm
        simp only [List.exists_mem_cons_iff, ne_eq, filled, not_false_eq_true, found, same, true_and]
        tauto

/-- The counts on the lines of these files. -/
def ReadIn (files : List (N × GoString)) (name : N) (key : GoString) (count : Int) : Prop :=
  ∃ file ∈ files, file.1 = name ∧ ∃ line ∈ lines file.2, line ≠ [] ∧ parse line = some (key, count)

theorem Gathers.readFiles {files : List (N × GoString)} (gathers : Gathers read output)
    (run : files.foldlM readFile output = some output') :
    (∀ file ∈ files, ∀ line ∈ lines file.2, line ≠ [] → (parse line).isSome = true) ∧
      Gathers (fun n k c => read n k c ∨ ReadIn files n k c) output' := by
  induction files generalizing read output with
  | nil =>
    cases run
    exact ⟨nofun, gathers.congr (by simp [ReadIn])⟩
  | cons file files ih =>
    rw [List.foldlM_cons] at run
    obtain ⟨middle, first, rest⟩ := Option.bind_eq_some_iff.mp run
    obtain ⟨parsed, between⟩ := gathers.readLines first
    obtain ⟨later, after⟩ := ih between rest
    refine ⟨List.forall_mem_cons.mpr ⟨parsed, later⟩, after.congr fun n k c => ?_⟩
    simp only [ReadIn, List.exists_mem_cons_iff, or_assoc, eq_comm (a := n)]

theorem lines_succeed (name : N) {ls : List GoString} (parsed : ∀ line ∈ ls, line ≠ [] → (parse line).isSome = true)
    (output : Output N) :
    ∃ output', ls.foldlM (readLine name) output = some output' := by
  induction ls generalizing output with
  | nil => exact ⟨output, rfl⟩
  | cons line ls ih =>
    obtain ⟨first, later⟩ := List.forall_mem_cons.mp parsed
    rw [List.foldlM_cons]
    by_cases filled : line = []
    · subst filled
      exact ih later output
    · obtain ⟨entry, found⟩ := Option.isSome_iff_exists.mp (first filled)
      rw [readLine_parse filled, found]
      exact ih later _

theorem files_succeed {files : List (N × GoString)}
    (parsed : ∀ file ∈ files, ∀ line ∈ lines file.2, line ≠ [] → (parse line).isSome = true) (output : Output N) :
    ∃ output', files.foldlM readFile output = some output' := by
  induction files generalizing output with
  | nil => exact ⟨output, rfl⟩
  | cons file files ih =>
    obtain ⟨first, later⟩ := List.forall_mem_cons.mp parsed
    obtain ⟨middle, read⟩ := lines_succeed file.1 first output
    rw [List.foldlM_cons, readFile, read]
    exact ih later middle

end Script

section Expected

theorem counts_lookup (words : List GoString) (key : GoString) :
    (counts words).lookup key = if key ∈ words then some (words.count key : Int) else none := by
  induction words using List.reverseRec with
  | nil => rfl
  | append_singleton words word ih =>
    have counted : (counts (words ++ [word])) = (counts words).insert word (((counts words).lookup word).getD 0 + 1) :=
      List.foldl_concat ..
    rw [counted, FiniteMap.lookup_insert_eq, List.count_append]
    split
    next same =>
      subst same
      rw [ih, if_pos (List.mem_append_right _ List.mem_cons_self), List.count_singleton_self]
      split
      next => rfl
      next fresh => rw [List.count_eq_zero_of_not_mem fresh]; rfl
    next other =>
      have once : List.count key [word] = 0 := List.count_eq_zero.mpr (by simpa using other)
      have member : key ∈ words ++ [word] ↔ key ∈ words := by simp [other]
      rw [ih, once, Nat.add_zero]
      simp only [member]

/-- The counts of all words add up to their number. -/
theorem counts_sum {words : List GoString} {table : FiniteMap GoString Int}
    (same : ∀ key, (counts words).lookup key = table.lookup key) : (table.entries.map Sigma.snd).sum = words.length := by
  have each : table.entries.map Sigma.snd = table.keys.map fun key => (words.count key : Int) := by
    rw [AList.keys, List.keys, List.map_map]
    refine List.map_congr_left fun entry listed => ?_
    have found : table.lookup entry.1 = some entry.2 := List.mem_dlookup table.nodupKeys listed
    rw [← same, counts_lookup] at found
    split at found
    next => exact (Option.some.inj found).symm
    next => cases found
  have keys : table.keys.Perm words.dedup := by
    refine (List.perm_ext_iff_of_nodup table.nodupKeys words.nodup_dedup).mpr fun key => ?_
    rw [List.mem_dedup]
    refine AList.lookup_isSome.symm.trans ?_
    rw [← same, counts_lookup]
    split
    next member => exact iff_of_true rfl member
    next missing => exact iff_of_false nofun missing
  have total := map_list_sum (Nat.castAddMonoidHom Int) (words.dedup.map fun key => words.count key)
  have length : (words.dedup.map fun key => words.count key).sum = words.length := by
    -- Strings are compared as lists here, and by their decidable equality there.
    convert List.sum_map_count_dedup_eq_length words
    rfl
  rw [length, List.map_map] at total
  rw [each, (keys.map _).sum_eq]
  exact total.symm

variable {N : Type} [DecidableEq N] {files : List (N × GoString)}

/-- The script is content when no key has two files and all counts agree. -/
theorem verify_verified (filled : files ≠ []) (expected : FiniteMap GoString Int) (total : Int) :
    verify files expected = .verified total ↔ ∃ output : Output N, files.foldlM readFile {} = some output ∧
      output.duplicates = [] ∧ (∀ key, expected.lookup key = output.actual.lookup key) ∧
      total = (output.actual.entries.map Sigma.snd).sum := by
  unfold verify
  rw [if_neg filled]
  cases files.foldlM readFile {} with
  | none => simp
  | some output =>
    have agree : expected.keys.filter (· ∉ output.actual) = [] ∧ output.actual.keys.filter (· ∉ expected) = [] ∧
        (expected.keys.filter fun key => key ∈ output.actual ∧ expected.lookup key ≠ output.actual.lookup key) = [] ↔
        ∀ key, expected.lookup key = output.actual.lookup key := by
      simp only [List.filter_eq_nil_iff, decide_eq_true_eq, AList.mem_keys, not_not, not_and]
      constructor
      · rintro ⟨missing, extra, mismatched⟩ key
        by_cases present : key ∈ expected
        · exact mismatched key present (missing key present)
        · rw [AList.lookup_eq_none.mpr present, AList.lookup_eq_none.mpr fun found => present (extra key found)]
      · intro same
        have members (key : GoString) : key ∈ expected ↔ key ∈ output.actual := by
          rw [← AList.lookup_isSome, ← AList.lookup_isSome, same]
        exact ⟨fun key => (members key).mp, fun key => (members key).mpr, fun key _ _ => same key⟩
    simp only
    split
    next content =>
      obtain ⟨single, rest⟩ := content
      simp only [Verdict.verified.injEq, Option.some.injEq, exists_eq_left', single, agree.mp rest, true_and, implies_true]
      exact eq_comm
    next wrong =>
      refine iff_of_false nofun fun found => wrong ?_
      obtain ⟨_, same, clear, lookups, _⟩ := found
      cases same
      exact ⟨clear, agree.mpr lookups⟩

/-- The files of a word count: those that are kept list the words at home there with
their counts, and every word is on a line of its home. -/
structure Tallied (kept : N → Prop) (home : GoString → N) (words : List GoString) (files : List (N × GoString)) : Prop where
  filled : files ≠ []
  homes : ∀ key ∈ words, kept (home key)
  counted : ∀ file ∈ files, kept file.1 → ∀ line ∈ lines file.2, line ≠ [] →
    ∃ key ∈ words, file.1 = home key ∧ parse line = some (key, (words.count key : Int))
  listed : ∀ key ∈ words, ReadIn files (home key) key (words.count key)

omit [DecidableEq N] in
/-- Where every line is one of these, the script has the counts of the words, each
from one file. -/
theorem Tallied.agrees {kept : N → Prop} {home : GoString → N} {words : List GoString} {output : Output N}
    (tallied : Tallied kept home words files)
    (clean : ∀ file ∈ files, ∀ line ∈ lines file.2, line ≠ [] →
      ∃ key ∈ words, file.1 = home key ∧ parse line = some (key, (words.count key : Int)))
    (gathers : Gathers (fun name key count => False ∨ ReadIn files name key count) output) :
    output.duplicates = [] ∧ ∀ key, (counts words).lookup key = output.actual.lookup key := by
  have known {name : N} {key : GoString} {count : Int} (read : False ∨ ReadIn files name key count) :
      key ∈ words ∧ name = home key ∧ count = words.count key := by
    obtain ⟨file, member, rfl, line, inside, filled, found⟩ := read.resolve_left id
    obtain ⟨word, listed, place, found'⟩ := clean file member line inside filled
    cases found.symm.trans found'
    exact ⟨listed, place, rfl⟩
  refine ⟨gathers.single.mpr fun key first count second other read read' => ?_, fun key => ?_⟩
  · rw [(known read).2.1, (known read').2.1]
  · rw [counts_lookup]
    split
    next word =>
      have present := gathers.counts _ key _ (Or.inr (tallied.listed key word))
      obtain ⟨count, found⟩ := Option.isSome_iff_exists.mp (AList.lookup_isSome.mpr present)
      obtain ⟨name, read⟩ := gathers.counted key count found
      rw [found, (known read).2.2]
    next missing =>
      cases found : output.actual.lookup key with
      | none => rfl
      | some count =>
        obtain ⟨name, read⟩ := gathers.counted key count found
        exact absurd (known read).1 missing

/-- A word count is verified unless there is a line in a file that is not kept. -/
theorem Tallied.verified {kept : N → Prop} {home : GoString → N} {words : List GoString}
    (tallied : Tallied kept home words files) (total : Int) : verify files (counts words) = .verified total ↔
      total = words.length ∧ ∀ file ∈ files, ¬ kept file.1 → ∀ line ∈ lines file.2, line = [] := by
  rw [verify_verified tallied.filled]
  constructor
  · rintro ⟨output, run, single, same, rfl⟩
    obtain ⟨parsed, gathers⟩ := Gathers.empty.readFiles run
    refine ⟨counts_sum same, fun file member stray line inside => ?_⟩
    by_contra filled
    obtain ⟨⟨key, count⟩, found⟩ := Option.isSome_iff_exists.mp (parsed file member line inside filled)
    have read : ReadIn files file.1 key count := ⟨file, member, rfl, line, inside, filled, found⟩
    have present := AList.lookup_isSome.mpr (gathers.counts file.1 key count (Or.inr read))
    rw [← same, counts_lookup] at present
    split at present
    next word =>
      have home := gathers.single.mp single key file.1 count (home key) _ (Or.inr read) (Or.inr (tallied.listed key word))
      rw [home] at stray
      exact stray (tallied.homes key word)
    next => cases present
  · rintro ⟨rfl, blank⟩
    have clean : ∀ file ∈ files, ∀ line ∈ lines file.2, line ≠ [] →
        ∃ key ∈ words, file.1 = home key ∧ parse line = some (key, (words.count key : Int)) := by
      intro file member line inside filled
      by_cases keeps : kept file.1
      · exact tallied.counted file member keeps line inside filled
      · exact absurd (blank file member keeps line inside) filled
    obtain ⟨output, run⟩ := files_succeed (fun file member line inside filled => by
      obtain ⟨key, _, _, found⟩ := clean file member line inside filled
      rw [found]
      rfl) ({} : Output N)
    obtain ⟨_, gathers⟩ := Gathers.empty.readFiles run
    obtain ⟨single, same⟩ := tallied.agrees clean gathers
    exact ⟨output, run, single, same, (counts_sum same).symm⟩

end Expected

end FromScratch.Proofs.VerifiedCounts
