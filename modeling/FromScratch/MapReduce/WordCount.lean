import Mathlib.Data.List.DropRight
import FromScratch.Lib.Decimal
import FromScratch.Lib.FiniteMap
import FromScratch.MapReduce.Pipeline

/-! The word count: the program of `examples/wordcount`, the corpus that is made
for it, and the script that verifies its output. The texts are ASCII. -/

namespace FromScratch.MapReduce
open Lib (FiniteMap)
open Lib.Decimal (IsDigit)

namespace WordCount

section WordCounter

/-- `strings.ToLower`. -/
def toLower (byte : UInt8) : UInt8 := if 65 ≤ byte ∧ byte ≤ 90 then byte + 32 else byte

def isAlphanumeric (byte : UInt8) : Bool :=
  (48 ≤ byte && byte ≤ 57) || (65 ≤ byte && byte ≤ 90) || (97 ≤ byte && byte ≤ 122)

/-- `[\p{L}\p{N}']`. -/
def isToken (byte : UInt8) : Bool := isAlphanumeric byte || byte = 39

/-- `\w`. -/
def isWord (byte : UInt8) : Bool := isAlphanumeric byte || byte = 95

/-- `\b`, between two characters that need not be there. -/
def boundary (before after : Option UInt8) : Bool := before.any isWord != after.any isWord

/-- The longest match of up to so many bytes, which ends at a boundary. -/
def longest (text : GoString) : Nat → Option Nat
  | 0 => none
  | size + 1 => if boundary text[size]? text[size + 1]? then some (size + 1) else longest text size

/-- The size of the match of `wordRegex` at the front of the text, if there is one. -/
def matchAt (before : Option UInt8) (text : GoString) : Option Nat :=
  if boundary before text.head? then longest text (text.takeWhile isToken).length else none

/-- The second argument counts the bytes of a match that are still to be passed. -/
def findFrom : Option UInt8 → Nat → GoString → List GoString
  | _, _, [] => []
  | _, skip + 1, byte :: rest => findFrom (some byte) skip rest
  | before, 0, byte :: rest =>
    match matchAt before (byte :: rest) with
    | some size => (byte :: rest).take size :: findFrom (some byte) (size - 1) rest
    | none => findFrom (some byte) 0 rest

def findAllString (text : GoString) : List GoString := findFrom none 0 text

/-- `Map`, which gives every word the value `1`. -/
def map (_ line : GoString) : List Record :=
  (findAllString (line.map toLower)).map fun word => { key := word, value := [49] }

end WordCounter

section Adder

/-- `strconv.Atoi`, where an `int` has 64 bits. -/
def atoi (s : GoString) : Option Int64 :=
  let negative := s.head? = some 45
  let digits := if negative ∨ s.head? = some 43 then s.tail else s
  let n : Int := if negative then -Lib.Decimal.value digits else Lib.Decimal.value digits
  if (digits ≠ [] ∧ digits.all fun digit => IsDigit digit) ∧ -2 ^ 63 ≤ n ∧ n < 2 ^ 63 then some (Int64.ofInt n) else none

/-- `strconv.Itoa`. -/
def itoa (n : Int64) : GoString :=
  if n < 0 then 45 :: Lib.Decimal.numeral n.toInt.natAbs else Lib.Decimal.numeral n.toInt.natAbs

/-- The sum both loops compute, over the values that are numbers. -/
def total (values : List GoString) : Int64 := (values.filterMap atoi).foldl (· + ·) 0

def reduce (_ : GoString) (values : List GoString) : List GoString := [itoa (total values)]

def combine (_ : GoString) (values : List GoString) : List GoString := [itoa (total values)]

end Adder

section Corpus

/-- The words of `make_corpus.py`. -/
def VOCAB : List GoString := [
  "map", "reduce", "shuffle", "partition", "worker", "coordinator", "task",
  "cluster", "node", "record", "key", "value", "merge", "sort", "spill",
  "combiner", "counter", "heartbeat", "straggler", "backup", "fault",
  "tolerance", "distributed", "throughput", "latency", "storage", "stream",
  "the", "a", "of", "and", "to", "in", "is", "it", "that", "with"].map fun word => GoString.writeRunes word.toList

/-- A file of lines of words. -/
def document (lines : List (List GoString)) : GoString := lines.flatMap fun words => List.intercalate [32] words ++ [10]

/-- The files of a corpus, by the names of their paths, and the words of their lines. -/
abbrev Corpus : Type := List (GoString × List (List GoString))

def Corpus.words (corpus : Corpus) : List GoString := corpus.flatMap fun file => file.2.flatten

/-- `collections.Counter`. -/
def counts (words : List GoString) : FiniteMap GoString Int :=
  words.foldl (fun counts word => counts.insert word ((counts.lookup word).getD 0 + 1)) ∅

end Corpus

section Verify

/-- A file opened as text: every line end becomes a newline. -/
def universalNewlines : GoString → GoString
  | [] => []
  | byte :: rest =>
    if byte = 13 then
      match rest with
      | [] => [10]
      | next :: others => if next = 10 then 10 :: universalNewlines others else 10 :: universalNewlines (next :: others)
    else byte :: universalNewlines rest

/-- The lines of a file, without their newlines. -/
def lines (content : GoString) : List GoString :=
  let parts := (universalNewlines content).splitOn 10
  if parts.getLastD [] = [] then parts.dropLast else parts

/-- `none` is an exception: no other escapes are known. -/
def unescape : GoString → Option GoString
  | [] => some []
  | byte :: rest =>
    if byte ≠ 92 then (byte :: ·) <$> unescape rest
    else match rest with
      | [] => none
      | escaped :: others =>
        match ([(92, 92), (116, 9), (110, 10), (114, 13)] : List (UInt8 × UInt8)).lookup escaped with
        | some byte => (byte :: ·) <$> unescape others
        | none => none

def isSpace (byte : UInt8) : Bool := (9 ≤ byte && byte ≤ 13) || (28 ≤ byte && byte ≤ 32)

/-- `int`: a sign and digits, which may have an underscore between any two. -/
def int (s : GoString) : Option Int :=
  let body := (s.dropWhile isSpace).rdropWhile isSpace
  let negative := body.head? = some 45
  let digits := if negative ∨ body.head? = some 43 then body.tail else body
  let groups := digits.splitOn 95
  if groups.all fun group => group ≠ [] ∧ group.all fun digit => IsDigit digit then
    some (if negative then -Lib.Decimal.value groups.flatten else Lib.Decimal.value groups.flatten)
  else none

/-- What is known of the output while its files are read. -/
structure Output (N : Type) where
  actual : FiniteMap GoString Int := ∅
  owner : FiniteMap GoString N := ∅
  duplicates : List (GoString × N × N) := []

inductive Verdict (N : Type) where
  | noFiles
  | raised
  | failed (duplicates : List (GoString × N × N)) (missing extra mismatched : List GoString)
  | verified (total : Int)

variable {N : Type} [DecidableEq N]

/-- The body of the loop over the lines of the file `name`. -/
def readLine (name : N) (output : Output N) (line : GoString) : Option (Output N) :=
  if line = [] then some output
  else do
    let key ← unescape (line.takeWhile (· ≠ Record.tab))
    let value ← unescape ((line.dropWhile (· ≠ Record.tab)).drop 1)
    let count ← int value
    pure {
      actual := output.actual.insert key count
      owner := output.owner.insert key name
      duplicates := match output.owner.lookup key with
        | some first => if first ≠ name then output.duplicates ++ [(key, first, name)] else output.duplicates
        | none => output.duplicates }

def readFile (output : Output N) (file : N × GoString) : Option (Output N) := (lines file.2).foldlM (readLine file.1) output

/-- `verify.py`, on the files of the output directory and the counts that are expected. -/
def verify (files : List (N × GoString)) (expected : FiniteMap GoString Int) : Verdict N :=
  if files = [] then .noFiles
  else match files.foldlM readFile {} with
    | none => .raised
    | some output =>
      let missing := expected.keys.filter (· ∉ output.actual)
      let extra := output.actual.keys.filter (· ∉ expected)
      let mismatched := expected.keys.filter fun key => key ∈ output.actual ∧ expected.lookup key ≠ output.actual.lookup key
      if output.duplicates = [] ∧ missing = [] ∧ extra = [] ∧ mismatched = [] then
        .verified (output.actual.entries.map Sigma.snd).sum
      else .failed output.duplicates missing extra mismatched

/-- The files `part-*` of the output directory, which are all that are in it. -/
def outputFiles (w : World) : List (Path × GoString) :=
  (w.listing .out).filterMap fun path => (w.files.lookup path).map fun content => (path, content)

end Verify
end WordCount
end FromScratch.MapReduce
