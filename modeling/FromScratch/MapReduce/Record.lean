import FromScratch.MapReduce.GoString

/-! The on-disk key/value format: one line a record, key and value separated by
a tab, and tabs, line ends and backslashes inside them escaped. -/

namespace FromScratch.MapReduce

/-- Why a call failed. Only the causes the program tells apart are. -/
inductive Err where
  | notExist
  | io
  | tooLong
  | missingSeparator (line : GoString)
  | trailingEscape
  | unknownEscape (byte : UInt8)
  | numReducers
  | numMappers
  deriving DecidableEq

structure Record where
  key : GoString
  value : GoString
  deriving DecidableEq

namespace Record

def tab : UInt8 := 9

def newline : UInt8 := 10

def carriageReturn : UInt8 := 13

def backslash : UInt8 := 92

def size (r : Record) : Nat := r.key.length + r.value.length + 2

/-- The bytes `strings.ContainsAny` looks for: all ASCII, so it may look byte by byte. -/
def special (byte : UInt8) : Bool :=
  byte == backslash || byte == tab || byte == newline || byte == carriageReturn

def escapeRune (c : Char) : GoString :=
  if c = '\\' then [backslash, backslash]
  else if c = '\t' then [backslash, 116]
  else if c = '\n' then [backslash, 110]
  else if c = '\r' then [backslash, 114]
  else String.utf8EncodeChar c

def escape (s : GoString) : GoString :=
  if s.any special then (GoString.runes s).flatMap escapeRune else s

def unescapeByte (byte : UInt8) : Except Err UInt8 :=
  if byte = backslash then .ok backslash
  else if byte = 116 then .ok tab
  else if byte = 110 then .ok newline
  else if byte = 114 then .ok carriageReturn
  else .error (.unknownEscape byte)

def unescapeFrom : GoString → Except Err GoString
  | [] => .ok []
  | byte :: rest =>
    if byte ≠ backslash then (byte :: ·) <$> unescapeFrom rest
    else match rest with
      | [] => .error .trailingEscape
      | byte :: rest => do
        let byte ← unescapeByte byte
        let rest ← unescapeFrom rest
        pure (byte :: rest)

def unescape (s : GoString) : Except Err GoString :=
  if backslash ∈ s then unescapeFrom s else .ok s

/-- What `Writer.Write` appends. -/
def encode (r : Record) : GoString := escape r.key ++ tab :: (escape r.value ++ [newline])

def encodeAll (records : List Record) : GoString := records.flatMap encode

end Record

/-- What reading an opened file to its end delivers, and the error that ends it. -/
structure Stream where
  bytes : GoString
  readErr : Option Err := none
  deriving DecidableEq

namespace Scanner
open Record (newline carriageReturn)

/-- The longest line a scanner's buffer holds, its newline included. -/
def maxTokenSize : Nat := 16 * 2 ^ 20

def dropCR (line : GoString) : GoString := if line.getLast? = some carriageReturn then line.dropLast else line

/-- The bytes up to the first newline, and what stands between later ones. -/
def pieces : GoString → GoString × List GoString
  | [] => ([], [])
  | byte :: rest =>
    let (first, others) := pieces rest
    if byte = newline then ([], first :: others) else (byte :: first, others)

/-- The tokens `Scan` yields and then `Err`. What follows the last newline is a
line of its own unless it is empty, also when a read error cut it short. -/
def tokens (readErr : Option Err) : GoString → List GoString → List GoString × Option Err
  | last, [] =>
    if last = [] then ([], readErr)
    else if maxTokenSize ≤ last.length then ([], some .tooLong)
    else ([dropCR last], readErr)
  | line, next :: others =>
    if maxTokenSize ≤ line.length then ([], some .tooLong)
    else
      let (lines, err) := tokens readErr next others
      (dropCR line :: lines, err)

def scan (stream : Stream) : List GoString × Option Err :=
  let (first, others) := pieces stream.bytes
  tokens stream.readErr first others

end Scanner

namespace Record

/-- The body of `Reader.Next` on a line that is not empty. -/
def parse (line : GoString) : Except Err Record :=
  if tab ∉ line then .error (.missingSeparator line)
  else do
    let key ← unescape (line.takeWhile (· ≠ tab))
    let value ← unescape ((line.dropWhile (· ≠ tab)).drop 1)
    pure { key := key, value := value }

end Record

/-- `FileSource`: the lines its scanner has still to yield, and its `Err`. -/
structure Source where
  lines : List GoString
  err : Option Err := none
  deriving DecidableEq

namespace Source

def nextFrom (err : Option Err) : List GoString → Except Err (Option (Record × Source))
  | [] =>
    match err with
    | some e => .error e
    | none => .ok none
  | line :: lines =>
    if line = [] then nextFrom err lines
    else do
      let record ← Record.parse line
      pure (some (record, { lines := lines, err := err }))

/-- `Next`: `none` is `ok = false`. -/
def next (s : Source) : Except Err (Option (Record × Source)) := nextFrom s.err s.lines

def ofStream (stream : Stream) : Source :=
  let (lines, err) := Scanner.scan stream
  { lines := lines, err := err }

theorem next_shorter {s later : Source} {record : Record} (read : s.next = .ok (some (record, later))) :
    later.lines.length < s.lines.length := by
  obtain ⟨lines, err⟩ := s
  change nextFrom err lines = _ at read
  induction lines with
  | nil => cases err <;> cases read
  | cons line lines ih =>
    unfold nextFrom at read
    split at read
    next => exact Nat.lt_succ_of_lt (ih read)
    next =>
      cases parsed : Record.parse line with
      | error e => rw [parsed] at read; cases read
      | ok found => rw [parsed] at read; cases read; exact Nat.lt_succ_self _

/-- Calling `Next` until `ok` is false. -/
def readAll (s : Source) : Except Err (List Record) :=
  match _read : s.next with
  | .error e => .error e
  | .ok none => .ok []
  | .ok (some (record, later)) => (record :: ·) <$> later.readAll
termination_by s.lines.length
decreasing_by exact next_shorter _read

end Source
end FromScratch.MapReduce
