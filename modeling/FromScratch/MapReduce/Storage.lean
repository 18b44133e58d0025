import FromScratch.MapReduce.FileSystem

/-! The layout, the hash that routes a key to its reducer, the dealing of input
files to map tasks, and atomic publication of a file through a temporary one. -/

namespace FromScratch.MapReduce
open Lib (Program)

namespace Storage

def mapDir (mapTask : Nat) : Directory := .map mapTask

def intermediatePath (mapTask partition : Nat) : Name := .part mapTask partition

def spillPath (mapTask number partition : Nat) : Name := .spill mapTask number partition

def outputPath (partition : Nat) : Name := .out partition

/-- `fnv.New32a`. -/
def fnv32a (key : GoString) : UInt32 :=
  key.foldl (fun hash byte => (hash ^^^ byte.toUInt32) * 16777619) 2166136261

/-- The reducer count is narrowed to 32 bits before the division. -/
def partition (key : GoString) (numReducers : Nat) : Nat :=
  if numReducers ≤ 1 then 0 else (fnv32a key % UInt32.ofNat numReducers).toNat

def splitFiles (files : List GoString) (n : Int) : List (List GoString) :=
  let n := if n < 1 then 1 else n.toNat
  let n := if files.length < n then files.length else n
  files.zipIdx.foldl (fun groups entry => groups.modify (entry.2 % n) (· ++ [entry.1])) (List.replicate n [])

/-- `SplitFiles` with the panics a remainder and an index can end in, as `none`. -/
def splitFilesOrPanic (files : List GoString) (n : Int) : Option (List (List GoString)) :=
  let n := if n < 1 then 1 else n.toNat
  let n := if files.length < n then files.length else n
  files.zipIdx.foldlM (fun groups entry =>
    if n = 0 then none
    else if groups.length ≤ entry.2 % n then none
    else some (groups.modify (entry.2 % n) (· ++ [entry.1]))) (List.replicate n [])

def writeAtomic (path : Name) (write : Path → Attempt α) : Attempt α := do
  let _ ← call (.mkdirAll path.dir)
  let tmp ← call (.createTemp path)
  match ← (write tmp).outcome with
  | .error e =>
    let _ ← (call (.close tmp)).outcome
    let _ ← (call (.remove tmp)).outcome
    .fail e
  | .ok value =>
    match ← (call (.close tmp)).outcome with
    | .error e =>
      let _ ← (call (.remove tmp)).outcome
      .fail e
    | .ok _ =>
      match ← (call (.rename tmp path)).outcome with
      | .error e =>
        let _ ← (call (.remove tmp)).outcome
        .fail e
      | .ok _ => pure value

end Storage

/-- `record.Writer` over its `bufio.Writer`: what is buffered and the error that
makes every later call fail. -/
structure Writer where
  file : Path
  buffered : GoString := []
  err : Option Err := none

namespace Writer

def bufferSize : Nat := 2 ^ 16

def send (w : Writer) (bytes : GoString) : Attempt Writer := do
  match ← (call (.write w.file bytes)).outcome with
  | .ok _ => pure w
  | .error e => pure { w with err := some e }

/-- `bufio.Writer.WriteString`: the buffer is filled up and sent when the bytes
do not fit, and what would not fit into an empty buffer goes past it. -/
def put (w : Writer) (bytes : GoString) : Attempt Writer :=
  if w.err.isSome then pure w
  else if w.buffered.length + bytes.length ≤ bufferSize then pure { w with buffered := w.buffered ++ bytes }
  else if w.buffered = [] then w.send bytes
  else do
    let room := bufferSize - w.buffered.length
    let w ← { w with buffered := [] }.send (w.buffered ++ bytes.take room)
    if w.err.isSome then pure w
    else if (bytes.drop room).length ≤ bufferSize then pure { w with buffered := bytes.drop room }
    else w.send (bytes.drop room)

def write (w : Writer) (r : Record) : Attempt Writer := do
  let w ← w.put (Record.escape r.key)
  let w ← w.put [Record.tab]
  let w ← w.put (Record.escape r.value)
  w.put [Record.newline]

/-- `w.Write(rec)` where its error is looked at. -/
def writeOrFail (w : Writer) (r : Record) : Attempt Writer := do
  let w ← w.write r
  match w.err with
  | some e => .fail e
  | none => pure w

def flush (w : Writer) : Attempt Unit :=
  match w.err with
  | some e => .fail e
  | none => if w.buffered = [] then pure () else call (.write w.file w.buffered)

end Writer
end FromScratch.MapReduce
