import Mathlib.Data.List.Sort
import FromScratch.MapReduce.Merge
import FromScratch.MapReduce.Storage

/-! One map task: read the input line by line, spill a sorted run whenever the
buffer is large enough, and merge the runs into one file per partition. -/

namespace FromScratch.MapReduce
open Lib (Program)

/-- A user's `Map` as a pure function of the input's path and line: what it emits. -/
abbrev Mapper := GoString → GoString → List Record

abbrev Combiner := GoString → List GoString → List GoString

namespace Mapper

structure Options where
  taskID : Nat
  inputFiles : List GoString
  numReducers : Nat
  spillBytes : Int
  mapper : Mapper
  combiner : Option Combiner := none

structure Runner where
  buffer : List Record := []
  bytes : Nat := 0
  spills : Nat := 0
  spilled : List (List Name) := []

def recordLE (a b : Record) : Bool :=
  if a.key ≠ b.key then decide (a.key < b.key) else decide (a.value ≤ b.value)

def sortBuffer (buffer : List Record) : List Record := buffer.insertionSort fun a b => recordLE a b

/-- `parts[p]` of `partitionBuffer`. -/
def partitionBuffer (numReducers : Nat) (buffer : List Record) (p : Nat) : List Record :=
  buffer.filter fun record => Storage.partition record.key numReducers == p

def flush (combine : Combiner) (key : GoString) (values : List GoString) : List Record :=
  (combine key values).map fun value => { key := key, value := value }

/-- The loop of `applyCombiner`, with the key and the values it has collected. -/
def combineFrom (combine : Combiner) (current : GoString) (values : List GoString) : List Record → List Record
  | [] => flush combine current values
  | record :: records =>
    if record.key ≠ current then
      flush combine current values ++ combineFrom combine record.key [record.value] records
    else combineFrom combine current (values ++ [record.value]) records

def applyCombiner (combiner : Option Combiner) (records : List Record) : List Record :=
  match combiner, records with
  | none, _ | _, [] => records
  | some combine, record :: _ => combineFrom combine record.key [] records

/-- The counters `applyCombiner` adds to, over all of its calls of `flush`. -/
def countCombined (combiner : Option Combiner) (records : List Record) : Attempt Unit :=
  if combiner.isNone ∨ records = [] then pure ()
  else do
    call (.count "combine.in" (Int64.ofNat records.length))
    call (.count "combine.out" (Int64.ofNat (applyCombiner combiner records).length))

def writeRecords (path : Name) (records : List Record) : Attempt Unit :=
  Storage.writeAtomic path fun file => do
    let w ← Program.fold Writer.writeOrFail { file := file } records
    w.flush

variable (opts : Options)

/-- Partition `p` of the sorted buffer, combined: what `spill` and
`writeFinalFromBuffer` write for it. -/
def outputOf (buffer : List Record) (p : Nat) : List Record :=
  applyCombiner opts.combiner (partitionBuffer opts.numReducers (sortBuffer buffer) p)

def spill (r : Runner) : Attempt Runner :=
  if r.buffer = [] then pure r
  else do
    let paths ← Program.each (fun p => do
      countCombined opts.combiner (partitionBuffer opts.numReducers (sortBuffer r.buffer) p)
      let path := Storage.spillPath opts.taskID r.spills p
      writeRecords path (outputOf opts r.buffer p)
      pure path) (List.range opts.numReducers)
    call (.count "map.spills" 1)
    pure { buffer := [], bytes := 0, spills := r.spills + 1, spilled := r.spilled ++ [paths] }

/-- `emit`, for everything one call of `Map` emits. -/
def emit (r : Runner) (records : List Record) : Runner :=
  { r with buffer := r.buffer ++ records, bytes := r.bytes + (records.map Record.size).sum }

def consumeLine (path : GoString) (r : Runner) (line : GoString) : Attempt Runner := do
  call (.count "map.input_records" 1)
  let records := opts.mapper path line
  call (.count "map.emitted" (Int64.ofNat records.length))
  let r := emit r records
  if opts.spillBytes ≤ r.bytes then spill opts r else pure r

def consume (r : Runner) (path : GoString) : Attempt Runner := do
  let stream ← call (.openFile (.input path))
  let (lines, err) := Scanner.scan stream
  let r ← Program.fold (consumeLine opts path) r lines
  match err with
  | some e => .fail e
  | none => pure r

def removeStaleSpills : Attempt Unit := do
  let entries ← call (.readDir (Storage.mapDir opts.taskID))
  let _ ← Program.each (fun path => call (.remove path)) (entries.filter Path.isSpill)
  pure ()

def writeFinalFromBuffer (r : Runner) : Attempt Unit := do
  let _ ← Program.each (fun p => do
    countCombined opts.combiner (partitionBuffer opts.numReducers (sortBuffer r.buffer) p)
    writeRecords (Storage.intermediatePath opts.taskID p) (outputOf opts r.buffer p)
    call (.count "map.output_records" (Int64.ofNat (outputOf opts r.buffer p).length)))
    (List.range opts.numReducers)
  pure ()

/-- The body of the loop of `mergeSpills` over the partitions; `paths[p]` is
there for every run because `spill` writes every partition. -/
def mergePartition (spilled : List (List Name)) (p : Nat) : Attempt Unit := do
  let streams ← Program.each (fun path => call (.openFile (.file path))) (spilled.filterMap fun paths => paths[p]?)
  let (records, err) := Merger.drain { sources := streams.map Source.ofStream }
  Storage.writeAtomic (Storage.intermediatePath opts.taskID p) fun file => do
    let w ← Program.fold Writer.writeOrFail { file := file } records
    match err with
    | some e => .fail e
    | none => w.flush
  call (.count "map.output_records" (Int64.ofNat records.length))

/-- `os.Remove(path)` with its error dropped. -/
def tryRemove (path : Name) : Attempt Unit := do
  let _ ← (call (.remove (.file path))).outcome
  pure ()

def mergeSpills (r : Runner) : Attempt Unit := do
  let _ ← Program.each (mergePartition opts r.spilled) (List.range opts.numReducers)
  let _ ← Program.each tryRemove r.spilled.flatten
  pure ()

/-- `Run` after it has seen to its options. -/
def runFrom : Attempt Unit := do
  call (.mkdirAll (Storage.mapDir opts.taskID))
  removeStaleSpills opts
  let r ← Program.fold (consume opts) {} opts.inputFiles
  if r.spilled = [] then writeFinalFromBuffer opts r
  else do
    let r ← if r.buffer ≠ [] then spill opts r else pure r
    mergeSpills opts r

def run : Attempt Unit :=
  if opts.numReducers < 1 then .fail .numReducers
  else runFrom (if opts.spillBytes < 1024 then { opts with spillBytes := 1024 } else opts)

end Mapper
end FromScratch.MapReduce
