import FromScratch.MapReduce.Merge
import FromScratch.MapReduce.Storage

/-! One reduce task: merge every mapper's file for the partition, group equal
keys and hand each group to the user's `Reduce`. -/

namespace FromScratch.MapReduce
open Lib (Program)

/-- A user's `Reduce` as a pure function of the key and the values its iterator
yields: what it emits. -/
abbrev Reducer := GoString → List GoString → List GoString

namespace Reducer

structure Options where
  taskID : Nat
  numMappers : Nat
  reducer : Reducer

/-- The calls of `Reduce`, as key and values, in the order they are made. -/
abbrev Calls := List (GoString × List GoString)

/-- The variables of the loop over the merged records: the group being
collected, the writer, and the calls of `Reduce` so far. -/
structure Loop where
  group : Option (GoString × List GoString) := none
  writer : Writer
  calls : Calls := []

/-- The missing files of tasks that never ran are skipped. -/
def openSources (opts : Options) : Attempt (List Stream) := do
  let found ← Program.each (fun m => do
    match ← (call (.openFile (.file (Storage.intermediatePath m opts.taskID)))).outcome with
    | .ok stream => pure (some stream)
    | .error e => if e = .notExist then pure none else .fail e) (List.range opts.numMappers)
  pure (found.filterMap id)

variable (opts : Options)

/-- `emitFor(key)(value)`: the error of the write is dropped, `Flush` will see it. -/
def emit (key : GoString) (w : Writer) (value : GoString) : Attempt Writer := do
  let w ← w.write { key := key, value := value }
  call (.count "reduce.emitted" 1)
  pure w

def flush (l : Loop) : Attempt Loop :=
  match l.group with
  | none => pure l
  | some (key, values) => do
    let w ← Program.fold (emit key) l.writer (opts.reducer key values)
    call (.count "reduce.keys" 1)
    call (.count "reduce.values" (Int64.ofNat values.length))
    pure { l with writer := w, calls := l.calls ++ [(key, values)] }

def take (l : Loop) (record : Record) : Attempt Loop :=
  match l.group with
  | none => pure { l with group := some (record.key, [record.value]) }
  | some (key, values) =>
    if record.key ≠ key then do
      let l ← flush opts l
      pure { l with group := some (record.key, [record.value]) }
    else pure { l with group := some (key, values ++ [record.value]) }

/-- `Run`. What it returns beside its error is not in the source: the calls it
made of `Reduce`. -/
def run : Attempt Calls :=
  if opts.numMappers < 1 then .fail .numMappers
  else do
    let streams ← openSources opts
    let (records, err) := Merger.drain { sources := streams.map Source.ofStream }
    Storage.writeAtomic (Storage.outputPath opts.taskID) fun file => do
      let l ← Program.fold (take opts) { writer := { file := file } } records
      match err with
      | some e => .fail e
      | none =>
        let l ← flush opts l
        l.writer.flush
        pure l.calls

end Reducer
end FromScratch.MapReduce
