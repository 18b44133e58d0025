import FromScratch.MapReduce.Record

/-! The k-way merge of record streams. The heap is kept as a bag of entries:
`container/heap` promises that `Pop` takes out the least one, and the order is
total because no two entries come from the same source. -/

namespace FromScratch.MapReduce

structure Entry where
  record : Record
  source : Nat
  deriving DecidableEq

namespace Entry

def less (a b : Entry) : Bool :=
  if a.record.key ≠ b.record.key then decide (a.record.key < b.record.key) else decide (a.source < b.source)

/-- `heap.Pop`. -/
def popMin : List Entry → Option (Entry × List Entry)
  | [] => none
  | entry :: heap =>
    match popMin heap with
    | none => some (entry, [])
    | some (least, rest) => if least.less entry then some (least, entry :: rest) else some (entry, heap)

end Entry

structure Merger where
  sources : List Source
  heap : List Entry := []
  err : Option Err := none
  primed : Bool := false

namespace Merger

/-- The loop of `prime`, from source `i` on: the entries it pushes and what is
left of the sources. -/
def primeFrom (i : Nat) : List Source → Except Err (List Entry × List Source)
  | [] => .ok ([], [])
  | source :: sources => do
    match ← source.next with
    | none =>
      let (heap, rest) ← primeFrom (i + 1) sources
      pure (heap, source :: rest)
    | some (record, after) =>
      let (heap, rest) ← primeFrom (i + 1) sources
      pure ({ record := record, source := i } :: heap, after :: rest)

def prime (m : Merger) : Except Err Merger := do
  let (heap, sources) ← primeFrom 0 m.sources
  pure { m with heap := heap, sources := sources, primed := true }

/-- `Next` of a merger that is primed. -/
def pop (m : Merger) : Except Err (Option Record) × Merger :=
  match Entry.popMin m.heap with
  | none => (.ok none, m)
  | some (top, heap) =>
    -- An entry's source is the index it was read from, so it is always in range.
    match (m.sources.getD top.source { lines := [] }).next with
    | .error e => (.error e, { m with heap := heap, err := some e })
    | .ok none => (.ok (some top.record), { m with heap := heap })
    | .ok (some (record, after)) =>
      (.ok (some top.record),
       { m with heap := { record := record, source := top.source } :: heap,
                sources := m.sources.set top.source after })

def next (m : Merger) : Except Err (Option Record) × Merger :=
  match m.err with
  | some e => (.error e, m)
  | none =>
    if m.primed then m.pop
    else match m.prime with
      | .error e => (.error e, { m with err := some e })
      | .ok m => m.pop

def remaining (m : Merger) : Nat := (m.sources.map fun source => source.lines.length).sum + m.heap.length

def drainFrom : Nat → Merger → List Record × Option Err
  | 0, _ => ([], none)
  | fuel + 1, m =>
    match m.next with
    | (.error e, _) => ([], some e)
    | (.ok none, _) => ([], none)
    | (.ok (some record), after) =>
      let (records, err) := drainFrom fuel after
      (record :: records, err)

/-- Everything `Next` returns until it reports the end or an error. -/
def drain (m : Merger) : List Record × Option Err := drainFrom (m.remaining + 1) m

end Merger
end FromScratch.MapReduce
