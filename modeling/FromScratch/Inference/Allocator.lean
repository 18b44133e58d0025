import FromScratch.Lib.FiniteMap
import FromScratch.Lib.Regions

/-! The pooled allocator of tensor buffers: blocks of a few sizes cut off chunks
one after the other, and a list of blocks to use again for each size. -/

namespace FromScratch.Inference
open Lib (FiniteMap Region)

abbrev Address := Nat

def kAlignment : UInt64 := 64

/-- `operator new(size, std::align_val_t{kAlignment})` as it answers at one
moment; `none` is `std::bad_alloc`. -/
abbrev OperatorNew := UInt64 → Option Address

/-- How a call ends that returns nothing: by `std::bad_alloc`, or never. -/
inductive AllocFault where
  | badAlloc
  | endless
  deriving DecidableEq

structure PoolStats where
  arenaBytes : UInt64 := 0
  liveBytes : UInt64 := 0
  peakLiveBytes : UInt64 := 0
  hits : UInt64 := 0
  misses : UInt64 := 0

/-- `stats_.liveBytes += cls`, and the new peak if it is one. -/
def PoolStats.grow (stats : PoolStats) (cls : UInt64) : PoolStats :=
  let liveBytes := stats.liveBytes + cls
  { stats with
    liveBytes := liveBytes
    peakLiveBytes := if liveBytes > stats.peakLiveBytes then liveBytes else stats.peakLiveBytes }

structure PoolAllocator where
  chunkBytes : UInt64
  /-- Each chunk with the size it was asked for, which only the heap remembers. -/
  chunks : List Region := []
  cursor : Address := 0
  remaining : UInt64 := 0
  freeLists : FiniteMap UInt64 (List Address) := ∅
  stats : PoolStats := {}

namespace PoolAllocator

/-- The loop of `sizeClass`. After 58 rounds the one bit of `cls` is shifted out,
and then the loop does not end. -/
def sizeClassFrom (rounded : UInt64) : Nat → UInt64 → Option UInt64
  | 0, _ => none
  | rounds + 1, cls => if cls < rounded then sizeClassFrom rounded rounds (cls <<< 1) else some cls

def sizeClass (bytes : UInt64) : Option UInt64 :=
  let rounded := (bytes + kAlignment - 1) / kAlignment * kAlignment
  sizeClassFrom rounded 64 kAlignment

def addChunk (pool : PoolAllocator) (new : OperatorNew) (minimumBytes : UInt64) : Option PoolAllocator :=
  let size := if pool.chunkBytes > minimumBytes then pool.chunkBytes else minimumBytes
  match new size with
  | none => none
  | some chunk =>
    some { pool with
      chunks := pool.chunks ++ [⟨chunk, size.toNat⟩]
      cursor := chunk
      remaining := size
      stats := { pool.stats with arenaBytes := pool.stats.arenaBytes + size } }

/-- The blocks of a size class that are free, the last one freed at the end. -/
def freeList (pool : PoolAllocator) (cls : UInt64) : List Address := (pool.freeLists.lookup cls).getD []

/-- `nullptr` is `none`. -/
def allocate (pool : PoolAllocator) (new : OperatorNew) (bytes : UInt64) :
    Except AllocFault (Option Address) × PoolAllocator :=
  if bytes = 0 then (.ok none, pool)
  else match sizeClass bytes with
  | none => (.error .endless, pool)
  | some cls =>
    match (pool.freeList cls).getLast? with
    | some ptr =>
      (.ok (some ptr), { pool with
        freeLists := pool.freeLists.insert cls (pool.freeList cls).dropLast
        stats := { pool.stats with hits := pool.stats.hits + 1 }.grow cls })
    | none =>
      let pool := { pool with stats := { pool.stats with misses := pool.stats.misses + 1 } }
      match if pool.remaining < cls then pool.addChunk new cls else some pool with
      | none => (.error .badAlloc, pool)
      | some pool =>
        (.ok (some pool.cursor), { pool with
          cursor := pool.cursor + cls.toNat
          remaining := pool.remaining - cls
          stats := pool.stats.grow cls })

def deallocate (pool : PoolAllocator) (ptr : Option Address) (bytes : UInt64) : Except AllocFault PoolAllocator :=
  match ptr with
  | none => .ok pool
  | some ptr =>
    if bytes = 0 then .ok pool
    else match sizeClass bytes with
    | none => .error .endless
    | some cls =>
      .ok { pool with
        freeLists := pool.freeLists.insert cls (pool.freeList cls ++ [ptr])
        stats := { pool.stats with liveBytes := pool.stats.liveBytes - cls } }

end PoolAllocator
end FromScratch.Inference
