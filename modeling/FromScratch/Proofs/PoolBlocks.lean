import FromScratch.Proofs.SizeClasses
import Mathlib.Data.List.MinMax
import Mathlib.Tactic.Positivity

/-! Who owns the pool's memory: each chunk is cut into blocks in use, blocks to
use again and the room at its end, and nothing belongs to two of them. -/

namespace FromScratch.Proofs.PoolBlocks
open FromScratch.Inference PoolAllocator Lib

/-- Up to `2 ^ 62` bytes there is a class that holds them. -/
theorem sizeClass_spec {bytes : UInt64} (bounded : bytes.toNat ≤ 2 ^ 62) :
    ∃ cls, sizeClass bytes = some cls ∧ bytes.toNat ≤ cls.toNat ∧ 64 ∣ cls.toNat ∧ 0 < cls.toNat := by
  obtain ⟨cls, found, ⟨⟨k, size⟩, holds⟩, _⟩ := SizeClasses.classified (bounded.trans (by decide : 2 ^ 62 ≤ 2 ^ 63))
  refine ⟨cls, found, holds, Dvd.intro _ size.symm, ?_⟩
  rw [size]
  positivity

/-- A block in use, and the byte count it was allocated with. -/
structure Block where
  ptr : Address
  bytes : UInt64
  deriving DecidableEq

def Block.region (block : Block) : Region := ⟨block.ptr, ((sizeClass block.bytes).getD 0).toNat⟩

/-- The free blocks of one size class. -/
def freeBlocks (cls : UInt64) (ptrs : List Address) : List Region := ptrs.map fun ptr => ⟨ptr, cls.toNat⟩

/-- The pool and the blocks that its users have. -/
structure Heap where
  pool : PoolAllocator
  live : List Block := []

namespace Heap
variable (heap : Heap)

def regions : List Region := heap.live.map Block.region

def freeRegions : List Region := FiniteMap.items freeBlocks heap.pool.freeLists

/-- The sum of the size classes of the blocks in use. -/
def total : Nat := (heap.regions.map Region.size).sum

/-- The user keeps the block, if there is one. -/
def allocate (new : OperatorNew) (bytes : UInt64) : Heap :=
  match heap.pool.allocate new bytes with
  | (.ok (some ptr), pool) => { pool := pool, live := heap.live ++ [⟨ptr, bytes⟩] }
  | (_, pool) => { heap with pool := pool }

def deallocate (block : Block) : Heap :=
  match heap.pool.deallocate (some block.ptr) block.bytes with
  | .ok pool => { pool := pool, live := heap.live.erase block }
  | .error _ => heap

end Heap

/-- Memory that `operator new` may hand out beside the chunks: aligned, inside the
address space, not at address 0 and not part of any of them. -/
def Grants (chunks : List Region) (new : OperatorNew) : Prop :=
  ∀ size chunk, new size = some chunk → 64 ∣ chunk ∧ 0 < chunk ∧ chunk + size.toNat ≤ 2 ^ 64 ∧
    ∀ other ∈ chunks, Region.Apart ⟨chunk, size.toNat⟩ other

/-- A sequence of calls on a fresh pool, and the total after each of them, the last one first. -/
inductive Runs (chunkBytes : UInt64) : List Nat → Heap → Prop
  | start : Runs chunkBytes [0] { pool := { chunkBytes := chunkBytes } }
  | allocate {totals : List Nat} {heap : Heap} {new : OperatorNew} {bytes : UInt64} (ran : Runs chunkBytes totals heap)
      (positive : 0 < bytes) (bounded : bytes.toNat ≤ 2 ^ 62) (grants : Grants heap.pool.chunks new) :
      Runs chunkBytes ((heap.allocate new bytes).total :: totals) (heap.allocate new bytes)
  | deallocate {totals : List Nat} {heap : Heap} {block : Block} (ran : Runs chunkBytes totals heap)
      (live : block ∈ heap.live) : Runs chunkBytes ((heap.deallocate block).total :: totals) (heap.deallocate block)

/-- The room at the end of the last chunk. -/
def tail (pool : PoolAllocator) : Region := ⟨pool.cursor, pool.remaining.toNat⟩

/-- Every byte of the chunks belongs to one block or to none, and the counters
agree with the blocks in use. -/
structure Sound (totals : List Nat) (heap : Heap) : Prop where
  sizes : ∀ block ∈ heap.live, 0 < block.bytes ∧ block.bytes.toNat ≤ 2 ^ 62
  arena : Arena 64 (2 ^ 64) heap.pool.chunks (tail heap.pool) (heap.regions ++ heap.freeRegions)
  live : heap.pool.stats.liveBytes.toNat = heap.total
  listed : heap.total ∈ totals
  peak : heap.pool.stats.peakLiveBytes.toNat = totals.foldr max 0

theorem ne_zero_of_pos {bytes : UInt64} (positive : 0 < bytes) : bytes ≠ 0 := by
  rintro rfl
  exact absurd positive (by decide)

section Counters
variable {stats : PoolStats} {cls : UInt64}

theorem grow_live (room : stats.liveBytes.toNat + cls.toNat < 2 ^ 64) :
    (stats.grow cls).liveBytes.toNat = stats.liveBytes.toNat + cls.toNat := by
  simp only [PoolStats.grow, UInt64.toNat_add]
  exact Nat.mod_eq_of_lt room

theorem grow_peak (room : stats.liveBytes.toNat + cls.toNat < 2 ^ 64) :
    (stats.grow cls).peakLiveBytes.toNat = max (stats.liveBytes.toNat + cls.toNat) stats.peakLiveBytes.toNat := by
  have added := grow_live room
  simp only [PoolStats.grow] at added ⊢
  split
  next higher =>
    have higher := UInt64.lt_iff_toNat_lt.mp higher
    omega
  next lower =>
    have lower := UInt64.le_iff_toNat_le.mp (UInt64.not_lt.mp lower)
    omega

end Counters

section Steps
variable {totals : List Nat} {heap : Heap} {pool : PoolAllocator} {block : Block} {cls : UInt64} {new : OperatorNew}
  {bytes : UInt64} {ptrs : List Address} {ptr : Address}

/-- The free blocks of one class come first. -/
theorem freeRegions_perm (heap : Heap) (cls : UInt64) : heap.freeRegions.Perm
    (freeBlocks cls (heap.pool.freeList cls) ++ FiniteMap.items freeBlocks (heap.pool.freeLists.erase cls)) :=
  FiniteMap.items_perm rfl heap.pool.freeLists

theorem freeRegions_insert (heap : Heap) (old : PoolAllocator) (cls : UInt64) (ptrs : List Address)
    (lists : heap.pool.freeLists = old.freeLists.insert cls ptrs) :
    heap.freeRegions = freeBlocks cls ptrs ++ FiniteMap.items freeBlocks (old.freeLists.erase cls) := by
  rw [Heap.freeRegions, lists]
  exact FiniteMap.items_insert ..

theorem Block.region_eq (found : sizeClass bytes = some cls) : Block.region ⟨ptr, bytes⟩ = ⟨ptr, cls.toNat⟩ := by
  rw [Block.region, found, Option.getD_some]

theorem Sound.total_le_peak (sound : Sound totals heap) : heap.total ≤ totals.foldr max 0 :=
  List.le_max_of_le' 0 sound.listed le_rfl

/-- A block more in use. -/
theorem Sound.take (sound : Sound totals heap) (block : Block) (positive : 0 < block.bytes)
    (bounded : block.bytes.toNat ≤ 2 ^ 62)
    (found : sizeClass block.bytes = some cls)
    (arena : Arena 64 (2 ^ 64) pool.chunks (tail pool)
      (block.region :: (heap.regions ++ Heap.freeRegions ⟨pool, heap.live⟩)))
    {stats : PoolStats} (live : stats.liveBytes = heap.pool.stats.liveBytes)
    (peak : stats.peakLiveBytes = heap.pool.stats.peakLiveBytes) (counted : pool.stats = stats.grow cls) :
    Sound (Heap.total ⟨pool, heap.live ++ [block]⟩ :: totals) ⟨pool, heap.live ++ [block]⟩ := by
  have regions : Heap.regions ⟨pool, heap.live ++ [block]⟩ = heap.regions ++ [block.region] := List.map_append
  have total : Heap.total ⟨pool, heap.live ++ [block]⟩ = heap.total + cls.toNat := by
    rw [Heap.total, regions, List.map_append, List.sum_append, @Block.region_eq _ _ block.ptr found]
    exact congrArg (heap.total + ·) (Nat.add_zero _)
  have before : stats.liveBytes.toNat = heap.total := live ▸ sound.live
  have same : (block.region :: (heap.regions ++ Heap.freeRegions ⟨pool, heap.live⟩)).Perm
      (Heap.regions ⟨pool, heap.live ++ [block]⟩ ++ Heap.freeRegions ⟨pool, heap.live ++ [block]⟩) := by
    rw [regions, List.append_assoc]
    exact List.perm_middle.symm
  have arena := arena.perm same
  have room : stats.liveBytes.toNat + cls.toNat < 2 ^ 64 := by
    rw [before, ← total]
    exact arena.total_lt (by decide) (List.sublist_append_left ..)
  refine ⟨?_, arena, ?_, List.mem_cons_self, ?_⟩
  · intro other member
    rcases List.mem_append.mp member with old | here
    · exact sound.sizes other old
    · cases List.mem_singleton.mp here
      exact ⟨positive, bounded⟩
  · rw [counted, grow_live room, before, total]
  · rw [counted, grow_peak room, before, peak, sound.peak, total]
    rfl

/-- A call that changes no block. -/
theorem Sound.idle (sound : Sound totals heap) (stats : PoolStats) (live : stats.liveBytes = heap.pool.stats.liveBytes)
    (peak : stats.peakLiveBytes = heap.pool.stats.peakLiveBytes) :
    Sound (heap.total :: totals) { heap with pool := { heap.pool with stats := stats } } := by
  refine ⟨sound.sizes, sound.arena, live ▸ sound.live, List.mem_cons_self, ?_⟩
  calc
    stats.peakLiveBytes.toNat = totals.foldr max 0 := peak ▸ sound.peak
    _ = (heap.total :: totals).foldr max 0 := (max_eq_right sound.total_le_peak).symm

/-- The block freed last is used again. -/
theorem Sound.reuse (sound : Sound totals heap) (positive : 0 < bytes) (bounded : bytes.toNat ≤ 2 ^ 62)
    (found : sizeClass bytes = some cls) (free : heap.pool.freeList cls = ptrs ++ [ptr]) (stats : PoolStats)
    (live : stats.liveBytes = heap.pool.stats.liveBytes) (peak : stats.peakLiveBytes = heap.pool.stats.peakLiveBytes)
    (pooled : pool = { heap.pool with freeLists := heap.pool.freeLists.insert cls ptrs, stats := stats.grow cls }) :
    Sound (Heap.total ⟨pool, heap.live ++ [⟨ptr, bytes⟩]⟩ :: totals) ⟨pool, heap.live ++ [⟨ptr, bytes⟩]⟩ := by
  have regions : Heap.freeRegions ⟨pool, heap.live⟩ =
      freeBlocks cls ptrs ++ FiniteMap.items freeBlocks (heap.pool.freeLists.erase cls) :=
    freeRegions_insert _ heap.pool cls ptrs (congrArg PoolAllocator.freeLists pooled)
  have arena : Arena 64 (2 ^ 64) pool.chunks (tail pool) (heap.regions ++ heap.freeRegions) := by
    rw [pooled]
    exact sound.arena
  have region : Block.region ⟨ptr, bytes⟩ = ⟨ptr, cls.toNat⟩ := Block.region_eq found
  refine sound.take ⟨ptr, bytes⟩ positive bounded found (arena.perm ?_) live peak (congrArg PoolAllocator.stats pooled)
  rw [regions, region]
  refine ((freeRegions_perm heap cls).append_left _).trans ?_
  rw [free, freeBlocks, List.map_append, List.map_singleton, List.append_assoc]
  exact (List.perm_middle.append_left _).trans List.perm_middle

/-- A block cut from the room at the end of the last chunk. -/
theorem Sound.bump (sound : Sound totals heap) (pool : PoolAllocator) (positive : 0 < bytes) (bounded : bytes.toNat ≤ 2 ^ 62)
    (found : sizeClass bytes = some cls) (aligned : 64 ∣ cls.toNat) (large : 0 < cls.toNat) (room : cls ≤ pool.remaining)
    (lists : pool.freeLists = heap.pool.freeLists)
    (arena : Arena 64 (2 ^ 64) pool.chunks (tail pool) (heap.regions ++ heap.freeRegions))
    (live : pool.stats.liveBytes = heap.pool.stats.liveBytes)
    (peak : pool.stats.peakLiveBytes = heap.pool.stats.peakLiveBytes) {next : PoolAllocator}
    (pooled : next = { pool with
      cursor := pool.cursor + cls.toNat
      remaining := pool.remaining - cls
      stats := pool.stats.grow cls }) :
    Sound (Heap.total ⟨next, heap.live ++ [⟨pool.cursor, bytes⟩]⟩ :: totals) ⟨next,
      heap.live ++ [⟨pool.cursor, bytes⟩]⟩ := by
  have fits : cls.toNat ≤ (tail pool).size := UInt64.le_iff_toNat_le.mp room
  have left : (pool.remaining - cls).toNat = pool.remaining.toNat - cls.toNat := UInt64.toNat_sub_of_le _ _ room
  have free : Heap.freeRegions ⟨next, heap.live⟩ = heap.freeRegions := by
    rw [Heap.freeRegions, pooled, Heap.freeRegions, ← lists]
  have rest : tail next = ⟨(tail pool).start + cls.toNat, (tail pool).size - cls.toNat⟩ := by
    rw [pooled, tail, left]
    rfl
  have chunks : next.chunks = pool.chunks := by rw [pooled]
  have cut := arena.cut aligned large fits
  have region : Block.region ⟨pool.cursor, bytes⟩ = ⟨pool.cursor, cls.toNat⟩ := Block.region_eq found
  refine sound.take ⟨pool.cursor, bytes⟩ positive bounded found ?_ live peak (congrArg PoolAllocator.stats pooled)
  rw [free, region, rest, chunks]
  exact cut

theorem addChunk_some {next : PoolAllocator} (grown : pool.addChunk new cls = some next) :
    ∃ chunk size, cls ≤ size ∧ new size = some chunk ∧ next = { pool with
      chunks := pool.chunks ++ [⟨chunk, size.toNat⟩]
      cursor := chunk
      remaining := size
      stats := { pool.stats with arenaBytes := pool.stats.arenaBytes + size } } := by
  rw [addChunk] at grown
  split at grown
  next => cases grown
  next chunk granted =>
    refine ⟨chunk, _, ?_, granted, (Option.some.inj grown).symm⟩
    split
    next larger => exact UInt64.le_of_lt larger
    next => exact UInt64.le_refl _

theorem arena_addChunk {held : List Region} {next : PoolAllocator} (grown : pool.addChunk new cls = some next)
    (grants : Grants pool.chunks new) (arena : Arena 64 (2 ^ 64) pool.chunks (tail pool) held) :
    Arena 64 (2 ^ 64) next.chunks (tail next) held := by
  obtain ⟨chunk, size, -, granted, rfl⟩ := addChunk_some grown
  obtain ⟨start, positive, room, fresh⟩ := grants size chunk granted
  exact arena.grow positive start room fresh

def missed (pool : PoolAllocator) : PoolAllocator :=
  { pool with stats := { pool.stats with misses := pool.stats.misses + 1 } }

theorem allocate_miss (positive : 0 < bytes) (found : sizeClass bytes = some cls) (empty : pool.freeList cls = []) :
    pool.allocate new bytes =
      match if pool.remaining < cls then (missed pool).addChunk new cls else some (missed pool) with
      | .none => (.error .badAlloc, missed pool)
      | some next => (.ok (some next.cursor), { next with
          cursor := next.cursor + cls.toNat
          remaining := next.remaining - cls
          stats := next.stats.grow cls }) := by
  rw [PoolAllocator.allocate, if_neg (ne_zero_of_pos positive), found]
  simp only [empty, List.getLast?_nil]
  rfl

theorem allocate_hit (positive : 0 < bytes) (found : sizeClass bytes = some cls)
    (free : pool.freeList cls = ptrs ++ [ptr]) :
    pool.allocate new bytes = (.ok (some ptr), { pool with
      freeLists := pool.freeLists.insert cls ptrs
      stats := { pool.stats with hits := pool.stats.hits + 1 }.grow cls }) := by
  rw [PoolAllocator.allocate, if_neg (ne_zero_of_pos positive), found]
  simp only [free, List.getLast?_concat, List.dropLast_concat]

/-- The block freed last, or one cut from the last chunk there is then, or none. -/
theorem allocate_cases (heap : Heap) (new : OperatorNew) (positive : 0 < bytes) (found : sizeClass bytes = some cls) :
    (∃ ptrs ptr, heap.pool.freeList cls = ptrs ++ [ptr] ∧ heap.allocate new bytes =
      ⟨{ heap.pool with
        freeLists := heap.pool.freeLists.insert cls ptrs
        stats := { heap.pool.stats with hits := heap.pool.stats.hits + 1 }.grow cls }, heap.live ++ [⟨ptr, bytes⟩]⟩) ∨
    (∃ pool, (cls ≤ heap.pool.remaining ∧ pool = missed heap.pool ∨ (missed heap.pool).addChunk new cls = some pool) ∧
      heap.allocate new bytes =
        ⟨{ pool with
          cursor := pool.cursor + cls.toNat
          remaining := pool.remaining - cls
          stats := pool.stats.grow cls }, heap.live ++ [⟨pool.cursor, bytes⟩]⟩) ∨
    (missed heap.pool).addChunk new cls = none ∧ heap.allocate new bytes = { heap with pool := missed heap.pool } := by
  rw [Heap.allocate]
  rcases List.eq_nil_or_concat (heap.pool.freeList cls) with empty | ⟨ptrs, ptr, free⟩
  · rw [allocate_miss positive found empty]
    by_cases short : heap.pool.remaining < cls
    · rw [if_pos short]
      cases grown : (missed heap.pool).addChunk new cls with
      | none => exact .inr (.inr ⟨rfl, rfl⟩)
      | some pool => exact .inr (.inl ⟨pool, .inr rfl, rfl⟩)
    · rw [if_neg short]
      exact .inr (.inl ⟨_, .inl ⟨UInt64.not_lt.mp short, rfl⟩, rfl⟩)
  · rw [List.concat_eq_append] at free
    rw [allocate_hit positive found free]
    exact .inl ⟨ptrs, ptr, free, rfl⟩

theorem Sound.allocate (sound : Sound totals heap) (positive : 0 < bytes) (bounded : bytes.toNat ≤ 2 ^ 62)
    (grants : Grants heap.pool.chunks new) :
    Sound ((heap.allocate new bytes).total :: totals) (heap.allocate new bytes) := by
  obtain ⟨cls, found, -, aligned, large⟩ := sizeClass_spec bounded
  rcases allocate_cases heap new positive found with
    ⟨ptrs, ptr, free, same⟩ | ⟨pool, ⟨room, rfl⟩ | grown, same⟩ | ⟨failed, same⟩
  · rw [same]
    exact sound.reuse positive bounded found free { heap.pool.stats with hits := heap.pool.stats.hits + 1 } rfl rfl rfl
  · rw [same]
    exact sound.bump (missed heap.pool) positive bounded found aligned large room rfl sound.arena rfl rfl rfl
  · have arena := arena_addChunk grown grants sound.arena
    obtain ⟨chunk, size, enough, -, next⟩ := addChunk_some grown
    rw [same]
    refine sound.bump pool positive bounded found aligned large ?_ ?_ arena ?_ ?_ rfl
    all_goals rw [next]
    · exact enough
    · rfl
    · rfl
    · rfl
  · rw [same]
    exact sound.idle (missed heap.pool).stats rfl rfl

theorem deallocate_eq (positive : 0 < block.bytes) (found : sizeClass block.bytes = some cls) : heap.deallocate block =
    { pool := { heap.pool with
        freeLists := heap.pool.freeLists.insert cls (heap.pool.freeList cls ++ [block.ptr])
        stats := { heap.pool.stats with liveBytes := heap.pool.stats.liveBytes - cls } },
      live := heap.live.erase block } := by
  rw [Heap.deallocate, PoolAllocator.deallocate, if_neg (ne_zero_of_pos positive), found]

theorem Sound.deallocate (sound : Sound totals heap) (live : block ∈ heap.live) :
    Sound ((heap.deallocate block).total :: totals) (heap.deallocate block) := by
  obtain ⟨positive, bounded⟩ := sound.sizes block live
  obtain ⟨cls, found, -, -, -⟩ := sizeClass_spec bounded
  have same := @deallocate_eq heap block cls positive found
  generalize heap.deallocate block = next at same ⊢
  have regions : heap.regions.Perm (⟨block.ptr, cls.toNat⟩ :: next.regions) := by
    rw [← Block.region_eq found, same]
    exact (List.perm_cons_erase live).map Block.region
  have total : heap.total = cls.toNat + next.total := by
    rw [Heap.total, (regions.map Region.size).sum_eq]
    rfl
  have held : (heap.regions ++ heap.freeRegions).Perm (next.regions ++ next.freeRegions) := by
    rw [freeRegions_insert next heap.pool cls (heap.pool.freeList cls ++ [block.ptr]) (by rw [same]), freeBlocks,
      List.map_append, List.map_singleton, List.append_assoc]
    refine (regions.append (freeRegions_perm heap cls)).trans ?_
    exact List.perm_middle.symm.trans (List.perm_middle.symm.append_left _)
  have covered : cls ≤ heap.pool.stats.liveBytes := by
    rw [UInt64.le_iff_toNat_le, sound.live, total]
    exact Nat.le_add_right ..
  have peak := sound.total_le_peak
  refine ⟨?_, ?_, ?_, List.mem_cons_self, ?_⟩
  · rw [same]
    exact fun other member => sound.sizes other (List.mem_of_mem_erase member)
  · have arena := sound.arena.perm held
    rw [same] at arena ⊢
    exact arena
  · have left : next.pool.stats.liveBytes = heap.pool.stats.liveBytes - cls := by rw [same]
    rw [left, UInt64.toNat_sub_of_le _ _ covered, sound.live, total, Nat.add_sub_cancel_left]
  · have kept : next.pool.stats.peakLiveBytes = heap.pool.stats.peakLiveBytes := by rw [same]
    rw [kept, sound.peak, List.foldr_cons]
    exact (max_eq_right (by omega)).symm

theorem addChunk_none (failed : pool.addChunk new cls = none) : ∃ size, new size = none := by
  rw [addChunk] at failed
  split at failed
  next refused => exact ⟨_, refused⟩
  next => cases failed

/-- A call hands out a block if there is memory for a chunk. -/
theorem allocate_live (positive : 0 < bytes) (bounded : bytes.toNat ≤ 2 ^ 62) (memory : ∀ size, new size ≠ none) :
    ∃ ptr, (heap.allocate new bytes).live = heap.live ++ [⟨ptr, bytes⟩] := by
  obtain ⟨cls, found, -⟩ := sizeClass_spec bounded
  rcases allocate_cases heap new positive found with ⟨_, ptr, _, same⟩ | ⟨pool, _, same⟩ | ⟨failed, _⟩
  · exact ⟨ptr, by rw [same]⟩
  · exact ⟨pool.cursor, by rw [same]⟩
  · obtain ⟨size, refused⟩ := addChunk_none failed
    exact absurd refused (memory size)

theorem sound_start (chunkBytes : UInt64) : Sound [0] { pool := { chunkBytes := chunkBytes } } :=
  ⟨nofun, .empty _ rfl, rfl, List.mem_singleton_self _, rfl⟩

end Steps

theorem Runs.sound {chunkBytes : UInt64} {totals : List Nat} {heap : Heap} (ran : Runs chunkBytes totals heap) :
    Sound totals heap := by
  induction ran with
  | start => exact sound_start chunkBytes
  | allocate _ positive bounded grants sound => exact sound.allocate positive bounded grants
  | deallocate _ live sound => exact sound.deallocate live

/-- Whatever was allocated and deallocated, every block in use lies in one chunk
and holds what was asked for, no byte belongs to two blocks, in use or free, and
the counters are the sizes in use and the most there ever were. -/
theorem pool_disjoint {chunkBytes : UInt64} {totals : List Nat} {heap : Heap} (ran : Runs chunkBytes totals heap) :
    (∀ block ∈ heap.live, block.bytes.toNat ≤ block.region.size ∧
      ∃ chunk ∈ heap.pool.chunks, block.region.Within chunk ∧ 64 ∣ block.region.start - chunk.start) ∧
    (heap.regions ++ heap.freeRegions).Pairwise Region.Apart ∧
    heap.pool.stats.liveBytes.toNat = heap.total ∧ heap.pool.stats.peakLiveBytes.toNat = totals.foldr max 0 := by
  have sound := ran.sound
  refine ⟨fun block live => ⟨?_, ?_⟩, ?_, sound.live, sound.peak⟩
  · obtain ⟨cls, found, enough, -, -⟩ := sizeClass_spec (sound.sizes block live).2
    have region := @Block.region_eq cls block.bytes block.ptr found
    exact enough.trans_eq (congrArg Region.size region).symm
  · exact sound.arena.placed _ (List.mem_append_left _ (List.mem_map_of_mem live))
  · exact sound.arena.separate.of_cons

/-- One chunk, two blocks cut from it, and the first used again. -/
theorem pool_disjoint_reuse : ∃ totals heap, Runs 256 totals heap ∧ heap.live = [⟨4160, 100⟩, ⟨4096, 64⟩] ∧
    totals = [192, 128, 192, 64, 0] ∧
    (∀ block ∈ heap.live, block.bytes.toNat ≤ block.region.size ∧
      ∃ chunk ∈ heap.pool.chunks, block.region.Within chunk ∧ 64 ∣ block.region.start - chunk.start) ∧
    (heap.regions ++ heap.freeRegions).Pairwise Region.Apart ∧
    heap.pool.stats.liveBytes.toNat = heap.total ∧ heap.pool.stats.peakLiveBytes.toNat = totals.foldr max 0 := by
  have grants : Grants [] fun size => if size = 256 then some 4096 else none := by
    intro size chunk granted
    simp only at granted
    split at granted
    next exactly =>
      cases granted
      subst exactly
      exact ⟨by decide, by decide, by decide, nofun⟩
    next => cases granted
  have first : Runs 256 _ _ := @Runs.allocate _ _ _ _ 40 .start (by decide) (by decide) grants
  have second : Runs 256 _ _ := @Runs.allocate _ _ _ (fun _ => none) 100 first (by decide) (by decide) nofun
  have third : Runs 256 _ _ := @Runs.deallocate _ _ _ ⟨4096, 40⟩ second (by decide +kernel)
  have last : Runs 256 _ _ := @Runs.allocate _ _ _ (fun _ => none) 64 third (by decide) (by decide) nofun
  exact ⟨_, _, last, by decide +kernel, by decide +kernel, pool_disjoint last⟩

end FromScratch.Proofs.PoolBlocks
