import FromScratch.Proofs.GemmSharding

/-! What `parallelFor` hands to its body. Counted in `size_t` the ranges are those
of unbounded numbers as long as nothing wraps, and these cut the range to be
covered into pieces that do not overlap. -/

namespace FromScratch.Inference
open Lib (tiles)

namespace ThreadPool

/-- A range in unbounded numbers. -/
def shard (range : UInt64 × UInt64) : Shard := (range.1.toNat, range.2.toNat)

/-- The number of tasks a call is cut into. -/
def shardCount (pool : ThreadPool) (count minChunk : Nat) : Nat :=
  min (pool.workers + 1) ((count + max minChunk 1 - 1) / max minChunk 1)

/-- No sum `parallelFor` makes wraps. The last is for the length of a task, and a call from within the pool is not cut. -/
structure Unwrapped (pool : ThreadPool) (count minChunk : UInt64) : Prop where
  chunks : count.toNat + max minChunk.toNat 1 ≤ 2 ^ 64
  workers : pool.workers + 1 < 2 ^ 64
  shards : pool.insidePool = false → count.toNat + pool.shardCount count.toNat minChunk.toNat ≤ 2 ^ 64

section Counting

theorem ceil_toNat {count size : UInt64} (positive : 0 < size.toNat) (unwrapped : count.toNat + size.toNat ≤ 2 ^ 64) :
    ((count + size - 1) / size).toNat = (count.toNat + size.toNat - 1) / size.toNat := by
  have one : (1 : UInt64).toNat = 1 := rfl
  have added : (count + size - 1).toNat = count.toNat + size.toNat - 1 := by
    rw [UInt64.toNat_sub, UInt64.toNat_add, one]
    omega
  rw [UInt64.toNat_div, added]

theorem least_nat (minChunk : Nat) : (if minChunk = 0 then 1 else minChunk) = max minChunk 1 := by
  split <;> omega

theorem least_toNat (minChunk : UInt64) : (if minChunk = 0 then 1 else minChunk).toNat = max minChunk.toNat 1 := by
  rw [← least_nat, apply_ite UInt64.toNat]
  exact if_congr UInt64.toNat_inj.symm rfl rfl

theorem clamp_nat (value limit : Nat) : (if value > limit then limit else value) = min value limit := by
  split <;> omega

theorem clamp_toNat (value limit : UInt64) :
    (if value > limit then limit else value).toNat = min value.toNat limit.toNat := by
  rw [← clamp_nat, apply_ite UInt64.toNat]
  exact if_congr UInt64.lt_iff_toNat_lt rfl rfl

variable {count chunk : UInt64} {shards : Nat}

theorem begin_toNat (room : shards * chunk.toNat < 2 ^ 64) {s : Nat} (inside : s < shards) :
    (UInt64.ofNat s * chunk).toNat = s * chunk.toNat ∧ s * chunk.toNat + chunk.toNat < 2 ^ 64 := by
  have next : s * chunk.toNat + chunk.toNat ≤ shards * chunk.toNat := by
    rw [← Nat.succ_mul]
    exact Nat.mul_le_mul_right _ inside
  constructor
  · rw [UInt64.toNat_mul, UInt64.toNat_ofNat', Nat.mod_mul_mod]
    exact Nat.mod_eq_of_lt (by omega)
  · omega

theorem takeWhile_toNat (starts : List UInt64) :
    (starts.map UInt64.toNat).takeWhile (· < count.toNat) = (starts.takeWhile (· < count)).map UInt64.toNat := by
  have kept : (fun start => decide (start < count.toNat)) ∘ UInt64.toNat = fun start : UInt64 => decide (start < count) := by
    funext start
    exact decide_eq_decide.mpr UInt64.lt_iff_toNat_lt.symm
  rw [List.takeWhile_map, kept]

/-- The ranges of the tasks, one by one. -/
theorem begins_toNat (room : shards * chunk.toNat < 2 ^ 64) :
    ((((List.range shards).map fun s => UInt64.ofNat s * chunk).takeWhile (· < count)).map fun start =>
        (start, if start + chunk > count then count else start + chunk)).map shard =
      (((List.range shards).map (· * chunk.toNat)).takeWhile (· < count.toNat)).map fun start =>
        (start, min (start + chunk.toNat) count.toNat) := by
  have begins : (List.range shards).map (· * chunk.toNat) =
      ((List.range shards).map fun s => UInt64.ofNat s * chunk).map UInt64.toNat := by
    rw [List.map_map]
    exact List.map_congr_left fun s inside => (begin_toNat room (List.mem_range.mp inside)).1.symm
  rw [begins, takeWhile_toNat, List.map_map, List.map_map]
  refine List.map_congr_left fun start member => ?_
  obtain ⟨s, inside, rfl⟩ := List.mem_map.mp ((List.takeWhile_prefix _).subset member)
  obtain ⟨first, bounded⟩ := begin_toNat room (List.mem_range.mp inside)
  have last : (UInt64.ofNat s * chunk + chunk).toNat = (UInt64.ofNat s * chunk).toNat + chunk.toNat := by
    rw [UInt64.toNat_add, first]
    exact Nat.mod_eq_of_lt bounded
  simp only [Function.comp_apply, shard, clamp_toNat, last]

end Counting

section Ranges
variable {pool : ThreadPool} {count minChunk : UInt64}

/-- Where nothing wraps the ranges are those of unbounded numbers. -/
theorem ranges_shards (unwrapped : Unwrapped pool count minChunk) :
    (pool.ranges count minChunk).map shard = pool.shards count.toNat minChunk.toNat := by
  have blank : count = 0 ↔ count.toNat = 0 := UInt64.toNat_inj.symm
  by_cases zero : count = 0
  · rw [ranges, shards, if_pos zero, if_pos (blank.mp zero)]
    rfl
  obtain ⟨chunks, workers, fits⟩ := unwrapped
  rw [shardCount] at fits
  simp only [ranges, shards, if_neg zero, if_neg (blank.not.mp zero), least_nat, clamp_nat]
  have size := least_toNat minChunk
  generalize (if minChunk = 0 then 1 else minChunk) = least at size
  rw [← size] at chunks fits ⊢
  have most := ceil_toNat (by omega) chunks
  have threads : (UInt64.ofNat pool.workers + 1).toNat = pool.workers + 1 := by
    have one : (1 : UInt64).toNat = 1 := rfl
    rw [UInt64.toNat_add, UInt64.toNat_ofNat', one]
    omega
  have few := clamp_toNat (UInt64.ofNat pool.workers + 1) ((count + least - 1) / least)
  rw [threads, most] at few
  generalize (if UInt64.ofNat pool.workers + 1 > _ then _ else UInt64.ofNat pool.workers + 1) = cut at few
  rw [← few] at fits ⊢
  have alone : cut ≤ 1 ↔ cut.toNat ≤ 1 := UInt64.le_iff_toNat_le
  simp only [alone]
  split
  · rfl
  next many =>
    have positive : 0 < cut.toNat := by omega
    have outside : pool.insidePool = false := Bool.eq_false_iff.mpr fun inside => many (Or.inr (Or.inr inside))
    have fits := fits outside
    have chunk := ceil_toNat positive fits
    have room : cut.toNat * ((count + cut - 1) / cut).toNat < 2 ^ 64 := by
      rw [chunk]
      exact (Nat.mul_div_le _ _).trans_lt (by omega)
    rw [← chunk]
    exact begins_toNat room

theorem shards_apart (pool : ThreadPool) (count minChunk : Nat) :
    (pool.shards count minChunk).Pairwise fun first second => first.2 ≤ second.1 := by
  obtain ⟨chunk, _, cut⟩ := pool.shards_eq count minChunk
  rw [cut, List.pairwise_map]
  exact Lib.tiles_apart.imp fun apart => (Nat.min_le_left _ _).trans apart

theorem shards_few (pool : ThreadPool) (count minChunk : Nat) :
    (pool.shards count minChunk).length ≤ pool.workers + 1 := by
  simp only [shards, least_nat, clamp_nat]
  split
  · exact Nat.zero_le _
  · split
    · exact Nat.succ_le_succ (Nat.zero_le _)
    · rw [List.length_map]
      apply (List.takeWhile_prefix _).length_le.trans
      rw [List.length_map, List.length_range]
      exact Nat.min_le_left _ _

/-- The index is among those of the range. -/
def Within (range : UInt64 × UInt64) (i : UInt64) : Prop := range.1 ≤ i ∧ i < range.2

theorem within_shard {range : UInt64 × UInt64} {i : UInt64} :
    Within range i ↔ (shard range).1 ≤ i.toNat ∧ i.toNat < (shard range).2 :=
  and_congr UInt64.le_iff_toNat_le UInt64.lt_iff_toNat_lt

/-- The calls of the body, in the order they take effect. -/
def calls (pool : ThreadPool) (count minChunk : UInt64) : Except Empty (List Shard) :=
  pool.parallelFor count.toNat minChunk.toNat (fun shard made => .ok (made ++ [shard])) []

theorem calls_made (pool : ThreadPool) (count minChunk : UInt64) :
    calls pool count minChunk = .ok (pool.order (pool.shards count.toNat minChunk.toNat)) := by
  have recorded : ∀ shards made : List Shard,
      shards.foldlM (fun made shard => (.ok (made ++ [shard]) : Except Empty _)) made = .ok (made ++ shards) := by
    intro shards
    induction shards with
    | nil =>
      intro made
      rw [List.append_nil]
      rfl
    | cons shard shards ih =>
      intro made
      rw [List.foldlM_cons]
      exact (ih _).trans (by rw [List.append_assoc]; rfl)
  exact recorded _ []

/-- The body is called for the pieces of the range, each once. -/
theorem ranges_cover (pool : ThreadPool) (count minChunk : UInt64) (unwrapped : Unwrapped pool count minChunk) :
    (∃ made, calls pool count minChunk = .ok made ∧ made.Perm ((pool.ranges count minChunk).map shard)) ∧
    (∀ range ∈ pool.ranges count minChunk, range.1 < range.2) ∧
    (pool.ranges count minChunk).Pairwise (fun first second => ∀ i, ¬(Within first i ∧ Within second i)) ∧
    (∀ i, (∃ range ∈ pool.ranges count minChunk, Within range i) ↔ i < count) ∧
    (pool.ranges count minChunk).length ≤ pool.workers + 1 ∧
    (count = 0 → pool.ranges count minChunk = []) := by
  have same := ranges_shards unwrapped
  have known : ∀ range ∈ pool.ranges count minChunk, shard range ∈ pool.shards count.toNat minChunk.toNat := by
    intro range member
    rw [← same]
    exact List.mem_map_of_mem member
  refine ⟨⟨_, calls_made pool count minChunk, ?_⟩, ?_, ?_, ?_, ?_, ?_⟩
  · rw [same]
    exact pool.perm _
  · intro range member
    exact UInt64.lt_iff_toNat_lt.mpr (shards_inside (known range member)).1
  · have apart := shards_apart pool count.toNat minChunk.toNat
    rw [← same, List.pairwise_map] at apart
    apply apart.imp
    rintro first second before i ⟨inFirst, inSecond⟩
    have inFirst := within_shard.mp inFirst
    have inSecond := within_shard.mp inSecond
    omega
  · intro i
    constructor
    · rintro ⟨range, member, inside⟩
      rw [UInt64.lt_iff_toNat_lt]
      exact (within_shard.mp inside).2.trans_le (shards_inside (known range member)).2
    · intro inside
      obtain ⟨piece, member, holds⟩ := pool.shards_cover minChunk.toNat (UInt64.lt_iff_toNat_lt.mp inside)
      rw [← same] at member
      obtain ⟨range, cut, rfl⟩ := List.mem_map.mp member
      exact ⟨range, cut, within_shard.mpr holds⟩
  · have few := shards_few pool count.toNat minChunk.toNat
    rwa [← same, List.length_map] at few
  · intro zero
    rw [ranges, if_pos zero]

/-- Seven items in tasks of two at least: the two workers and their caller take three each, the last what is left. -/
theorem ranges_cover_seven :
    let pool : ThreadPool := { workers := 2, insidePool := false, order := List.reverse, perm := List.reverse_perm }
    pool.ranges 7 2 = [(0, 3), (3, 6), (6, 7)] ∧ ∀ i, (∃ range ∈ pool.ranges 7 2, Within range i) ↔ i < 7 :=
  ⟨rfl, (ranges_cover _ 7 2 ⟨by decide, by decide, fun _ => by decide⟩).2.2.2.1⟩

end Ranges
end ThreadPool
end FromScratch.Inference
