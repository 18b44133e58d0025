import FromScratch.Proofs.GemmRows

/-! A multiplication as a whole. The shards of the pool are the tiles of the row
range, so in whatever order they run, together they do what one pass over all
rows does. -/

namespace FromScratch.Inference
open Lib (Cellwise View tiles mem_tiles exists_tile)

section Shards

private theorem takeWhile_multiples {chunk count : Nat} (positive : 0 < chunk) (first shards : Nat)
    (enough : count ≤ (first + shards) * chunk) :
    ((List.range' first shards).map (· * chunk)).takeWhile (· < count) = tiles chunk (first * chunk) count := by
  induction shards generalizing first with
  | zero =>
    rw [Lib.tiles_of_le (by omega)]
    rfl
  | succ shards ih =>
    rw [List.range'_succ, List.map_cons, List.takeWhile_cons]
    by_cases inside : first * chunk < count
    · have rest : count ≤ (first + 1 + shards) * chunk := by rwa [show first + 1 + shards = first + (shards + 1) by omega]
      rw [if_pos (decide_eq_true inside), ih (first + 1) rest, Lib.tiles_of_lt positive inside, Nat.succ_mul]
    · rw [if_neg (by simpa using inside), Lib.tiles_of_le (by omega)]

namespace ThreadPool

/-- A pool cuts a range into consecutive ranges of one length, the last excepted. -/
theorem shards_eq (pool : ThreadPool) (count minChunk : Nat) : ∃ chunk, (0 < count → 0 < chunk) ∧
    pool.shards count minChunk = (tiles chunk 0 count).map fun start => (start, min (start + chunk) count) := by
  have whole : ∀ start chunk, (start, if start + chunk > count then count else start + chunk) =
      (start, min (start + chunk) count) := by
    intro start chunk
    congr 1
    split <;> omega
  simp only [shards]
  by_cases zero : count = 0
  · rw [if_pos zero]
    exact ⟨0, by omega, by rw [Lib.tiles_of_le (by omega)]; rfl⟩
  rw [if_neg zero]
  generalize (if pool.workers + 1 > _ then _ else pool.workers + 1) = cut
  by_cases alone : cut ≤ 1 ∨ pool.workers = 0 ∨ pool.insidePool
  · rw [if_pos alone]
    refine ⟨count, id, ?_⟩
    rw [Lib.tiles_of_lt (by omega) (by omega), Lib.tiles_of_le (by omega)]
    simp
  · rw [if_neg alone]
    have many : 1 < cut := by omega
    have room : cut ≤ count + cut - 1 := by omega
    have long : 0 < (count + cut - 1) / cut := Nat.div_pos room (by omega)
    refine ⟨(count + cut - 1) / cut, fun _ => long, ?_⟩
    have enough : count ≤ (0 + cut) * ((count + cut - 1) / cut) := by
      have rounded := Nat.lt_mul_div_succ (count + cut - 1) (show 0 < cut by omega)
      rw [Nat.mul_succ] at rounded
      rw [Nat.zero_add]
      omega
    have begins := takeWhile_multiples long 0 cut enough
    rw [Nat.zero_mul, ← List.range_eq_range'] at begins
    rw [begins]
    simp only [whole]

/-- Every row belongs to exactly one shard. -/
theorem shards_tile (pool : ThreadPool) (count minChunk : Nat) :
    ((pool.shards count minChunk).flatMap fun shard => List.range' shard.1 (shard.2 - shard.1)) = List.range' 0 count := by
  obtain ⟨chunk, long, cut⟩ := pool.shards_eq count minChunk
  rw [cut, List.flatMap_map]
  rcases Nat.eq_zero_or_pos count with rfl | positive
  · rw [Lib.tiles_of_le le_rfl]
    rfl
  · exact Lib.flatMap_tiles (long positive)

theorem shards_inside {pool : ThreadPool} {count minChunk : Nat} {shard : Shard}
    (member : shard ∈ pool.shards count minChunk) :
    shard.1 < shard.2 ∧ shard.2 ≤ count := by
  obtain ⟨chunk, long, cut⟩ := pool.shards_eq count minChunk
  rw [cut] at member
  obtain ⟨start, begins, rfl⟩ := List.mem_map.mp member
  have bounds := mem_tiles begins
  have positive := long (by omega)
  simp only
  omega

theorem shards_cover (pool : ThreadPool) (minChunk : Nat) {count i : Nat} (inside : i < count) :
    ∃ shard ∈ pool.shards count minChunk, shard.1 ≤ i ∧ i < shard.2 := by
  obtain ⟨chunk, long, cut⟩ := pool.shards_eq count minChunk
  obtain ⟨start, begins, left, right⟩ := exists_tile (long (by omega)) (Nat.zero_le i) inside
  exact ⟨_, by rw [cut]; exact List.mem_map_of_mem begins, left, right⟩

end ThreadPool
end Shards

namespace Gemm
section Compute
variable {F : Type} [Scalar F]

/-- The kernel that runs. -/
def chosen (strategy : GemmStrategy) (d : Dims) : GemmStrategy := if strategy = .auto then resolveAuto d else strategy

theorem chosen_ne_auto (strategy : GemmStrategy) (d : Dims) : chosen strategy d ≠ .auto := by
  by_cases automatic : strategy = .auto
  · rw [chosen, if_pos automatic, resolveAuto]
    split
    · nofun
    · split <;> nofun
  · rwa [chosen, if_neg automatic]

/-- The ranges of rows of a call, in the order they take effect. -/
def rowRanges (pool : Option ThreadPool) (d : Dims) : List Shard :=
  match pool with
  | some pool => if worthSharding d then pool.order (pool.shards d.N 1) else [(0, d.N)]
  | none => [(0, d.N)]

theorem rowRanges_inside {pool : Option ThreadPool} {d : Dims} {rows : Shard} (member : rows ∈ rowRanges pool d) :
    rows.2 ≤ d.N := by
  have whole : rows ∈ [(0, d.N)] → rows.2 ≤ d.N := by
    intro only
    rw [List.mem_singleton.mp only]
  cases pool with
  | none => exact whole member
  | some pool =>
    simp only [rowRanges] at member
    split at member
    · exact (ThreadPool.shards_inside ((pool.perm _).mem_iff.mp member)).2
    · exact whole member

theorem rowRanges_cover (pool : Option ThreadPool) {d : Dims} {i : Nat} (row : i < d.N) :
    ∃ rows ∈ rowRanges pool d, rows.1 ≤ i ∧ i < rows.2 := by
  have whole : ∃ rows ∈ [(0, d.N)], rows.1 ≤ i ∧ i < rows.2 := ⟨_, List.mem_singleton_self _, Nat.zero_le i, row⟩
  cases pool with
  | none => exact whole
  | some pool =>
    simp only [rowRanges]
    split
    · obtain ⟨rows, member, inside⟩ := pool.shards_cover 1 row
      exact ⟨rows, (pool.perm _).mem_iff.mpr member, inside⟩
    · exact whole

/-- The shape of the output. -/
def resultShape (d : Dims) : List UInt64 := [UInt64.ofNat d.N, UInt64.ofNat d.M]

/-- The buffer the rows are accumulated in. -/
def buffer (out : Tensor F) (d : Dims) : Except Fault (Tensor F) :=
  if out.shape = resultShape d then .ok out else Tensor.filled (resultShape d) Scalar.zero

/-- The row-major list of the elements. -/
def table (d : Dims) (value : Nat → Nat → F) : List F :=
  (List.range (d.N * d.M)).map fun index => value (index / d.M) (index % d.M)

variable {A B bias out result : Tensor F} {d : Dims} {p : GemmParams F} {strategy : GemmStrategy} {threads : Threads F}

theorem compute_eq (accepted : validate A B bias p = .ok ()) (dims : resolveDims A B p = .ok d) :
    compute A B bias out p strategy threads = buffer out d >>= fun C => (rowRanges threads.pool d).foldlM
      (fun C rows => runRows A.data B.data bias.data d p (chosen strategy d) threads.packs rows C) C := by
  have last : ∀ C : Tensor F, (match threads.pool with
      | some pool => if worthSharding d then
          pool.parallelFor d.N 1 (runRows A.data B.data bias.data d p (chosen strategy d) threads.packs) C
        else runRows A.data B.data bias.data d p (chosen strategy d) threads.packs (0, d.N) C
      | none => runRows A.data B.data bias.data d p (chosen strategy d) threads.packs (0, d.N) C) =
      (rowRanges threads.pool d).foldlM
        (fun C rows => runRows A.data B.data bias.data d p (chosen strategy d) threads.packs rows C) C := by
    intro C
    cases threads.pool with
    | none => simp only [rowRanges, List.foldlM_cons, List.foldlM_nil, bind_pure]
    | some pool =>
      simp only [rowRanges]
      split
      · rfl
      · simp only [List.foldlM_cons, List.foldlM_nil, bind_pure]
  simp only [← last]
  rw [compute, accepted, dims, buffer]
  by_cases reused : out.shape = resultShape d
  · rw [if_pos reused]
    exact if_pos reused
  · rw [if_neg reused]
    exact if_neg reused

omit [Scalar F] in
/-- Where some range holds the row, the element is written, and it stays so. -/
theorem foldl_ranges (value : Nat → Nat → F) {index : Nat} {old : F} {ranges : List Shard}
    (written : (∃ rows ∈ ranges, rows.1 ≤ index / d.M ∧ index / d.M < rows.2) ∨ old = value (index / d.M) (index % d.M)) :
    ranges.foldl (fun old rows => OnRows d rows.1 rows.2 (fun i j _ => value i j) index old) old =
      value (index / d.M) (index % d.M) := by
  induction ranges generalizing old with
  | nil =>
    rcases written with ⟨rows, member, _⟩ | same
    · cases member
    · exact same
  | cons first ranges ih =>
    rw [List.foldl_cons]
    apply ih
    by_cases here : first.1 ≤ index / d.M ∧ index / d.M < first.2
    · exact Or.inr (if_pos here)
    · rcases written with ⟨rows, member, inside⟩ | same
      · rcases List.mem_cons.mp member with rfl | later
        · exact absurd inside here
        · exact Or.inl ⟨rows, later, inside⟩
      · exact Or.inr ((if_neg here).trans same)

theorem cellwise_ranges {A B bias : List F} {shape : List UInt64} (narrow : Narrow d shape) (pool : Option ThreadPool)
    (packs : Shard → Packs F) (room : Blocked (chosen strategy d) → d.N ≤ tileLimit) :
    Cellwise (outView F shape)
      (fun C => (rowRanges pool d).foldlM (fun C rows => runRows A B bias d p (chosen strategy d) packs rows C) C)
      (∀ i, i < d.N → RowReady (chosen strategy d) A B d p i)
      fun index _ => finish d p bias (index / d.M) (index % d.M)
        (entry (chosen strategy d) A B d p (index / d.M) (index % d.M)) := by
  refine (Cellwise.foldlM fun rows member => cellwise_runRows packs narrow (chosen_ne_auto strategy d)
    (rowRanges_inside member) fun blocked =>
      (rowRanges_inside member).trans (room blocked)).congr ?_ fun index inside old => ?_
  · constructor
    · intro every i row
      obtain ⟨rows, member, above, below⟩ := rowRanges_cover pool row
      exact every rows member i above below
    · intro every rows member i _ below
      exact every i (lt_of_lt_of_le below (rowRanges_inside member))
  · have row : index / d.M < d.N := by
      apply Nat.div_lt_of_lt_mul
      rw [mul_comm, ← narrow.size]
      exact inside
    exact foldl_ranges (fun i j => finish d p bias i j (entry (chosen strategy d) A B d p i j))
      (Or.inl (rowRanges_cover pool row))

/-- A call that returns has a buffer for every element of the output. -/
theorem ranges_inside {A B bias : List F} {pool : Option ThreadPool} {packs : Shard → Packs F} {C after : Tensor F}
    (run : (rowRanges pool d).foldlM (fun C rows => runRows A B bias d p strategy packs rows C) C = .ok after) :
    d.N * d.M ≤ C.data.length := by
  have keeps : ∀ rows ∈ rowRanges pool d, Lib.Keeps (fun after : Tensor F => after.shape = C.shape)
      (runRows A B bias d p strategy packs rows) := fun rows _ => runRows_shape packs
  have elements : ∀ i j, i < d.N → j < d.M → wrap (i * d.M) + j < C.data.length := by
    intro i j row column
    obtain ⟨rows, member, above, below⟩ := rowRanges_cover pool row
    obtain ⟨before, next, same, ran⟩ := Lib.Keeps.each_item keeps rfl run member
    have inside := runRows_inside packs ran above below column
    rwa [before.sized, same, ← C.sized] at inside
  rcases Nat.eq_zero_or_pos d.M with nought | positive
  · rw [nought, Nat.mul_zero]
    exact Nat.zero_le _
  have fits := C.fits
  have rows : ∀ i, i ≤ d.N → i * d.M ≤ C.data.length := by
    intro i
    induction i with
    | zero => intro _; omega
    | succ i ih =>
      intro row
      have start := ih (by omega)
      have last := elements i (d.M - 1) (by omega) (by omega)
      rw [wrap_of_lt (by omega)] at last
      rw [Nat.succ_mul]
      omega
  exact rows d.N le_rfl

omit [Scalar F] in
theorem resolveDims_lt (dims : resolveDims A B p = .ok d) : d.N < 2 ^ 64 ∧ d.K < 2 ^ 64 ∧ d.M < 2 ^ 64 := by
  obtain ⟨n, _, dims⟩ := Lib.bind_ok dims
  obtain ⟨k, _, dims⟩ := Lib.bind_ok dims
  obtain ⟨m, _, dims⟩ := Lib.bind_ok dims
  cases dims
  exact ⟨n.toNat_lt, k.toNat_lt, m.toNat_lt⟩

omit [Scalar F] in
theorem narrow_result (dims : resolveDims A B p = .ok d) (small : d.N * d.M < 2 ^ 64) : Narrow d (resultShape d) := by
  obtain ⟨rows, _, columns⟩ := resolveDims_lt dims
  refine ⟨small, ?_⟩
  rw [resultShape, Tensor.size_pair, UInt64.toNat_ofNat', UInt64.toNat_ofNat', Nat.mod_eq_of_lt rows,
    Nat.mod_eq_of_lt columns]
  exact Nat.mod_eq_of_lt small

theorem buffer_shape {C : Tensor F} (made : buffer out d = .ok C) : C.shape = resultShape d := by
  rw [buffer] at made
  split at made
  next same =>
    cases made
    exact same
  next => exact (Tensor.filled_ok made).1

theorem buffer_ok (out : Tensor F) (narrow : Narrow d (resultShape d)) (fits : d.N * d.M * 4 < 2 ^ 64) :
    ∃ C, buffer out d = .ok C := by
  rw [buffer]
  split
  · exact ⟨out, rfl⟩
  · refine ⟨_, dif_pos ?_⟩
    rwa [narrow.size]

/-- What a call needs to return: an output whose byte count does not wrap, loops
that end, and operands that hold what the kernel reads. -/
structure Defined (strategy : GemmStrategy) (A B : List F) (d : Dims) (p : GemmParams F) : Prop where
  fits : d.N * d.M * 4 < 2 ^ 64
  ends : Blocked strategy → d.N ≤ tileLimit
  ready : ∀ i, i < d.N → RowReady strategy A B d p i

/-- So many rows are sharded only if the output is too large. -/
theorem rowRanges_far (pool : Option ThreadPool) (fits : d.N * d.M * 4 < 2 ^ 64) (far : tileLimit < d.N) :
    rowRanges pool d = [(0, d.N)] := by
  have zero : d.M = 0 := by
    rcases Nat.eq_zero_or_pos d.M with zero | positive
    · exact zero
    · have all : d.N ≤ d.N * d.M := Nat.le_mul_of_pos_right d.N positive
      simp only [tileLimit] at far
      omega
  have idle : worthSharding d = false := by
    simp [worthSharding, zero, wrap]
  cases pool with
  | none => rfl
  | some pool => simp [rowRanges, idle]

theorem compute_ok_iff (accepted : validate A B bias p = .ok ()) (dims : resolveDims A B p = .ok d) :
    compute A B bias out p strategy threads = .ok result ↔
      Defined (chosen strategy d) A.data B.data d p ∧ result.shape = resultShape d ∧ result.data = table d fun i j =>
        finish d p bias.data i j (entry (chosen strategy d) A.data B.data d p i j) := by
  have filled : ∀ C : Tensor F, ∀ value : Nat → F, C.data.length = d.N * d.M →
      (C.data.mapIdx fun index _ => value index) = (List.range (d.N * d.M)).map value := by
    intro C value long
    apply List.ext_getElem?
    intro index
    rw [List.getElem?_mapIdx, List.getElem?_map, ← long]
    by_cases inside : index < C.data.length
    · simp [inside]
    · simp [inside]
  rw [compute_eq accepted dims]
  constructor
  · intro returned
    obtain ⟨C, made, run⟩ := Lib.bind_ok returned
    have shaped := buffer_shape made
    have fits : d.N * d.M * 4 < 2 ^ 64 :=
      lt_of_le_of_lt (Nat.mul_le_mul_right 4 (ranges_inside run)) C.fits
    have ends : Blocked (chosen strategy d) → d.N ≤ tileLimit := by
      intro blocked
      by_contra far
      rw [rowRanges_far threads.pool fits (by omega)] at run
      simp only [List.foldlM_cons, List.foldlM_nil, bind_pure] at run
      obtain ⟨e, never⟩ := @runRows_endless F _ A.data B.data bias.data d p _ threads.packs d.N blocked (by omega) C
      cases never.symm.trans run
    have narrow := narrow_result dims (by omega)
    have cells := @cellwise_ranges F _ d p strategy A.data B.data bias.data _ narrow threads.pool threads.packs ends
    by_cases ready : ∀ i, i < d.N → RowReady (chosen strategy d) A.data B.data d p i
    · obtain ⟨after, ran, still, data⟩ := cells.ok ready C shaped
      cases run.symm.trans ran
      refine ⟨⟨fits, ends, ready⟩, still, ?_⟩
      exact data.trans (filled C _ (by rw [C.sized, shaped, narrow.size]))
    · obtain ⟨e, failed⟩ := cells.error ready C shaped
      cases run.symm.trans failed
  · rintro ⟨⟨fits, ends, ready⟩, shaped, data⟩
    have narrow := narrow_result dims (by omega)
    have cells := @cellwise_ranges F _ d p strategy A.data B.data bias.data _ narrow threads.pool threads.packs ends
    obtain ⟨C, made⟩ := buffer_ok out narrow fits
    have fresh := buffer_shape made
    obtain ⟨after, ran, still, written⟩ := cells.ok ready C fresh
    rw [made]
    refine ran.trans (congrArg Except.ok (Tensor.ext (still.trans shaped.symm) ?_))
    rw [data]
    exact written.trans (filled C _ (by rw [C.sized, fresh, narrow.size]))

omit [Scalar F] in
theorem length_table (d : Dims) (value : Nat → Nat → F) : (table d value).length = d.N * d.M := by
  rw [table, List.length_map, List.length_range]

/-- A call that has what it needs returns, whatever its threads and its buffer. -/
theorem compute_returns (accepted : validate A B bias p = .ok ()) (dims : resolveDims A B p = .ok d)
    (defined : Defined (chosen strategy d) A.data B.data d p) :
    ∃ result, (∀ out threads, compute A B bias out p strategy threads = .ok result) ∧
      result.shape = resultShape d ∧
      result.data = table d fun i j => finish d p bias.data i j (entry (chosen strategy d) A.data B.data d p i j) := by
  have fits := defined.fits
  have narrow := narrow_result dims (by omega)
  let values := table d fun i j => finish d p bias.data i j (entry (chosen strategy d) A.data B.data d p i j)
  have count : values.length = d.N * d.M := length_table d _
  exact ⟨⟨resultShape d, values, by rw [count, narrow.size], by rwa [count]⟩,
    fun _ _ => (compute_ok_iff accepted dims).mpr ⟨defined, rfl, rfl⟩, rfl, rfl⟩

end Compute
end Gemm
end FromScratch.Inference
