import Mathlib.Data.List.Basic
import Mathlib.Tactic.Ring

/-! Readers that consume a byte stream from the front and may fail. `Reads` is
the round-trip half of a format: a writer's bytes are read back whatever follows
them. `Yields` is the other half: what any accepted stream can have meant.
`Whole` says that a reader misses the first byte that is not there. -/

namespace FromScratch.Lib

abbrev Reader (ε : Type) (α : Type) := StateT (List UInt8) (Except ε) α

namespace Reader
variable {ε α β σ : Type}

def take (count : Nat) (short : ε) : Reader ε (List UInt8) := fun bytes =>
  if bytes.length < count then .error short else .ok (bytes.take count, bytes.drop count)

/-- A loop that reads one item after the other into a vector. -/
def times (reader : Reader ε α) : Nat → Reader ε (List α)
  | 0 => pure []
  | count + 1 => do
    let value ← reader
    let values ← times reader count
    pure (value :: values)

/-- A loop whose body updates an accumulator. -/
def repeated (body : σ → Reader ε σ) : Nat → σ → Reader ε σ
  | 0, state => pure state
  | count + 1, state => do
    let state ← body state
    repeated body count state

def Reads (reader : Reader ε α) (bytes : List UInt8) (value : α) : Prop :=
  ∀ rest, reader.run (bytes ++ rest) = .ok (value, rest)

/-- The bytes are refused, whatever follows them. -/
def Refuses (reader : Reader ε α) (bytes : List UInt8) : Prop :=
  ∀ rest, ∃ error, reader.run (bytes ++ rest) = .error error

def Yields (reader : Reader ε α) (result : α → Prop) : Prop :=
  ∀ bytes value rest, reader.run bytes = .ok (value, rest) → result value

/-- What is read from a stream depends on the bytes it takes up only, and it is
not read from a part of them: the error is then a `short` one. -/
def Whole (short : ε → Prop) (reader : Reader ε α) : Prop :=
  ∀ bytes value rest, reader.run bytes = .ok (value, rest) → ∃ used, bytes = used ++ rest ∧ Reads reader used value ∧
    ∀ cut, cut <+: used → cut ≠ used → ∃ error, short error ∧ reader.run cut = .error error

theorem run_bind (reader : Reader ε α) (next : α → Reader ε β) (bytes : List UInt8) :
    (reader >>= next).run bytes = (reader.run bytes >>= fun found => (next found.1).run found.2) := rfl

theorem run_bind_ok {reader : Reader ε α} {next : α → Reader ε β} {bytes rest : List UInt8} {result : β}
    (read : (reader >>= next).run bytes = .ok (result, rest)) :
    ∃ value middle, reader.run bytes = .ok (value, middle) ∧ (next value).run middle = .ok (result, rest) := by
  rw [run_bind] at read
  cases first : reader.run bytes with
  | error e => rw [first] at read; cases read
  | ok reached =>
    rw [first] at read
    exact ⟨reached.1, reached.2, rfl, read⟩

theorem run_bind_of_ok {reader : Reader ε α} {next : α → Reader ε β} {bytes middle : List UInt8} {value : α}
    (read : reader.run bytes = .ok (value, middle)) : (reader >>= next).run bytes = (next value).run middle := by
  rw [run_bind, read]
  rfl

namespace Reads

theorem pure (value : α) : Reads (pure value : Reader ε α) [] value := fun _ => rfl

theorem bind {reader : Reader ε α} {next : α → Reader ε β} {first second : List UInt8} {value : α} {result : β}
    (head : Reads reader first value) (tail : Reads (next value) second result) :
    Reads (reader >>= next) (first ++ second) result := by
  intro rest
  rw [run_bind, List.append_assoc, head]
  exact tail rest

theorem value {reader : Reader ε α} {bytes : List UInt8} {found : α} (reads : Reads reader bytes found) {same : α}
    (equal : same = found) : Reads reader bytes same := equal ▸ reads

/-- A last step that reads nothing. -/
theorem map {reader : Reader ε α} {next : α → Reader ε β} {bytes : List UInt8} {value : α} {result : β}
    (head : Reads reader bytes value) (tail : Reads (next value) [] result) : Reads (reader >>= next) bytes result := by
  have both := head.bind tail
  rwa [List.append_nil] at both

theorem take {bytes : List UInt8} {count : Nat} (long : bytes.length = count) (short : ε) :
    Reads (take count short) bytes bytes := by
  intro rest
  subst long
  simp [Reader.take, StateT.run]

theorem times {reader : Reader ε α} {encode : α → List UInt8} {values : List α}
    (each : ∀ value ∈ values, Reads reader (encode value) value) :
    Reads (times reader values.length) (values.flatMap encode) values := by
  induction values with
  | nil => exact pure []
  | cons value values ih =>
    have rest := ih fun other member => each other (List.mem_cons_of_mem _ member)
    exact (each value List.mem_cons_self).bind (rest.map (pure _))

theorem repeated {body : σ → Reader ε σ} {encode : α → List UInt8} {update : σ → α → σ} {items : List α}
    (each : ∀ item ∈ items, ∀ state, Reads (body state) (encode item) (update state item)) (state : σ) :
    Reads (repeated body items.length state) (items.flatMap encode) (items.foldl update state) := by
  induction items generalizing state with
  | nil => exact pure state
  | cons item items ih =>
    exact (each item List.mem_cons_self state).bind
      (ih (fun other member => each other (List.mem_cons_of_mem _ member)) (update state item))

end Reads

namespace Refuses

theorem head {reader : Reader ε α} {next : α → Reader ε β} {first : List UInt8} (refuses : Refuses reader first)
    (second : List UInt8) : Refuses (reader >>= next) (first ++ second) := by
  intro rest
  obtain ⟨error, same⟩ := refuses (second ++ rest)
  exact ⟨error, by rw [run_bind, List.append_assoc, same]; rfl⟩

theorem tail {reader : Reader ε α} {next : α → Reader ε β} {first second : List UInt8} {value : α}
    (reads : Reads reader first value) (refuses : Refuses (next value) second) :
    Refuses (reader >>= next) (first ++ second) := by
  intro rest
  obtain ⟨error, same⟩ := refuses rest
  exact ⟨error, by rw [run_bind, List.append_assoc, reads]; exact same⟩

/-- A loop stops at the first item it refuses. -/
theorem repeated {body : σ → Reader ε σ} {encode : α → List UInt8} {update : σ → α → σ} {items : List α}
    {good : α → Prop} (reads : ∀ item ∈ items, good item → ∀ state, Reads (body state) (encode item) (update state item))
    (refuses : ∀ item ∈ items, ¬good item → ∀ state, Refuses (body state) (encode item))
    (bad : ∃ item ∈ items, ¬good item) (state : σ) :
    Refuses (repeated body items.length state) (items.flatMap encode) := by
  induction items generalizing state with
  | nil => obtain ⟨_, member, _⟩ := bad; cases member
  | cons item items ih =>
    by_cases fine : good item
    · refine tail (reads item List.mem_cons_self fine state) (ih ?_ ?_ ?_ _)
      · exact fun other member => reads other (List.mem_cons_of_mem _ member)
      · exact fun other member => refuses other (List.mem_cons_of_mem _ member)
      · obtain ⟨other, member, wrong⟩ := bad
        rcases List.mem_cons.mp member with rfl | later
        · exact absurd fine wrong
        · exact ⟨other, later, wrong⟩
    · exact head (refuses item List.mem_cons_self fine state) _

end Refuses

namespace Yields

theorem pure {value : α} {result : α → Prop} (holds : result value) : Yields (pure value : Reader ε α) result := by
  intro bytes found rest same
  cases same
  exact holds

theorem fails {error : ε} {result : α → Prop} : Yields (throw error : Reader ε α) result := by
  intro bytes found rest same
  cases same

theorem bind {reader : Reader ε α} {next : α → Reader ε β} {middle : α → Prop} {result : β → Prop}
    (head : Yields reader middle) (tail : ∀ value, middle value → Yields (next value) result) :
    Yields (reader >>= next) result := by
  intro bytes found rest same
  obtain ⟨value, middle, first, second⟩ := run_bind_ok same
  exact tail value (head bytes value middle first) middle found rest second

theorem fails_bind {error : ε} {next : α → Reader ε β} {result : β → Prop} :
    Yields ((throw error : Reader ε α) >>= next) result := by
  have never : Yields (throw error : Reader ε α) fun _ => False := fails
  exact never.bind fun _ absurd => absurd.elim

theorem mono {reader : Reader ε α} {weak strong : α → Prop} (yields : Yields reader strong)
    (implies : ∀ value, strong value → weak value) : Yields reader weak :=
  fun bytes value rest same => implies value (yields bytes value rest same)

theorem any (reader : Reader ε α) : Yields reader fun _ => True := fun _ _ _ _ => trivial

theorem lift {result : Except ε α} {holds : α → Prop} (each : ∀ value, result = .ok value → holds value) :
    Yields (liftM result : Reader ε α) holds := by
  intro bytes found rest same
  cases result with
  | error e => cases same
  | ok value =>
    cases same
    exact each _ rfl

theorem take (count : Nat) (short : ε) : Yields (take count short) fun bytes => bytes.length = count := by
  intro bytes found rest same
  simp only [Reader.take, StateT.run] at same
  split at same
  · cases same
  · cases same
    rw [List.length_take]
    omega

theorem times {reader : Reader ε α} {result : α → Prop} (each : Yields reader result) (count : Nat) :
    Yields (times reader count) fun values => values.length = count ∧ ∀ value ∈ values, result value := by
  induction count with
  | zero => exact pure ⟨rfl, fun _ member => nomatch member⟩
  | succ count ih =>
    refine each.bind fun value holds => ih.bind fun values rest => pure ?_
    exact ⟨congrArg (· + 1) rest.1, List.forall_mem_cons.mpr ⟨holds, rest.2⟩⟩

/-- The invariant may count the rounds that are left. -/
theorem repeated {body : σ → Reader ε σ} {holds : Nat → σ → Prop}
    (each : ∀ left state, holds (left + 1) state → Yields (body state) (holds left)) :
    ∀ count state, holds count state → Yields (repeated body count state) (holds 0)
  | 0, _, start => pure start
  | count + 1, state, start => (each count state start).bind fun next middle => repeated each count next middle

end Yields

namespace Whole
variable {short : ε → Prop}

theorem pure (value : α) : Whole short (pure value : Reader ε α) := by
  intro bytes found rest same
  cases same
  exact ⟨[], rfl, Reads.pure _, fun cut part other => absurd (List.prefix_nil.mp part) other⟩

theorem fails (error : ε) : Whole short (throw error : Reader ε α) := by
  intro bytes found rest same
  cases same

theorem fails_bind {error : ε} {next : α → Reader ε β} : Whole short ((throw error : Reader ε α) >>= next) := by
  intro bytes found rest same
  cases same

theorem bind {reader : Reader ε α} {next : α → Reader ε β} (head : Whole short reader)
    (tail : ∀ value, Whole short (next value)) :
    Whole short (reader >>= next) := by
  intro bytes found rest same
  obtain ⟨value, middle, first, second⟩ := run_bind_ok same
  obtain ⟨early, rfl, reads, misses⟩ := head bytes value middle first
  obtain ⟨late, rfl, follows, lacks⟩ := tail value middle found rest second
  refine ⟨early ++ late, (List.append_assoc ..).symm, reads.bind follows, fun cut part other => ?_⟩
  rw [run_bind]
  -- The bytes end inside what the first reader takes up, or behind it.
  by_cases inside : early <+: cut
  · obtain ⟨more, rfl⟩ := inside
    have part := (List.prefix_append_right_inj early).mp part
    obtain ⟨error, few, failed⟩ := lacks more part fun same => other (congrArg (early ++ ·) same)
    exact ⟨error, few, by rw [reads]; exact failed⟩
  · have part : cut <+: early :=
      (List.prefix_or_prefix_of_prefix part (List.prefix_append early late)).resolve_right inside
    obtain ⟨error, few, failed⟩ := misses cut part fun same => inside (same ▸ List.prefix_rfl)
    exact ⟨error, few, by rw [failed]; rfl⟩

theorem take (count : Nat) {error : ε} (few : short error) : Whole short (take count error) := by
  intro bytes found rest same
  simp only [Reader.take, StateT.run] at same
  split at same
  · cases same
  next long =>
    cases same
    have length : (bytes.take count).length = count := List.length_take_of_le (not_lt.mp long)
    refine ⟨bytes.take count, (List.take_append_drop ..).symm, Reads.take length error,
      fun cut part other => ⟨error, few, ?_⟩⟩
    have shorter : cut.length < count := by
      rw [← length]
      exact lt_of_le_of_ne part.length_le fun same => other (part.eq_of_length same)
    simp only [Reader.take, StateT.run, if_pos shorter]

theorem lift (result : Except ε α) : Whole short (liftM result : Reader ε α) := by
  cases result with
  | ok value => exact pure value
  | error e => exact fails e

theorem times {reader : Reader ε α} (each : Whole short reader) : ∀ count, Whole short (times reader count)
  | 0 => pure []
  | count + 1 => each.bind fun _ => (times each count).bind fun _ => pure _

theorem repeated {body : σ → Reader ε σ} (each : ∀ state, Whole short (body state)) :
    ∀ count state, Whole short (repeated body count state)
  | 0, state => pure state
  | count + 1, state => (each state).bind fun next => repeated each count next

end Whole
end Reader

/-- `width` bytes, the least significant first. -/
def littleEndian : Nat → Nat → List UInt8
  | 0, _ => []
  | width + 1, number => UInt8.ofNat number :: littleEndian width (number / 256)

def ofLittleEndian : List UInt8 → Nat
  | [] => 0
  | byte :: bytes => byte.toNat + 256 * ofLittleEndian bytes

@[simp] theorem littleEndian_length (width number : Nat) : (littleEndian width number).length = width := by
  induction width generalizing number with
  | zero => rfl
  | succ width ih => rw [littleEndian, List.length_cons, ih]

theorem ofLittleEndian_littleEndian (width number : Nat) :
    ofLittleEndian (littleEndian width number) = number % 256 ^ width := by
  induction width generalizing number with
  | zero => simp [littleEndian, ofLittleEndian, Nat.mod_one]
  | succ width ih =>
    have byte : (UInt8.ofNat number).toNat = number % 256 := rfl
    rw [littleEndian, ofLittleEndian, ih, byte, pow_succ, mul_comm (256 ^ width), Nat.mod_mul]

theorem ofLittleEndian_lt (bytes : List UInt8) : ofLittleEndian bytes < 256 ^ bytes.length := by
  induction bytes with
  | nil => exact Nat.one_pos
  | cons byte bytes ih =>
    have small := byte.toNat_lt
    rw [ofLittleEndian, List.length_cons, pow_succ]
    omega

/-- A number below `256 ^ width` survives. -/
theorem ofLittleEndian_of_lt {width number : Nat} (small : number < 256 ^ width) :
    ofLittleEndian (littleEndian width number) = number := by
  rw [ofLittleEndian_littleEndian, Nat.mod_eq_of_lt small]

theorem littleEndian_ofLittleEndian (bytes : List UInt8) : littleEndian bytes.length (ofLittleEndian bytes) = bytes := by
  induction bytes with
  | nil => rfl
  | cons byte bytes ih =>
    have small := byte.toNat_lt
    rw [List.length_cons, ofLittleEndian, littleEndian, Nat.add_mul_div_left _ _ (by decide), Nat.div_eq_of_lt small,
      Nat.zero_add, ih]
    refine congrArg (· :: bytes) (UInt8.toNat.inj ?_)
    rw [UInt8.toNat_ofNat']
    omega

end FromScratch.Lib
