import FromScratch.Inference.Config
import FromScratch.Lib.Decimal

/-! The numbers of a configuration file. The value given last for a key decides its
field, but only as far as `stoll` reads it and, for the port, modulo 2 ^ 32. -/

namespace FromScratch.Proofs.ConfigNumbers
open FromScratch.Inference Config HttpServer
open Lib (bind_ok)
open Lib.Decimal (IsDigit Literal)

section Literals

theorem isDigit_iff {byte : UInt8} : isDigit byte = true ↔ IsDigit byte := by
  rw [isDigit, Bool.and_eq_true, decide_eq_true_iff, decide_eq_true_iff]
  exact and_congr UInt8.le_iff_toNat_le UInt8.le_iff_toNat_le

/-- What `stoll` leaves unread. -/
def unread (stream : Text) : Text :=
  let rest := stream.dropWhile isSpace
  (if rest.head? = some 45 ∨ rest.head? = some 43 then rest.tail else rest).dropWhile isDigit

/-- No white space is skipped, and nothing is left after the number. -/
def ReadWhole (value : Text) : Prop := value.dropWhile isSpace = value ∧ unread value = []

/-- The sum `stoll` makes. -/
theorem sum_digits {digits : Text} (only : ∀ digit ∈ digits, IsDigit digit) :
    digits.foldl (fun (value : Int) digit => value * 10 + (digit.toNat - 48)) 0 = Lib.Decimal.value digits := by
  induction digits using List.reverseRecOn with
  | nil => rfl
  | append_singleton digits digit ih =>
    obtain ⟨only, last⟩ := List.forall_mem_append.mp only
    have last := (List.forall_mem_singleton.mp last).1
    rw [List.foldl_concat, ih only, Lib.Decimal.value_concat]
    omega

/-- A number of 64 bits, or none. -/
def ranged (number : Int) : Option Int := if -2 ^ 63 ≤ number ∧ number < 2 ^ 63 then some number else none

theorem of_ranged {number parsed : Int} (fits : ranged number = some parsed) : parsed = number := by
  rw [ranged] at fits
  split at fits
  · exact (Option.some.inj fits).symm
  · cases fits

variable {digits : Text}

theorem takeWhile_digits (only : ∀ digit ∈ digits, IsDigit digit) : digits.takeWhile isDigit = digits :=
  List.takeWhile_eq_self_iff.mpr fun digit member => isDigit_iff.mpr (only digit member)

theorem dropWhile_digits (only : ∀ digit ∈ digits, IsDigit digit) : digits.dropWhile isDigit = [] :=
  List.dropWhile_eq_nil_iff.mpr fun digit member => isDigit_iff.mpr (only digit member)

/-- A digit is neither white space nor a sign. -/
theorem begins_digit (filled : digits ≠ []) (only : ∀ digit ∈ digits, IsDigit digit) :
    digits.dropWhile isSpace = digits ∧ ¬(digits.head? = some 45 ∨ digits.head? = some 43) := by
  obtain ⟨first, rest, rfl⟩ := List.exists_cons_of_ne_nil filled
  obtain ⟨low, high⟩ := only first List.mem_cons_self
  have other {byte : UInt8} (outside : byte.toNat < 48) : first ≠ byte := by
    rintro rfl
    omega
  constructor
  · apply List.dropWhile_cons_of_neg
    simp only [isSpace, Bool.or_eq_true, Bool.and_eq_true, decide_eq_true_iff, not_or, not_and]
    refine ⟨other (by decide), fun _ before => ?_⟩
    have before := UInt8.le_iff_toNat_le.mp before
    exact absurd (low.trans before) (by decide)
  · rw [List.head?_cons]
    rintro (minus | plus)
    · exact other (by decide) (Option.some.inj minus)
    · exact other (by decide) (Option.some.inj plus)

theorem stoll_digits (filled : digits ≠ []) (only : ∀ digit ∈ digits, IsDigit digit) :
    ReadWhole digits ∧ stoll digits = ranged (Lib.Decimal.value digits) := by
  obtain ⟨begins, unsigned⟩ := begins_digit filled only
  have plain : ¬digits.head? = some 45 := fun minus => unsigned (Or.inl minus)
  constructor
  · refine ⟨begins, ?_⟩
    simp only [unread, begins, if_neg unsigned]
    exact dropWhile_digits only
  · simp only [stoll, begins, plain, false_or, if_neg (not_or.mp unsigned).2, takeWhile_digits only, if_neg filled,
      sum_digits only]
    rfl

theorem stoll_signed {sign : UInt8} (either : sign = 45 ∨ sign = 43) (only : ∀ digit ∈ digits, IsDigit digit) :
    ReadWhole (sign :: digits) ∧ stoll (sign :: digits) =
      if digits = [] then none
      else ranged (if sign = 45 then -Lib.Decimal.value digits else Lib.Decimal.value digits) := by
  have begins : (sign :: digits).dropWhile isSpace = sign :: digits := by
    apply List.dropWhile_cons_of_neg
    rcases either with rfl | rfl <;> decide
  have signed : (sign :: digits).head? = some 45 ∨ (sign :: digits).head? = some 43 := by
    rcases either with rfl | rfl
    · exact Or.inl rfl
    · exact Or.inr rfl
  constructor
  · refine ⟨begins, ?_⟩
    simp only [unread, begins, if_pos signed]
    exact dropWhile_digits only
  · simp only [stoll, begins, List.head?_cons, Option.some.injEq, if_pos either, List.tail_cons, takeWhile_digits only,
      sum_digits only, ranged]

/-- The values that are read whole are a sign or none, and digits. -/
theorem ReadWhole.cases {value : Text} (whole : ReadWhole value) : ∃ digits : Text, (∀ digit ∈ digits, IsDigit digit) ∧
    (value = digits ∨ ∃ sign, (sign = 45 ∨ sign = 43) ∧ value = sign :: digits) := by
  obtain ⟨begins, ends⟩ := whole
  simp only [unread, begins] at ends
  split at ends
  next signed =>
    refine ⟨value.tail, fun digit member => isDigit_iff.mp (List.dropWhile_eq_nil_iff.mp ends digit member), Or.inr ?_⟩
    cases value with
    | nil => rcases signed with front | front <;> cases front
    | cons sign digits =>
      refine ⟨sign, ?_, rfl⟩
      exact signed.imp Option.some.inj Option.some.inj
  next => exact ⟨value, fun digit member => isDigit_iff.mp (List.dropWhile_eq_nil_iff.mp ends digit member), Or.inl rfl⟩

/-- A number is written as a literal when it is read whole. -/
theorem literal_of_stoll {value : Text} {number : Int} (whole : ReadWhole value) (read : stoll value = some number) :
    Literal value number := by
  obtain ⟨digits, only, same | ⟨sign, either, rfl⟩⟩ := whole.cases
  · rw [same] at read ⊢
    rcases eq_or_ne digits [] with rfl | filled
    · cases read
    · rw [(stoll_digits filled only).2] at read
      rw [of_ranged read]
      exact .plain filled only
  · rw [(stoll_signed either only).2] at read
    split at read
    next => cases read
    next filled =>
      rw [of_ranged read]
      rcases either with rfl | rfl
      · exact .negative filled only
      · exact .positive filled only

theorem read_of_literal {value : Text} {number : Int} (literal : Literal value number) :
    ReadWhole value ∧ ∀ parsed, stoll value = some parsed → parsed = number := by
  cases literal with
  | plain filled only =>
    obtain ⟨whole, read⟩ := stoll_digits filled only
    exact ⟨whole, fun parsed found => of_ranged (read.symm.trans found)⟩
  | positive filled only =>
    obtain ⟨whole, read⟩ := stoll_signed (Or.inr rfl) only
    rw [if_neg filled] at read
    exact ⟨whole, fun parsed found => of_ranged (read.symm.trans found)⟩
  | negative filled only =>
    obtain ⟨whole, read⟩ := stoll_signed (Or.inl rfl) only
    rw [if_neg filled] at read
    exact ⟨whole, fun parsed found => of_ranged (read.symm.trans found)⟩

end Literals

section Lines

/-- What a line gives for the key. -/
def given (key line : Text) : Option Text :=
  if content line = [] then none
  else match keyValue (content line) with
    | some (other, value) => if other = key then some value else none
    | none => none

/-- The value given last for the key. -/
def lastValue (key : Text) (lines : List Text) : Option Text := (lines.filterMap (given key)).getLast?

theorem lastValue_concat (key : Text) (lines : List Text) (line : Text) :
    lastValue key (lines ++ [line]) = (given key line).or (lastValue key lines) := by
  rw [lastValue, List.filterMap_append, List.getLast?_append]
  congr 1
  rw [List.filterMap_cons]
  cases given key line <;> rfl

/-- What an accepted line changes. -/
inductive Assigned (config : ModelConfig) (value : Text) : Text → ModelConfig → Prop
  | name : Assigned config value (text "name") { config with name := value }
  | modelPath : Assigned config value (text "model_path") { config with modelPath := value }
  | executionProvider : Assigned config value (text "execution_provider") { config with executionProvider := value }
  | gemmStrategy : Assigned config value (text "gemm_strategy") { config with gemmStrategy := value }
  | maxBatchSize {size : UInt64} (read : parseSize value (text "max_batch_size") = .ok size) :
      Assigned config value (text "max_batch_size") { config with maxBatchSize := size }
  | intraOpThreads {size : UInt64} (read : parseSize value (text "intra_op_threads") = .ok size) :
      Assigned config value (text "intra_op_threads") { config with intraOpThreads := size }
  | interOpParallel {flag : Bool} (read : parseBool value (text "inter_op_parallel") = .ok flag) :
      Assigned config value (text "inter_op_parallel") { config with interOpParallel := flag }
  | graphOptimization {flag : Bool} (read : parseBool value (text "graph_optimization") = .ok flag) :
      Assigned config value (text "graph_optimization") { config with graphOptimization := flag }
  | memoryPool {flag : Bool} (read : parseBool value (text "memory_pool") = .ok flag) :
      Assigned config value (text "memory_pool") { config with memoryPool := flag }
  | profiling {flag : Bool} (read : parseBool value (text "profiling") = .ok flag) :
      Assigned config value (text "profiling") { config with profiling := flag }
  | maxQueueDelayMicroseconds {size : UInt64} (read : parseSize value (text "max_queue_delay_microseconds") = .ok size) :
      Assigned config value (text "max_queue_delay_microseconds") { config with maxQueueDelayMicroseconds := size }
  | httpAddress : Assigned config value (text "http_address") { config with httpAddress := value }
  | httpPort {size : UInt64} (read : parseSize value (text "http_port") = .ok size) :
      Assigned config value (text "http_port") { config with httpPort := size.toUInt32.toInt32 }

variable {config next : ModelConfig} {key value : Text} {lineNumber : Nat}

/-- The branch that was taken. -/
theorem branch {α : Type} {p : Prop} [Decidable p] {yes no : Except Fault α} {result : α}
    (returned : (if p then yes else no) = .ok result) : p ∧ yes = .ok result ∨ ¬p ∧ no = .ok result := by
  by_cases holds : p
  · rw [if_pos holds] at returned
    exact Or.inl ⟨holds, returned⟩
  · rw [if_neg holds] at returned
    exact Or.inr ⟨holds, returned⟩

theorem assigned (made : assign config lineNumber key value = .ok next) : Assigned config value key next := by
  unfold assign at made
  rcases branch made with ⟨rfl, made⟩ | ⟨_, made⟩
  · cases made
    exact .name
  rcases branch made with ⟨rfl, made⟩ | ⟨_, made⟩
  · cases made
    exact .modelPath
  rcases branch made with ⟨rfl, made⟩ | ⟨_, made⟩
  · cases made
    exact .executionProvider
  rcases branch made with ⟨rfl, made⟩ | ⟨_, made⟩
  · cases made
    exact .gemmStrategy
  rcases branch made with ⟨rfl, made⟩ | ⟨_, made⟩
  · obtain ⟨size, read, made⟩ := bind_ok made
    cases made
    exact .maxBatchSize read
  rcases branch made with ⟨rfl, made⟩ | ⟨_, made⟩
  · obtain ⟨size, read, made⟩ := bind_ok made
    cases made
    exact .intraOpThreads read
  rcases branch made with ⟨rfl, made⟩ | ⟨_, made⟩
  · obtain ⟨flag, read, made⟩ := bind_ok made
    cases made
    exact .interOpParallel read
  rcases branch made with ⟨rfl, made⟩ | ⟨_, made⟩
  · obtain ⟨flag, read, made⟩ := bind_ok made
    cases made
    exact .graphOptimization read
  rcases branch made with ⟨rfl, made⟩ | ⟨_, made⟩
  · obtain ⟨flag, read, made⟩ := bind_ok made
    cases made
    exact .memoryPool read
  rcases branch made with ⟨rfl, made⟩ | ⟨_, made⟩
  · obtain ⟨flag, read, made⟩ := bind_ok made
    cases made
    exact .profiling read
  rcases branch made with ⟨rfl, made⟩ | ⟨_, made⟩
  · obtain ⟨size, read, made⟩ := bind_ok made
    cases made
    exact .maxQueueDelayMicroseconds read
  rcases branch made with ⟨rfl, made⟩ | ⟨_, made⟩
  · cases made
    exact .httpAddress
  rcases branch made with ⟨rfl, made⟩ | ⟨_, made⟩
  · obtain ⟨size, read, made⟩ := bind_ok made
    cases made
    exact .httpPort read
  cases made

/-- The field is what was read last for the key. -/
def Sets (key : Text) (field : ModelConfig → Int) (number : UInt64 → Int) : Prop :=
  ∀ {config next : ModelConfig} {value other : Text}, Assigned config value other next →
    if other = key then ∃ size, parseSize value key = .ok size ∧ field next = number size else field next = field config

theorem sets_maxBatchSize : Sets (text "max_batch_size") (fun config => config.maxBatchSize.toNat) fun size =>
    size.toNat := by
  intro config next value other made
  cases made with
  | maxBatchSize read =>
    rw [if_pos rfl]
    exact ⟨_, read, rfl⟩
  | _ => rw [if_neg (by decide +kernel)]

theorem sets_intraOpThreads : Sets (text "intra_op_threads") (fun config => config.intraOpThreads.toNat) fun size =>
    size.toNat := by
  intro config next value other made
  cases made with
  | intraOpThreads read =>
    rw [if_pos rfl]
    exact ⟨_, read, rfl⟩
  | _ => rw [if_neg (by decide +kernel)]

theorem sets_maxQueueDelayMicroseconds :
    Sets (text "max_queue_delay_microseconds") (fun config => config.maxQueueDelayMicroseconds.toNat) fun size =>
      size.toNat := by
  intro config next value other made
  cases made with
  | maxQueueDelayMicroseconds read =>
    rw [if_pos rfl]
    exact ⟨_, read, rfl⟩
  | _ => rw [if_neg (by decide +kernel)]

theorem sets_httpPort : Sets (text "http_port") (fun config => config.httpPort.toInt) fun size =>
    size.toUInt32.toInt32.toInt := by
  intro config next value other made
  cases made with
  | httpPort read =>
    rw [if_pos rfl]
    exact ⟨_, read, rfl⟩
  | _ => rw [if_neg (by decide +kernel)]

variable {field : ModelConfig → Int} {number : UInt64 → Int} {line : Text} {state after : ModelConfig × Nat}

theorem readLine_sets (sets : Sets key field number) (read : readLine state line = .ok after) :
    match given key line with
    | some value => ∃ size, parseSize value key = .ok size ∧ field after.1 = number size
    | none => field after.1 = field state.1 := by
  simp only [readLine] at read
  rw [given]
  rcases branch read with ⟨blank, read⟩ | ⟨filled, read⟩
  · cases read
    rw [if_pos blank]
  · rw [if_neg filled]
    cases found : keyValue (content line) with
    | none =>
      rw [found] at read
      cases read
    | some entry =>
      obtain ⟨other, value⟩ := entry
      rw [found] at read
      obtain ⟨next, made, read⟩ := bind_ok read
      cases read
      have changed := sets (assigned made)
      simp only
      by_cases same : other = key
      · rw [if_pos same] at changed ⊢
        exact changed
      · rw [if_neg same] at changed ⊢
        exact changed

/-- Whatever came before, the last line for the key decides. -/
theorem lines_sets (sets : Sets key field number) {lines : List Text} (read : lines.foldlM readLine state = .ok after) :
    match lastValue key lines with
    | some value => ∃ size, parseSize value key = .ok size ∧ field after.1 = number size
    | none => field after.1 = field state.1 := by
  induction lines using List.reverseRecOn generalizing after with
  | nil =>
    cases read
    rfl
  | append_singleton lines line ih =>
    rw [List.foldlM_append] at read
    obtain ⟨middle, before, read⟩ := bind_ok read
    obtain ⟨last, read, rest⟩ := bind_ok read
    cases rest
    have before := ih before
    have last := readLine_sets sets read
    rw [lastValue_concat]
    cases named : given key line with
    | some value =>
      rw [named] at last
      exact last
    | none =>
      rw [named] at last
      rw [Option.none_or, last]
      exact before

theorem of_checked {p q : Prop} [Decidable p] [Decidable q] {number parsed : Int}
    (read : (if p then none else if q then some number else none) = some parsed) : q ∧ number = parsed := by
  by_cases empty : p
  · rw [if_pos empty] at read
    cases read
  · rw [if_neg empty] at read
    by_cases fits : q
    · rw [if_pos fits] at read
      exact ⟨fits, Option.some.inj read⟩
    · rw [if_neg fits] at read
      cases read

theorem stoll_bounded {parsed : Int} (read : stoll value = some parsed) : parsed < 2 ^ 63 := by
  simp only [stoll] at read
  obtain ⟨fits, same⟩ := of_checked read
  rw [← same]
  exact fits.2

theorem parseSize_ok {size : UInt64} (read : parseSize value key = .ok size) :
    ∃ parsed : Nat, stoll value = some (parsed : Int) ∧ size.toNat = parsed := by
  rw [parseSize] at read
  cases found : stoll value with
  | none =>
    rw [found] at read
    cases read
  | some parsed =>
    rw [found] at read
    rcases branch read with ⟨_, read⟩ | ⟨nonneg, read⟩
    · cases read
    · cases read
      have bounded := stoll_bounded found
      refine ⟨parsed.toNat, congrArg some (by omega), ?_⟩
      rw [UInt64.toNat_ofNat']
      exact Nat.mod_eq_of_lt (by omega)

end Lines

section Ranges

/-- What `validate` makes sure of. -/
structure Ranged (config : ModelConfig) : Prop where
  maxBatchSize : 1 ≤ config.maxBatchSize.toNat ∧ config.maxBatchSize.toNat ≤ 4096
  intraOpThreads : 1 ≤ config.intraOpThreads.toNat ∧ config.intraOpThreads.toNat ≤ 256
  httpPort : 1 ≤ config.httpPort.toInt ∧ config.httpPort.toInt ≤ 65535

theorem size_ranged {size limit : UInt64} (inside : ¬(size = 0 ∨ size > limit)) :
    1 ≤ size.toNat ∧ size.toNat ≤ limit.toNat := by
  obtain ⟨nonzero, below⟩ := not_or.mp inside
  have positive : size.toNat ≠ 0 := fun zero => nonzero (UInt64.toNat_inj.mp zero)
  exact ⟨Nat.one_le_iff_ne_zero.mpr positive, UInt64.le_iff_toNat_le.mp (UInt64.not_lt.mp below)⟩

theorem port_ranged {port limit : Int32} (inside : ¬(port ≤ 0 ∨ port > limit)) :
    1 ≤ port.toInt ∧ port.toInt ≤ limit.toInt := by
  obtain ⟨positive, below⟩ := not_or.mp inside
  exact ⟨Int32.lt_iff_toInt_lt.mp (Int32.not_le.mp positive), Int32.le_iff_toInt_le.mp (Int32.not_lt.mp below)⟩

theorem validate_ranged {config : ModelConfig} (valid : config.validate = .ok ()) : Ranged config := by
  unfold ModelConfig.validate at valid
  rcases branch valid with ⟨_, valid⟩ | ⟨_, valid⟩
  · cases valid
  rcases branch valid with ⟨_, valid⟩ | ⟨batch, valid⟩
  · cases valid
  rcases branch valid with ⟨_, valid⟩ | ⟨threads, valid⟩
  · cases valid
  rcases branch valid with ⟨_, valid⟩ | ⟨port, valid⟩
  · cases valid
  exact ⟨size_ranged batch, size_ranged threads, port_ranged port⟩

/-- A port below 2 ^ 32 that is in range after the narrowing was in range before. -/
theorem port_toInt {size : UInt64} (ranged : 1 ≤ size.toUInt32.toInt32.toInt) (small : size.toNat < 2 ^ 32) :
    size.toUInt32.toInt32.toInt = size.toNat := by
  have narrowed : size.toUInt32.toInt32.toInt = (size.toNat : Int).bmod (2 ^ 32) := by
    have same : size.toUInt32.toNat = size.toNat := by
      rw [UInt64.toNat_toUInt32]
      exact Nat.mod_eq_of_lt small
    rw [← same]
    exact BitVec.toInt_eq_toNat_bmod size.toUInt32.toBitVec
  rw [narrowed, Int.bmod_def] at ranged ⊢
  split at ranged
  next low =>
    rw [if_pos low]
    omega
  next => omega

end Ranges

section Files
variable {lines : List Text} {config : ModelConfig}

/-- The value given last is a literal of the number in the field, which is in range. -/
def Exact (lines : List Text) (key : Text) (field : Int) (range : Int → Prop) : Prop :=
  ∀ value, lastValue key lines = some value → ∃ number, Literal value number ∧ field = number ∧ range number

/-- The numeric values mean what they say. -/
structure Meant (lines : List Text) (config : ModelConfig) : Prop where
  maxBatchSize : Exact lines (text "max_batch_size") config.maxBatchSize.toNat fun number => 1 ≤ number ∧ number ≤ 4096
  intraOpThreads : Exact lines (text "intra_op_threads") config.intraOpThreads.toNat fun number => 1 ≤ number ∧ number ≤ 256
  httpPort : Exact lines (text "http_port") config.httpPort.toInt fun number => 1 ≤ number ∧ number ≤ 65535
  maxQueueDelayMicroseconds :
    Exact lines (text "max_queue_delay_microseconds") config.maxQueueDelayMicroseconds.toNat fun _ => True

/-- The value given last for the key is read whole. -/
def LastWhole (lines : List Text) (key : Text) : Prop := ∀ value, lastValue key lines = some value → ReadWhole value

/-- The values given last are read whole, and the port is a number of 32 bits. -/
structure Whole (lines : List Text) : Prop where
  maxBatchSize : LastWhole lines (text "max_batch_size")
  intraOpThreads : LastWhole lines (text "intra_op_threads")
  httpPort : LastWhole lines (text "http_port")
  maxQueueDelayMicroseconds : LastWhole lines (text "max_queue_delay_microseconds")
  narrow : ∀ value port, lastValue (text "http_port") lines = some value → stoll value = some port → port < 2 ^ 32

theorem exact_iff (range : Int → Prop) {key : Text} {field : ModelConfig → Int} {number : UInt64 → Int}
    {lineNumber : Nat} (sets : Sets key field number) (read : lines.foldlM readLine ({}, 0) = .ok (config, lineNumber))
    (ranged : range (field config)) : Exact lines key (field config) range ↔
      LastWhole lines key ∧ ∀ value size, lastValue key lines = some value → parseSize value key = .ok size →
        number size = size.toNat := by
  have sets := lines_sets sets read
  constructor
  · intro exactly
    refine ⟨fun value last => ?_, fun value size last parsed => ?_⟩
    · obtain ⟨_, literal, _⟩ := exactly value last
      exact (read_of_literal literal).1
    · obtain ⟨written, literal, same, _⟩ := exactly value last
      rw [last] at sets
      obtain ⟨other, again, stored⟩ := sets
      cases again.symm.trans parsed
      obtain ⟨stands, found, value⟩ := parseSize_ok parsed
      have written := (read_of_literal literal).2 _ found
      rw [← stored, same, ← written, value]
  · rintro ⟨whole, unchanged⟩ value last
    rw [last] at sets
    obtain ⟨size, parsed, stored⟩ := sets
    obtain ⟨stands, found, value⟩ := parseSize_ok parsed
    have same : field config = stands := by rw [stored, unchanged _ size last parsed, value]
    refine ⟨stands, literal_of_stoll (whole _ last) found, same, ?_⟩
    rwa [← same]

/-- For a 64-bit field nothing is lost. -/
theorem exact_size_iff (range : Int → Prop) {key : Text} {field : ModelConfig → UInt64} {lineNumber : Nat}
    (sets : Sets key (fun config => (field config).toNat) fun size => size.toNat)
    (read : lines.foldlM readLine ({}, 0) = .ok (config, lineNumber)) (ranged : range (field config).toNat) :
    Exact lines key (field config).toNat range ↔ LastWhole lines key :=
  (exact_iff range sets read ranged).trans (and_iff_left fun _ _ _ _ => rfl)

/-- For the port nothing is lost below 2 ^ 32. -/
theorem exact_port_iff {lineNumber : Nat} (read : lines.foldlM readLine ({}, 0) = .ok (config, lineNumber))
    (ranged : 1 ≤ config.httpPort.toInt ∧ config.httpPort.toInt ≤ 65535) :
    Exact lines (text "http_port") config.httpPort.toInt (fun number => 1 ≤ number ∧ number ≤ 65535) ↔
      LastWhole lines (text "http_port") ∧
        ∀ value port, lastValue (text "http_port") lines = some value → stoll value = some port → port < 2 ^ 32 := by
  have stored := lines_sets sets_httpPort read
  refine (exact_iff _ sets_httpPort read ranged).trans (and_congr_right fun _ => ?_)
  constructor
  · intro unchanged value port last found
    rw [last] at stored
    obtain ⟨size, parsed, stored⟩ := stored
    obtain ⟨stands, again, value⟩ := parseSize_ok parsed
    have same : size.toUInt32.toInt32.toInt = size.toNat := unchanged _ size last parsed
    have stored : config.httpPort.toInt = size.toUInt32.toInt32.toInt := stored
    cases again.symm.trans found
    omega
  · intro narrow value size last parsed
    rw [last] at stored
    obtain ⟨other, again, stored⟩ := stored
    cases again.symm.trans parsed
    obtain ⟨stands, found, number⟩ := parseSize_ok parsed
    have small := narrow value stands last found
    exact port_toInt (by rw [← stored]; exact ranged.1) (by omega)

theorem fromFile_ok {path contents : Text} (accepted : fromFile path (some contents) = .ok config) :
    ∃ lineNumber, (getlines contents).foldlM readLine ({}, 0) = .ok (config, lineNumber) ∧ config.validate = .ok () := by
  rw [fromFile] at accepted
  obtain ⟨⟨read, lineNumber⟩, lines, accepted⟩ := bind_ok accepted
  obtain ⟨_, valid, accepted⟩ := bind_ok accepted
  cases accepted
  exact ⟨lineNumber, lines, valid⟩

/-- The numbers of an accepted file mean what they say exactly when they are read whole and the port is
a number of 32 bits. -/
theorem numbers_meant_iff {path contents : Text} (accepted : fromFile path (some contents) = .ok config) :
    Meant (getlines contents) config ↔ Whole (getlines contents) := by
  obtain ⟨lineNumber, read, valid⟩ := fromFile_ok accepted
  obtain ⟨batch, threads, port⟩ := validate_ranged valid
  have batch := exact_size_iff (fun number => 1 ≤ number ∧ number ≤ 4096) sets_maxBatchSize read (by omega)
  have threads := exact_size_iff (fun number => 1 ≤ number ∧ number ≤ 256) sets_intraOpThreads read (by omega)
  have delay := exact_size_iff (fun _ => True) sets_maxQueueDelayMicroseconds read trivial
  have port := exact_port_iff read port
  constructor
  · intro meant
    obtain ⟨whole, narrow⟩ := port.mp meant.httpPort
    exact ⟨batch.mp meant.maxBatchSize, threads.mp meant.intraOpThreads, whole, delay.mp meant.maxQueueDelayMicroseconds,
      narrow⟩
  · intro whole
    exact ⟨batch.mpr whole.maxBatchSize, threads.mpr whole.intraOpThreads, port.mpr ⟨whole.httpPort, whole.narrow⟩,
      delay.mpr whole.maxQueueDelayMicroseconds⟩

/-- A file whose numbers mean what they say. -/
def plainFile : Text := text "model_path: m\nmax_batch_size: 9\nmax_batch_size: \"+8\" # twice\nhttp_port: 9000\n"

theorem LastWhole.of_absent {key : Text} (absent : lastValue key lines = none) : LastWhole lines key :=
  fun _ last => nomatch absent.symm.trans last

theorem LastWhole.of_last {key value : Text} (last : lastValue key lines = some value) (whole : ReadWhole value) :
    LastWhole lines key :=
  fun _ other => Option.some.inj (last.symm.trans other) ▸ whole

theorem numbers_meant_plain : fromFile [] (some plainFile) =
      .ok { modelPath := text "m", maxBatchSize := 8, httpPort := 9000 } ∧
    Meant (getlines plainFile) { modelPath := text "m", maxBatchSize := 8, httpPort := 9000 } := by
  have accepted : fromFile [] (some plainFile) = .ok { modelPath := text "m", maxBatchSize := 8, httpPort := 9000 } := by
    decide +kernel
  have port : lastValue (text "http_port") (getlines plainFile) = some (text "9000") := by decide +kernel
  refine ⟨accepted, (numbers_meant_iff accepted).mpr ?_⟩
  exact {
    maxBatchSize := .of_last (by decide +kernel : _ = some (text "+8")) ⟨by decide +kernel, by decide +kernel⟩
    intraOpThreads := .of_absent (by decide +kernel)
    httpPort := .of_last port ⟨by decide +kernel, by decide +kernel⟩
    maxQueueDelayMicroseconds := .of_absent (by decide +kernel)
    narrow := by
      intro value number last parsed
      cases port.symm.trans last
      cases (by decide +kernel : stoll (text "9000") = some 9000).symm.trans parsed
      decide }

theorem not_exact {key value : Text} {field parsed : Int} {range : Int → Prop} (last : lastValue key lines = some value)
    (read : stoll value = some parsed) (wrong : ¬ReadWhole value ∨ field ≠ parsed) : ¬Exact lines key field range := by
  intro exactly
  obtain ⟨number, literal, same, _⟩ := exactly value last
  obtain ⟨whole, reads⟩ := read_of_literal literal
  rcases wrong with rest | other
  · exact rest whole
  · exact other (same.trans (reads _ read).symm)

def trailingFile : Text := text "model_path: m\nmax_batch_size: 8abc\n"

def beyondFile : Text := text "model_path: m\nhttp_port: 4294976296\n"

/-- A size with something behind it, and the port 2 ^ 32 + 9000. -/
theorem numbers_not_meant :
    fromFile [] (some trailingFile) = .ok { modelPath := text "m", maxBatchSize := 8 } ∧
    ¬Meant (getlines trailingFile) { modelPath := text "m", maxBatchSize := 8 } ∧
    fromFile [] (some beyondFile) = .ok { modelPath := text "m", httpPort := 9000 } ∧
    ¬Meant (getlines beyondFile) { modelPath := text "m", httpPort := 9000 } := by
  refine ⟨by decide +kernel, fun meant => ?_, by decide +kernel, fun meant => ?_⟩
  · have last : lastValue (text "max_batch_size") (getlines trailingFile) = some (text "8abc") := by decide +kernel
    have read : stoll (text "8abc") = some 8 := by decide +kernel
    have rest : ¬ReadWhole (text "8abc") := fun whole => absurd whole.2 (by decide +kernel)
    exact not_exact last read (Or.inl rest) meant.maxBatchSize
  · have last : lastValue (text "http_port") (getlines beyondFile) = some (text "4294976296") := by decide +kernel
    have read : stoll (text "4294976296") = some 4294976296 := by decide +kernel
    exact not_exact last read (Or.inr (by decide)) meant.httpPort

end Files
end FromScratch.Proofs.ConfigNumbers
