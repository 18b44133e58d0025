import FromScratch.Inference.Gemm
import FromScratch.Inference.HttpServer
import Mathlib.Data.List.DropRight

/-! The configuration file: `key: value` lines, read one after the other, and the
check of what they left. -/

namespace FromScratch.Inference

/-- `gemmStrategyFromString`. -/
def gemmStrategyFromString (name : Text) : Except Fault GemmStrategy :=
  if name = text "naive" then .ok .naive
  else if name = text "reordered" then .ok .reordered
  else if name = text "tiled" then .ok .tiled
  else if name = text "packed" then .ok .packed
  else if name = text "auto" then .ok .auto
  else .error (.invalidArgument (text "Unknown gemm strategy: " ++ name))

namespace Config

/-- `SessionConfig`, with its defaults. -/
structure ModelConfig where
  name : Text := text "model"
  modelPath : Text := []
  executionProvider : Text := text "cpu"
  gemmStrategy : Text := text "auto"
  maxBatchSize : UInt64 := 128
  intraOpThreads : UInt64 := 1
  interOpParallel : Bool := false
  graphOptimization : Bool := true
  memoryPool : Bool := true
  profiling : Bool := false
  maxQueueDelayMicroseconds : UInt64 := 2000
  httpAddress : Text := text "127.0.0.1"
  httpPort : Int32 := 8080
deriving DecidableEq

/-- What `trim` takes off: `" \t\r\n"`. -/
def blank (byte : UInt8) : Bool := byte = 32 || byte = 9 || byte = 13 || byte = 10

def trim (value : Text) : Text := (value.dropWhile blank).rdropWhile blank

def parseBool (value key : Text) : Except Fault Bool :=
  if value = text "true" ∨ value = text "1" ∨ value = text "yes" then .ok true
  else if value = text "false" ∨ value = text "0" ∨ value = text "no" then .ok false
  else .error (.invalidArgument (text "Config key '" ++ key ++ text "' expects a boolean, got '" ++ value ++ text "'"))

/-- Whatever `stoll` throws is caught. -/
def parseSize (value key : Text) : Except Fault UInt64 :=
  match HttpServer.stoll value with
  | some parsed =>
    if parsed < 0 then .error (refused value key) else .ok (UInt64.ofNat parsed.toNat)
  | none => .error (refused value key)
where
  refused (value key : Text) : Fault := .invalidArgument
    (text "Config key '" ++ key ++ text "' expects a non-negative integer, got '" ++ value ++ text "'")

/-- A line without its comment and the blanks around it. -/
def content (line : Text) : Text := trim (line.takeWhile (· ≠ 35))

def unquote (value : Text) : Text :=
  if 2 ≤ value.length ∧ value.head? = some 34 ∧ value.getLast? = some 34 then value.tail.dropLast else value

/-- The key and the value of a line that has a colon. -/
def keyValue (line : Text) : Option (Text × Text) :=
  let key := line.takeWhile (· ≠ 58)
  if key = line then none else some (trim key, unquote (trim (line.drop (key.length + 1))))

def assign (config : ModelConfig) (lineNumber : Nat) (key value : Text) : Except Fault ModelConfig :=
  if key = text "name" then .ok { config with name := value }
  else if key = text "model_path" then .ok { config with modelPath := value }
  else if key = text "execution_provider" then .ok { config with executionProvider := value }
  else if key = text "gemm_strategy" then .ok { config with gemmStrategy := value }
  else if key = text "max_batch_size" then do return { config with maxBatchSize := ← parseSize value key }
  else if key = text "intra_op_threads" then do return { config with intraOpThreads := ← parseSize value key }
  else if key = text "inter_op_parallel" then do return { config with interOpParallel := ← parseBool value key }
  else if key = text "graph_optimization" then do return { config with graphOptimization := ← parseBool value key }
  else if key = text "memory_pool" then do return { config with memoryPool := ← parseBool value key }
  else if key = text "profiling" then do return { config with profiling := ← parseBool value key }
  else if key = text "max_queue_delay_microseconds" then do
    return { config with maxQueueDelayMicroseconds := ← parseSize value key }
  else if key = text "http_address" then .ok { config with httpAddress := value }
  else if key = text "http_port" then do return { config with httpPort := (← parseSize value key).toUInt32.toInt32 }
  else .error (.invalidArgument
    (text "Unknown config key '" ++ key ++ text "' at line " ++ text (toString lineNumber)))

/-- One turn of the loop of `fromFile`. -/
def readLine (state : ModelConfig × Nat) (line : Text) : Except Fault (ModelConfig × Nat) :=
  let lineNumber := state.2 + 1
  let line := content line
  if line = [] then .ok (state.1, lineNumber)
  else match keyValue line with
    | none => .error (.invalidArgument
        (text "Malformed config at line " ++ text (toString lineNumber) ++ text ": " ++ line))
    | some (key, value) => do return (← assign state.1 lineNumber key value, lineNumber)

def ModelConfig.validate (config : ModelConfig) : Except Fault Unit :=
  if config.modelPath = [] then .error (.invalidArgument (text "Config must set model_path"))
  else if config.maxBatchSize = 0 ∨ config.maxBatchSize > 4096 then
    .error (.invalidArgument (text "max_batch_size must be between 1 and 4096"))
  else if config.intraOpThreads = 0 ∨ config.intraOpThreads > 256 then
    .error (.invalidArgument (text "intra_op_threads must be between 1 and 256"))
  else if config.httpPort ≤ 0 ∨ config.httpPort > 65535 then
    .error (.invalidArgument (text "http_port must be between 1 and 65535"))
  else do
    let _ ← gemmStrategyFromString config.gemmStrategy
    if config.executionProvider = text "cpu" then .ok ()
    else .error (.invalidArgument (text "Unsupported execution_provider: " ++ config.executionProvider))

/-- The contents of the file, unless it cannot be opened. -/
def fromFile (path : Text) (file : Option Text) : Except Fault ModelConfig :=
  match file with
  | none => .error (.runtimeError (text "Failed to open config file: " ++ path))
  | some contents => do
    let (config, _) ← (HttpServer.getlines contents).foldlM readLine ({}, 0)
    config.validate
    return config

end Config
end FromScratch.Inference
