import FromScratch.Inference.Tensor
import FromScratch.Lib.Search

/-! The framing of a request: what `handleClient` does with the chunks it receives.
The connection ends after the last chunk. -/

namespace FromScratch.Inference

/-- What becomes of a connection: it is closed without a word, with an error, or the
request goes to its route. -/
inductive HttpOutcome where
  | closed
  | refused (response : Text)
  | routed (method path body : Text)
deriving DecidableEq

inductive Route where
  | health
  | metrics
  | infer (body : Text)
  | unknown
deriving DecidableEq

namespace HttpServer

def kMaxHeaderBytes : Nat := 8 * 1024
def kMaxBodyBytes : Nat := 1 * 1024 * 1024

/-- `sizeof(chunk)`. -/
def kChunkBytes : Nat := 4096

def httpResponse (status contentType body : Text) : Text :=
  text "HTTP/1.1 " ++ status ++ text "\r\n" ++ text "Content-Type: " ++ contentType ++ text "\r\n" ++
    text "Content-Length: " ++
    text (toString body.length) ++ text "\r\n" ++ text "Connection: close\r\n\r\n" ++ body

def errorResponse (status message : Text) : Text :=
  httpResponse status (text "application/json") (text "\x7b\"error\":\"" ++ message ++ text "\"\x7d")

def headersTooLarge : Text := errorResponse (text "431 Request Header Fields Too Large") (text "headers too large")
def bodyTooLarge : Text := errorResponse (text "413 Payload Too Large") (text "body too large")
def invalidContentLength : Text := errorResponse (text "400 Bad Request") (text "invalid content-length")

/-- `std::isspace` in the "C" locale. -/
def isSpace (byte : UInt8) : Bool := byte = 32 || (9 ≤ byte && byte ≤ 13)

def isDigit (byte : UInt8) : Bool := 48 ≤ byte && byte ≤ 57

def toLower (byte : UInt8) : UInt8 := if 65 ≤ byte ∧ byte ≤ 90 then byte + 32 else byte

/-- The lines `std::getline` gives. Nothing after the last newline is no line. -/
def getlines (stream : Text) : List Text :=
  let parts := stream.splitOn 10
  if parts.getLastD [] = [] then parts.dropLast else parts

/-- Without the `\r` at its end. -/
def chomp (line : Text) : Text := if line.getLast? = some 13 then line.dropLast else line

/-- `stream >> word`, and what is left. -/
def word (stream : Text) : Text × Text :=
  let rest := stream.dropWhile isSpace
  (rest.takeWhile fun byte => !isSpace byte, rest.dropWhile fun byte => !isSpace byte)

/-- `std::stoll`, which throws if there is no number and if it is none of 64 bits. -/
def stoll (stream : Text) : Option Int :=
  let rest := stream.dropWhile isSpace
  let negative := rest.head? = some 45
  let digits := (if negative ∨ rest.head? = some 43 then rest.tail else rest).takeWhile isDigit
  let value : Int := digits.foldl (fun value digit => value * 10 + (digit.toNat - 48)) 0
  let parsed := if negative then -value else value
  if digits = [] then none
  else if -2 ^ 63 ≤ parsed ∧ parsed < 2 ^ 63 then some parsed else none

/-- What a header line says about the body, if it does: its length, or the error to answer. -/
def declaration (line : Text) : Option (Except Text Nat) :=
  let line := chomp line
  let key := line.takeWhile (· ≠ 58)
  if key = line then none
  else if key.map toLower ≠ text "content-length" then none
  else match stoll (line.drop (key.length + 1)) with
    | none => some (.error invalidContentLength)
    | some parsed => some (if parsed < 0 ∨ kMaxBodyBytes < parsed then .error bodyTooLarge else .ok parsed.toNat)

/-- The statements between which `handleClient` is. -/
inductive ClientPoint where
  /-- At the head of the first loop. -/
  | receive
  /-- After `buffer.append`. -/
  | search
  | parse
  /-- At the head of the loop over the header lines. -/
  | header
  /-- At the head of the last loop. -/
  | fill
  | trim
  | route
  | finished (outcome : HttpOutcome)
deriving DecidableEq

structure Client where
  point : ClientPoint := .receive
  buffer : Text := []
  headers : Text := []
  body : Text := []
  method : Text := []
  path : Text := []
  /-- The header lines that are still to be read. -/
  lines : List Text := []
  contentLength : Nat := 0

/-- One statement. What is left of the chunks is what `recv` has still to return. -/
def step : Client × List Text → Client × List Text
  | (client, wire) =>
    match client.point with
    | .receive =>
      match wire with
      | [] => ({ client with point := .finished .closed }, [])
      | chunk :: wire => ({ client with buffer := client.buffer ++ chunk, point := .search }, wire)
    | .search =>
      match Lib.find (text "\r\n\r\n") client.buffer with
      | some headerEnd =>
        ({ client with
            headers := client.buffer.take headerEnd
            body := client.buffer.drop (headerEnd + 4)
            point := .parse }, wire)
      | none =>
        if client.buffer.length > kMaxHeaderBytes then ({ client with point := .finished (.refused headersTooLarge) }, wire)
        else ({ client with point := .receive }, wire)
    | .parse =>
      let lines := getlines client.headers
      let (method, rest) := word (chomp (lines.headD []))
      ({ client with method, path := (word rest).1, lines := lines.tail, point := .header }, wire)
    | .header =>
      match client.lines with
      | [] => ({ client with point := .fill }, wire)
      | line :: lines =>
        match declaration line with
        | none => ({ client with lines }, wire)
        | some (.ok contentLength) => ({ client with lines, contentLength }, wire)
        | some (.error response) => ({ client with lines, point := .finished (.refused response) }, wire)
    | .fill =>
      if client.body.length < client.contentLength then
        match wire with
        | [] => ({ client with point := .trim }, [])
        | chunk :: wire => ({ client with body := client.body ++ chunk }, wire)
      else ({ client with point := .trim }, wire)
    | .trim =>
      let body := if client.body.length > client.contentLength then client.body.take client.contentLength else client.body
      ({ client with body, point := .route }, wire)
    | .route => ({ client with point := .finished (.routed client.method client.path client.body) }, wire)
    | .finished _ => (client, wire)

/-- What `handleClient` comes to if `recv` returns these chunks. -/
def Ends (wire : List Text) (outcome : HttpOutcome) : Prop := ∃ n, (step^[n] ({}, wire)).1.point = .finished outcome

/-- The chunks `recv` may make of a stream. -/
def Splits (stream : Text) (wire : List Text) : Prop :=
  wire.flatten = stream ∧ ∀ chunk ∈ wire, chunk ≠ [] ∧ chunk.length ≤ kChunkBytes

/-- Who answers a request. -/
def dispatch (method path body : Text) : Route :=
  if method = text "GET" ∧ path = text "/health" then .health
  else if method = text "GET" ∧ path = text "/metrics" then .metrics
  else if method = text "POST" ∧ path = text "/infer" then .infer body
  else .unknown

end HttpServer
end FromScratch.Inference
