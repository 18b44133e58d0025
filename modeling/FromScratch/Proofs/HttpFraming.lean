import FromScratch.Inference.HttpServer
import Mathlib.Logic.Function.Iterate

/-! What a request is taken for does not depend on how `recv` cuts the stream, except
where the header block is a little too large: then it is refused only if a chunk
ends between the limit and the end of the block. -/

namespace FromScratch.Inference.HttpServer

section Running
variable {first second third : Client × List Text} {wire : List Text} {outcome other : HttpOutcome}

/-- Some statements later. -/
def Leads (first second : Client × List Text) : Prop := ∃ n, step^[n] first = second

theorem Leads.refl (first : Client × List Text) : Leads first first := ⟨0, rfl⟩

theorem Leads.trans (one : Leads first second) (two : Leads second third) : Leads first third := by
  obtain ⟨n, rfl⟩ := one
  obtain ⟨m, rfl⟩ := two
  exact ⟨m + n, Function.iterate_add_apply step m n first⟩

theorem Leads.head (taken : step first = second) (rest : Leads second third) : Leads first third :=
  .trans ⟨1, taken⟩ rest

/-- From here `handleClient` comes to this outcome. -/
def Finishes (first : Client × List Text) (outcome : HttpOutcome) : Prop :=
  ∃ last, Leads first last ∧ last.1.point = .finished outcome

theorem ends_iff : Ends wire outcome ↔ Finishes ({}, wire) outcome := by
  constructor
  · rintro ⟨n, finished⟩
    exact ⟨_, ⟨n, rfl⟩, finished⟩
  · rintro ⟨_, ⟨n, rfl⟩, finished⟩
    exact ⟨n, finished⟩

theorem Leads.finishes (leads : Leads first second) (rest : Finishes second outcome) : Finishes first outcome := by
  obtain ⟨last, more, finished⟩ := rest
  exact ⟨last, leads.trans more, finished⟩

theorem Finishes.head (taken : step first = second) (rest : Finishes second outcome) : Finishes first outcome :=
  Leads.finishes (.head taken (.refl second)) rest

theorem step_finished (finished : first.1.point = .finished outcome) : step first = first := by
  obtain ⟨client, wire⟩ := first
  simp only [step, show client.point = _ from finished]

/-- There is one outcome. -/
theorem Finishes.unique (one : Finishes first outcome) (two : Finishes first other) : outcome = other := by
  obtain ⟨_, ⟨n, rfl⟩, here⟩ := one
  obtain ⟨_, ⟨m, rfl⟩, there⟩ := two
  have stays : ∀ {k more : Nat} {outcome : HttpOutcome}, (step^[k] first).1.point = .finished outcome →
      (step^[more + k] first).1.point = .finished outcome := by
    intro k more outcome finished
    rw [Function.iterate_add_apply, Function.iterate_fixed (step_finished finished)]
    exact finished
  have same := (stays here).symm.trans ((congrArg (fun k => (step^[k] first).1.point) (Nat.add_comm m n)).trans
    (stays there))
  cases same
  rfl

end Running

/-- What a request with these headers is taken for, if this comes after them. -/
def answer (headers rest : Text) : HttpOutcome :=
  let lines := getlines headers
  let (method, others) := word (chomp (lines.headD []))
  let declared := (lines.tail.filterMap declaration).foldlM (fun _ declared => declared) 0
  match declared with
  | .ok contentLength => .routed method (word others).1 (rest.take contentLength)
  | .error response => .refused response

section Parsing
variable {client : Client} {wire : List Text}

theorem trim_finishes (here : client.point = .trim) :
    Finishes (client, wire) (.routed client.method client.path (client.body.take client.contentLength)) := by
  have trimmed : (if client.body.length > client.contentLength then client.body.take client.contentLength else client.body) =
      client.body.take client.contentLength := by
    split
    · rfl
    next small => exact (List.take_of_length_le (Nat.le_of_not_lt small)).symm
  have taken : step (client, wire) = ({ client with body := client.body.take client.contentLength, point := .route },
    wire) := by
    simp only [step, here, trimmed]
  exact .head taken (.head rfl ⟨_, .refl _, rfl⟩)

theorem fill_finishes (here : client.point = .fill) :
    Finishes (client, wire) (.routed client.method client.path
      ((client.body ++ wire.flatten).take client.contentLength)) := by
  induction wire generalizing client with
  | nil =>
    have taken : step (client, []) = ({ client with point := .trim }, []) := by
      simp only [step, here]
      split <;> rfl
    rw [List.flatten_nil, List.append_nil]
    exact .head taken (@trim_finishes { client with point := .trim } [] rfl)
  | cons chunk wire ih =>
    by_cases missing : client.body.length < client.contentLength
    · have taken : step (client, chunk :: wire) = ({ client with body := client.body ++ chunk }, wire) := by
        simp only [step, here, if_pos missing]
      have rest := @ih { client with body := client.body ++ chunk } here
      rw [List.append_assoc] at rest
      exact .head taken rest
    · have taken : step (client, chunk :: wire) = ({ client with point := .trim }, chunk :: wire) := by
        simp only [step, here, if_neg missing]
      rw [List.take_append_of_le_length (Nat.le_of_not_lt missing)]
      exact .head taken (@trim_finishes { client with point := .trim } (chunk :: wire) rfl)

theorem header_finishes (here : client.point = .header) : Finishes (client, wire)
    (match (client.lines.filterMap declaration).foldlM (fun _ declared => declared) client.contentLength with
    | .ok contentLength => .routed client.method client.path ((client.body ++ wire.flatten).take contentLength)
    | .error response => .refused response) := by
  induction lines : client.lines generalizing client with
  | nil =>
    have taken : step (client, wire) = ({ client with point := .fill }, wire) := by simp only [step, here, lines]
    exact .head taken (@fill_finishes { client with point := .fill } wire rfl)
  | cons line rest ih =>
    cases declared : declaration line with
    | none =>
      have taken : step (client, wire) = ({ client with lines := rest }, wire) := by simp only [step, here, lines, declared]
      rw [List.filterMap_cons_none declared]
      exact .head taken (@ih { client with lines := rest } here rfl)
    | some result =>
      rw [List.filterMap_cons_some declared, List.foldlM_cons]
      cases result with
      | ok contentLength =>
        have taken : step (client, wire) = ({ client with lines := rest, contentLength }, wire) := by
          simp only [step, here, lines, declared]
        exact .head taken (@ih { client with lines := rest, contentLength } here rfl)
      | error response =>
        have taken : step (client, wire) =
          ({ client with lines := rest, point := .finished (.refused response) }, wire) := by
          simp only [step, here, lines, declared]
        exact .head taken ⟨_, .refl _, rfl⟩

/-- Once the end of the headers is in the buffer, what has come with them makes no difference. -/
theorem search_finishes {headerEnd : Nat} (here : client.point = .search)
    (found : Lib.find (text "\r\n\r\n") client.buffer = some headerEnd) (undeclared : client.contentLength = 0) :
    Finishes (client, wire) (answer ((client.buffer ++ wire.flatten).take headerEnd)
      ((client.buffer ++ wire.flatten).drop (headerEnd + 4))) := by
  have inside : headerEnd + 4 ≤ client.buffer.length := Lib.find_inside found
  have taken : step (client, wire) = ({ client with
      headers := client.buffer.take headerEnd, body := client.buffer.drop (headerEnd + 4), point := .parse }, wire) := by
    simp only [step, here, found]
  rw [List.take_append_of_le_length (by omega), List.drop_append_of_le_length inside]
  refine .head taken (.head rfl ?_)
  have rest := @header_finishes _ wire (rfl : ({ client with
    headers := client.buffer.take headerEnd, body := client.buffer.drop (headerEnd + 4)
    method := (word (chomp ((getlines (client.buffer.take headerEnd)).headD []))).1
    path := (word (word (chomp ((getlines (client.buffer.take headerEnd)).headD []))).2).1
    lines := (getlines (client.buffer.take headerEnd)).tail, point := .header } : Client).point = .header)
  simp only [undeclared] at rest ⊢
  exact rest

theorem search_refuses (here : client.point = .search) (missing : Lib.find (text "\r\n\r\n") client.buffer = none)
    (large : kMaxHeaderBytes < client.buffer.length) : Finishes (client, wire) (.refused headersTooLarge) := by
  have taken : step (client, wire) = ({ client with point := .finished (.refused headersTooLarge) }, wire) := by
    simp only [step, here, missing, gt_iff_lt, if_pos large]
  exact .head taken ⟨_, .refl _, rfl⟩

theorem search_again (here : client.point = .search) (missing : Lib.find (text "\r\n\r\n") client.buffer = none)
    (small : client.buffer.length ≤ kMaxHeaderBytes) : step (client, wire) = ({ client with point := .receive }, wire) := by
  simp only [step, here, missing, gt_iff_lt, if_neg (Nat.not_lt.mpr small)]

theorem receive_chunk (here : client.point = .receive) (chunk : Text) :
    step (client, chunk :: wire) = ({ client with buffer := client.buffer ++ chunk, point := .search }, wire) := by
  simp only [step, here]

/-- Without an end of the headers the limit decides, however the stream was cut. -/
theorem receive_endless (here : client.point = .receive) (small : client.buffer.length ≤ kMaxHeaderBytes)
    (missing : Lib.find (text "\r\n\r\n") (client.buffer ++ wire.flatten) = none) :
    Finishes (client, wire) (if kMaxHeaderBytes <
      (client.buffer ++ wire.flatten).length then .refused headersTooLarge else .closed) := by
  induction wire generalizing client with
  | nil =>
    rw [List.flatten_nil, List.append_nil, if_neg (Nat.not_lt.mpr small)]
    have taken : step (client, []) = ({ client with point := .finished .closed }, []) := by simp only [step, here]
    exact .head taken ⟨_, .refl _, rfl⟩
  | cons chunk wire ih =>
    rw [List.flatten_cons, ← List.append_assoc] at missing ⊢
    have still : Lib.find (text "\r\n\r\n") (client.buffer ++ chunk) = none := by
      cases found : Lib.find (text "\r\n\r\n") (client.buffer ++ chunk) with
      | none => rfl
      | some headerEnd => cases missing.symm.trans (Lib.find_append found)
    refine .head (receive_chunk here chunk) ?_
    rcases Nat.lt_or_ge kMaxHeaderBytes (client.buffer ++ chunk).length with large | small
    · rw [if_pos (by rw [List.length_append]; omega)]
      exact search_refuses rfl still large
    · exact .head (search_again rfl still small)
        (@ih { client with buffer := client.buffer ++ chunk, point := .receive } rfl small missing)

/-- A chunk ends after the limit and before the headers do. -/
def Overruns (buffer : Text) (wire : List Text) (headerEnd : Nat) : Prop :=
  ∃ k, kMaxHeaderBytes < (buffer ++ (wire.take k).flatten).length ∧ (buffer ++ (wire.take k).flatten).length < headerEnd + 4

theorem overruns_cons {buffer chunk : Text} {headerEnd : Nat} (small : buffer.length ≤ kMaxHeaderBytes) :
    Overruns buffer (chunk :: wire) headerEnd ↔ Overruns (buffer ++ chunk) wire headerEnd := by
  constructor
  · rintro ⟨k, above, below⟩
    cases k with
    | zero =>
      rw [List.take_zero, List.flatten_nil, List.append_nil] at above
      omega
    | succ k =>
      rw [List.take_succ_cons, List.flatten_cons, ← List.append_assoc] at above below
      exact ⟨k, above, below⟩
  · rintro ⟨k, above, below⟩
    refine ⟨k + 1, ?_⟩
    rw [List.take_succ_cons, List.flatten_cons, ← List.append_assoc]
    exact ⟨above, below⟩

/-- The size is looked at where a chunk ends and the headers have not. -/
theorem receive_finishes {headerEnd : Nat} (here : client.point = .receive) (small : client.buffer.length ≤ kMaxHeaderBytes)
    (undeclared : client.contentLength = 0) (missing : Lib.find (text "\r\n\r\n") client.buffer = none)
    (found : Lib.find (text "\r\n\r\n") (client.buffer ++ wire.flatten) = some headerEnd) :
    (Overruns client.buffer wire headerEnd → Finishes (client, wire) (.refused headersTooLarge)) ∧
      (¬Overruns client.buffer wire headerEnd → Finishes (client, wire)
        (answer ((client.buffer ++ wire.flatten).take headerEnd)
        ((client.buffer ++ wire.flatten).drop (headerEnd + 4)))) := by
  induction wire generalizing client with
  | nil =>
    rw [List.flatten_nil, List.append_nil] at found
    cases missing.symm.trans found
  | cons chunk wire ih =>
    rw [overruns_cons small]
    rw [List.flatten_cons, ← List.append_assoc] at found ⊢
    have received := @receive_chunk client wire here chunk
    cases ended : Lib.find (text "\r\n\r\n") (client.buffer ++ chunk) with
    | some first =>
      cases (Lib.find_append ended).symm.trans found
      have inside : headerEnd + 4 ≤ (client.buffer ++ chunk).length := Lib.find_inside ended
      refine ⟨fun ⟨k, _, below⟩ => ?_, fun _ => ?_⟩
      · rw [List.length_append] at below
        omega
      · exact .head received (@search_finishes
          { client with buffer := client.buffer ++ chunk, point := .search } wire _ rfl ended undeclared)
    | none =>
      have later : (client.buffer ++ chunk).length < headerEnd + 4 := by
        by_contra early
        cases ended.symm.trans (Lib.find_of_append found (Nat.not_lt.mp early))
      rcases Nat.lt_or_ge kMaxHeaderBytes (client.buffer ++ chunk).length with large | small
      · refine ⟨fun _ => .head received (search_refuses rfl ended large), fun fits => absurd ⟨0, ?_⟩ fits⟩
        rw [List.take_zero, List.flatten_nil, List.append_nil]
        exact ⟨large, later⟩
      · obtain ⟨refused, answered⟩ := @ih
          { client with buffer := client.buffer ++ chunk, point := .receive } rfl small undeclared ended found
        have again := @search_again { client with buffer := client.buffer ++ chunk, point := .search } wire rfl ended small
        exact ⟨fun large => .head received (.head again (refused large)),
          fun fits => .head received (.head again (answered fits))⟩

end Parsing
section Declarations

/-- Where the declarations end in an error it is the error of one of them. -/
theorem declared_error {declared : List (Except Text Nat)} {contentLength : Nat} {response : Text}
    (failed : declared.foldlM (fun _ declared => declared) contentLength = .error response) :
    .error response ∈ declared := by
  induction declared generalizing contentLength with
  | nil => cases failed
  | cons first rest ih =>
    cases first with
    | error other =>
      cases failed
      exact List.mem_cons_self
    | ok contentLength => exact List.mem_cons_of_mem _ (ih failed)

theorem declaration_error {line response : Text} (failed : declaration line = some (.error response)) :
    response = bodyTooLarge ∨ response = invalidContentLength := by
  simp only [declaration] at failed
  split at failed
  · cases failed
  · split at failed
    · cases failed
    · split at failed
      · cases failed
        exact .inr rfl
      · split at failed
        · cases failed
          exact .inl rfl
        · cases failed

theorem answer_ne (headers rest : Text) : answer headers rest ≠ .refused headersTooLarge := by
  intro refused
  simp only [answer] at refused
  split at refused
  · cases refused
  next response failed =>
    cases refused
    obtain ⟨line, _, declared⟩ := List.mem_filterMap.mp (declared_error failed)
    rcases declaration_error declared with same | same
    · exact absurd same (by decide +kernel)
    · exact absurd same (by decide +kernel)

end Declarations

section Splitting
variable {stream : Text} {wire : List Text} {headerEnd : Nat}

/-- Small chunks do not step over a range as long as they are. -/
theorem exists_between {limit start : Nat} (small : ∀ chunk ∈ wire, chunk.length ≤ kChunkBytes) (low : start ≤ limit)
    (high : limit < start + wire.flatten.length) :
    ∃ k, limit < start + (wire.take k).flatten.length ∧ start + (wire.take k).flatten.length ≤ limit + kChunkBytes := by
  induction wire generalizing start with
  | nil =>
    rw [List.flatten_nil, List.length_nil] at high
    omega
  | cons chunk wire ih =>
    obtain ⟨first, others⟩ := List.forall_mem_cons.mp small
    rw [List.flatten_cons, List.length_append] at high
    rcases Nat.lt_or_ge limit (start + chunk.length) with large | few
    · refine ⟨1, ?_⟩
      rw [List.take_succ_cons, List.take_zero, List.flatten_cons, List.flatten_nil, List.append_nil]
      omega
    · obtain ⟨k, above, below⟩ := @ih (start + chunk.length) others few (by omega)
      refine ⟨k + 1, ?_⟩
      rw [List.take_succ_cons, List.flatten_cons, List.length_append]
      omega

theorem ends_cases (splits : Splits stream wire) (found : Lib.find (text "\r\n\r\n") stream = some headerEnd) :
    (Overruns [] wire headerEnd → Ends wire (.refused headersTooLarge)) ∧
      (¬Overruns [] wire headerEnd → Ends wire (answer (stream.take headerEnd) (stream.drop (headerEnd + 4)))) := by
  obtain ⟨rfl, _⟩ := splits
  rw [ends_iff, ends_iff]
  exact @receive_finishes {} wire headerEnd rfl (Nat.zero_le _) rfl rfl found

/-- Byte by byte. -/
theorem splits_bytes (stream : Text) : Splits stream (stream.map fun byte => [byte]) := by
  refine ⟨?_, fun chunk member => ?_⟩
  · rw [← List.flatMap_def]
    exact List.flatMap_singleton' stream
  · obtain ⟨byte, _, rfl⟩ := List.mem_map.mp member
    exact ⟨List.cons_ne_nil _ _, (by decide : 1 ≤ kChunkBytes)⟩

theorem overruns_bytes (long : headerEnd + 4 ≤ stream.length) (late : kMaxHeaderBytes + 1 < headerEnd + 4) :
    Overruns [] (stream.map fun byte => [byte]) headerEnd := by
  refine ⟨kMaxHeaderBytes + 1, ?_⟩
  have taken : ((stream.map fun byte => [byte]).take (kMaxHeaderBytes + 1)).flatten = stream.take (kMaxHeaderBytes + 1) := by
    rw [← List.map_take]
    exact (splits_bytes _).1
  rw [List.nil_append, taken, List.length_take]
  omega

/-- Three chunks that are full as far as the stream goes, and the rest byte by byte. -/
def coarse (stream : Text) : List Text :=
  stream.take kChunkBytes :: (stream.drop kChunkBytes).take kChunkBytes ::
    (stream.drop (2 * kChunkBytes)).take kChunkBytes ::
    (stream.drop (3 * kChunkBytes)).map fun byte => [byte]

theorem splits_coarse (long : kMaxHeaderBytes < stream.length) : Splits stream (coarse stream) := by
  have sizes : kMaxHeaderBytes = 2 * kChunkBytes := rfl
  have positive : 0 < kChunkBytes := by decide
  refine ⟨?_, ?_⟩
  · rw [coarse, List.flatten_cons, List.flatten_cons, List.flatten_cons, (splits_bytes _).1]
    rw [show 3 * kChunkBytes = 2 * kChunkBytes + kChunkBytes by omega, ← List.drop_drop, List.take_append_drop,
      show 2 * kChunkBytes = kChunkBytes + kChunkBytes by omega, ← List.drop_drop, List.take_append_drop,
      List.take_append_drop]
  · have part : ∀ n, n < stream.length → (stream.drop n).take kChunkBytes ≠ [] ∧
      ((stream.drop n).take kChunkBytes).length ≤ kChunkBytes := by
      intro n below
      refine ⟨List.ne_nil_of_length_pos ?_, List.length_take_le _ _⟩
      rw [List.length_take, List.length_drop]
      omega
    refine List.forall_mem_cons.mpr ⟨?_,
      List.forall_mem_cons.mpr ⟨part _ (by omega), List.forall_mem_cons.mpr ⟨part _ (by omega),
      (splits_bytes _).2⟩⟩⟩
    have first := part 0 (by omega)
    rwa [List.drop_zero] at first

theorem not_overruns_coarse (long : headerEnd + 4 ≤ stream.length) (late : kMaxHeaderBytes + 1 < headerEnd + 4)
    (near : headerEnd + 4 ≤ kMaxHeaderBytes + kChunkBytes) : ¬Overruns [] (coarse stream) headerEnd := by
  have sizes : kMaxHeaderBytes = 2 * kChunkBytes := rfl
  rintro ⟨k, above, below⟩
  rw [List.nil_append] at above below
  match k with
  | 0 =>
    rw [List.take_zero, List.flatten_nil, List.length_nil] at above
    omega
  | 1 =>
    simp only [coarse, List.take_succ_cons, List.take_zero, List.flatten_cons, List.flatten_nil, List.length_append,
      List.length_take,
      List.length_nil] at above
    omega
  | 2 =>
    simp only [coarse, List.take_succ_cons, List.take_zero, List.flatten_cons, List.flatten_nil, List.length_append,
      List.length_take,
      List.length_nil, List.length_drop] at above
    omega
  | k + 3 =>
    simp only [coarse, List.take_succ_cons, List.flatten_cons, List.length_append, List.length_take,
      List.length_drop] at below
    omega

/-- `handleClient` ends, and in the same way however `recv` cuts the stream. -/
def Framed (stream : Text) : Prop := ∃ outcome, ∀ wire, Splits stream wire → Ends wire outcome

theorem Framed.clear (framed : Framed stream) (found : Lib.find (text "\r\n\r\n") stream = some headerEnd) :
    headerEnd + 4 ≤ kMaxHeaderBytes + 1 ∨ kMaxHeaderBytes + kChunkBytes < headerEnd + 4 := by
  obtain ⟨outcome, always⟩ := framed
  by_contra middle
  obtain ⟨late, near⟩ := not_or.mp middle
  have long : headerEnd + 4 ≤ stream.length := Lib.find_inside found
  have bytes := splits_bytes stream
  have chunks := @splits_coarse stream (by omega)
  have refused := (ends_cases bytes found).1 (overruns_bytes long (by omega))
  have answered := (ends_cases chunks found).2 (not_overruns_coarse long (by omega) (by omega))
  have one := (ends_iff.mp refused).unique (ends_iff.mp (always _ bytes))
  have other := (ends_iff.mp answered).unique (ends_iff.mp (always _ chunks))
  exact answer_ne _ _ (other.trans one.symm)

/-- Streams whose headers end a little after the limit are framed one way or another, all others one way. -/
theorem framed_iff (stream : Text) : Framed stream ↔ ∀ headerEnd, Lib.find (text "\r\n\r\n") stream = some headerEnd →
    headerEnd + 4 ≤ kMaxHeaderBytes + 1 ∨ kMaxHeaderBytes + kChunkBytes < headerEnd + 4 := by
  refine ⟨fun framed headerEnd => framed.clear, fun clear => ?_⟩
  cases found : Lib.find (text "\r\n\r\n") stream with
  | none =>
    refine ⟨if kMaxHeaderBytes < stream.length then .refused headersTooLarge else .closed, fun wire splits => ?_⟩
    obtain ⟨rfl, _⟩ := splits
    rw [ends_iff]
    exact @receive_endless {} wire rfl (Nat.zero_le _) found
  | some headerEnd =>
    have long : headerEnd + 4 ≤ stream.length := Lib.find_inside found
    rcases clear headerEnd found with early | late
    · refine ⟨_, fun wire splits => (ends_cases splits found).2 fun ⟨k, above, below⟩ => ?_⟩
      omega
    · refine ⟨_, fun wire splits => (ends_cases splits found).1 ?_⟩
      obtain ⟨rfl, small⟩ := splits
      obtain ⟨k, above, below⟩ := @exists_between wire kMaxHeaderBytes 0 (fun chunk member => (small chunk member).2)
        (Nat.zero_le _)
        (by omega)
      refine ⟨k, ?_⟩
      rw [List.nil_append]
      omega

/-- A request whose headers end two bytes after the limit. -/
def longRequest : Text := text "GET /" ++ List.replicate 8176 97 ++ text " HTTP/1.1" ++ text "\r\n\r\n"

theorem longRequest_not_framed : ¬Framed longRequest := by
  intro framed
  have length : (text "GET /" ++ List.replicate 8176 97 ++ text " HTTP/1.1").length = 8190 := by
    rw [List.length_append, List.length_append, List.length_replicate]
    rfl
  have found : Lib.find (text "\r\n\r\n") longRequest = some 8190 := by
    rw [longRequest, Lib.find_skip (by decide +kernel), length]
    · rfl
    · intro byte member
      rw [show (text "\r\n\r\n").head? = some 13 from rfl, ne_eq, Option.some.injEq]
      rintro rfl
      rw [List.mem_append, List.mem_append, List.mem_replicate] at member
      exact absurd member (by decide +kernel)
  have clear := framed.clear found
  rw [kMaxHeaderBytes, kChunkBytes] at clear
  omega

end Splitting
end FromScratch.Inference.HttpServer
