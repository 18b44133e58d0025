import FromScratch.Proofs.HttpFraming

/-! How much of a request is kept in memory. The bounds hold between any two statements,
whatever the client sends. -/

namespace FromScratch.Inference.HttpServer

variable {client : Client} {wire : List Text}

/-- The last of the lines that declares a length has declared this one, or none has and it is zero. -/
def Declares (lines : List Text) (contentLength : Nat) : Prop :=
  (lines.filterMap declaration).getLast?.getD (.ok 0) = .ok contentLength

theorem declares_none {lines : List Text} {line : Text} {contentLength : Nat} (declares : Declares lines contentLength)
    (silent : declaration line = none) : Declares (lines ++ [line]) contentLength := by
  rw [Declares, List.filterMap_append, List.filterMap_cons_none silent, List.filterMap_nil, List.append_nil]
  exact declares

theorem declares_some {lines : List Text} {line : Text} {contentLength : Nat}
    (declared : declaration line = some (.ok contentLength)) :
    Declares (lines ++ [line]) contentLength := by
  rw [Declares, List.filterMap_append, List.filterMap_cons_some declared, List.filterMap_nil, List.getLast?_concat]
  rfl

/-- A length that is accepted is no larger than the largest body. -/
theorem declaration_le {line : Text} {contentLength : Nat} (declared : declaration line = some (.ok contentLength)) :
    contentLength ≤ kMaxBodyBytes := by
  simp only [declaration] at declared
  split at declared
  · cases declared
  · split at declared
    · cases declared
    · split at declared
      · cases declared
      · split at declared
        · cases declared
        next parsed _ fits =>
          obtain ⟨positive, fits⟩ := not_or.mp fits
          cases declared
          omega

def kMaxBuffered : Nat := kMaxHeaderBytes + kChunkBytes

/-- What is known at each point. -/
def AtPoint (client : Client) : ClientPoint → Prop
  | .receive => client.buffer.length ≤ kMaxHeaderBytes ∧ client.body = [] ∧ client.contentLength = 0
  | .search => client.body = [] ∧ client.contentLength = 0
  | .parse => client.body.length ≤ kMaxBuffered ∧ client.contentLength = 0
  | .header => client.body.length ≤ kMaxBuffered ∧
    ∃ read, (getlines client.headers).tail = read ++ client.lines ∧ Declares read client.contentLength
  | .fill | .trim => client.body.length ≤ max (client.contentLength + kChunkBytes) kMaxBuffered ∧
    Declares (getlines client.headers).tail client.contentLength
  | .route => client.body.length ≤ client.contentLength ∧ Declares (getlines client.headers).tail client.contentLength
  | .finished (.routed _ _ body) => body = client.body ∧ client.body.length ≤ client.contentLength ∧
    Declares (getlines client.headers).tail client.contentLength
  | .finished _ => client.body.length ≤ max (client.contentLength + kChunkBytes) kMaxBuffered

structure Within (client : Client) : Prop where
  buffer : client.buffer.length ≤ kMaxBuffered
  contentLength : client.contentLength ≤ kMaxBodyBytes
  atPoint : AtPoint client client.point

theorem Within.step (within : Within client) (small : ∀ chunk ∈ wire, chunk.length ≤ kChunkBytes) :
    Within (step (client, wire)).1 ∧ ∀ chunk ∈ (step (client, wire)).2, chunk.length ≤ kChunkBytes := by
  obtain ⟨buffer, contentLength, known⟩ := within
  cases here : client.point with
  | receive =>
    simp only [here, AtPoint] at known
    obtain ⟨few, bodiless, undeclared⟩ := known
    cases wire with
    | nil =>
      simp only [HttpServer.step, here]
      refine ⟨⟨buffer, contentLength, ?_⟩, small⟩
      simp only [AtPoint, bodiless, List.length_nil, Nat.zero_le]
    | cons chunk wire =>
      obtain ⟨first, others⟩ := List.forall_mem_cons.mp small
      simp only [HttpServer.step, here]
      refine ⟨⟨?_, contentLength, bodiless, undeclared⟩, others⟩
      rw [List.length_append]
      exact Nat.add_le_add few first
  | search =>
    simp only [here, AtPoint] at known
    obtain ⟨bodiless, undeclared⟩ := known
    cases found : Lib.find (text "\r\n\r\n") client.buffer with
    | some headerEnd =>
      simp only [HttpServer.step, here, found]
      refine ⟨⟨buffer, contentLength, ?_, undeclared⟩, small⟩
      exact (List.length_drop ▸ Nat.sub_le _ _ : (client.buffer.drop (headerEnd + 4)).length ≤ _).trans buffer
    | none =>
      by_cases large : client.buffer.length > kMaxHeaderBytes
      · simp only [HttpServer.step, here, found, if_pos large]
        refine ⟨⟨buffer, contentLength, ?_⟩, small⟩
        simp only [AtPoint, bodiless, List.length_nil, Nat.zero_le]
      · simp only [HttpServer.step, here, found, if_neg large]
        exact ⟨⟨buffer, contentLength, Nat.le_of_not_gt large, bodiless, undeclared⟩, small⟩
  | parse =>
    simp only [here, AtPoint] at known
    obtain ⟨few, undeclared⟩ := known
    simp only [HttpServer.step, here]
    refine ⟨⟨buffer, contentLength, few, [], rfl, ?_⟩, small⟩
    simp only [undeclared]
    rfl
  | header =>
    simp only [here, AtPoint] at known
    obtain ⟨few, read, lines, declares⟩ := known
    cases left : client.lines with
    | nil =>
      simp only [HttpServer.step, here, left]
      rw [left, List.append_nil] at lines
      exact ⟨⟨buffer, contentLength, few.trans (Nat.le_max_right _ _), lines ▸ declares⟩, small⟩
    | cons line rest =>
      rw [left, List.append_cons] at lines
      cases declared : declaration line with
      | none =>
        simp only [HttpServer.step, here, left, declared]
        exact ⟨⟨buffer, contentLength, few, _, lines, declares_none declares declared⟩, small⟩
      | some result =>
        cases result with
        | ok length =>
          simp only [HttpServer.step, here, left, declared]
          exact ⟨⟨buffer, declaration_le declared, few, _, lines, declares_some declared⟩, small⟩
        | error response =>
          simp only [HttpServer.step, here, left, declared]
          exact ⟨⟨buffer, contentLength, few.trans (Nat.le_max_right _ _)⟩, small⟩
  | fill =>
    simp only [here, AtPoint] at known
    obtain ⟨few, declares⟩ := known
    by_cases missing : client.body.length < client.contentLength
    · cases wire with
      | nil =>
        simp only [HttpServer.step, here, if_pos missing]
        exact ⟨⟨buffer, contentLength, few, declares⟩, small⟩
      | cons chunk wire =>
        obtain ⟨first, others⟩ := List.forall_mem_cons.mp small
        simp only [HttpServer.step, here, if_pos missing]
        refine ⟨⟨buffer, contentLength, Nat.le_trans ?_ (Nat.le_max_left _ _), declares⟩, others⟩
        rw [List.length_append]
        exact Nat.add_le_add missing.le first
    · simp only [HttpServer.step, here, if_neg missing]
      exact ⟨⟨buffer, contentLength, few, declares⟩, small⟩
  | trim =>
    simp only [here, AtPoint] at known
    obtain ⟨few, declares⟩ := known
    simp only [HttpServer.step, here]
    refine ⟨⟨buffer, contentLength, ?_, declares⟩, small⟩
    simp only
    split
    · exact List.length_take_le _ _
    next short => exact Nat.le_of_not_gt short
  | route =>
    simp only [here, AtPoint] at known
    simp only [HttpServer.step, here]
    exact ⟨⟨buffer, contentLength, rfl, known⟩, small⟩
  | finished outcome =>
    have stays : HttpServer.step (client, wire) = (client, wire) := @step_finished (client, wire) _ here
    rw [stays]
    exact ⟨⟨buffer, contentLength, known⟩, small⟩

theorem within_run (small : ∀ chunk ∈ wire, chunk.length ≤ kChunkBytes) (n : Nat) :
    Within (step^[n] ({}, wire)).1 ∧ ∀ chunk ∈ (step^[n] ({}, wire)).2, chunk.length ≤ kChunkBytes := by
  induction n with
  | zero => exact ⟨⟨Nat.zero_le _, Nat.zero_le _, Nat.zero_le _, rfl, rfl⟩, small⟩
  | succ n ih =>
    rw [Function.iterate_succ_apply']
    exact ih.1.step ih.2

/-- The memory a request takes, and what is handed to `handleInfer`. -/
structure Bounded (client : Client) : Prop where
  buffer : client.buffer.length ≤ kMaxHeaderBytes + kChunkBytes
  contentLength : client.contentLength ≤ kMaxBodyBytes
  body : client.body.length ≤ max (client.contentLength + kChunkBytes) (kMaxHeaderBytes + kChunkBytes)
  infer : ∀ method path sent body, client.point = .finished (.routed method path sent) → dispatch method path sent =
    .infer body →
    body.length ≤ kMaxBodyBytes ∧ ∃ declared, Declares (getlines client.headers).tail declared ∧ body.length ≤ declared

theorem dispatch_infer {method path sent body : Text} (infers : dispatch method path sent = .infer body) : body = sent := by
  rw [dispatch] at infers
  split at infers
  · cases infers
  · split at infers
    · cases infers
    · split at infers
      · cases infers
        rfl
      · cases infers

theorem Within.body (within : Within client) :
    client.body.length ≤ max (client.contentLength + kChunkBytes) (kMaxHeaderBytes + kChunkBytes) := by
  have known := within.atPoint
  have trimmed : client.body.length ≤ client.contentLength →
      client.body.length ≤ max (client.contentLength + kChunkBytes) (kMaxHeaderBytes + kChunkBytes) :=
    fun few => (few.trans (Nat.le_add_right _ _)).trans (Nat.le_max_left _ _)
  cases here : client.point with
  | receive =>
    rw [here] at known
    exact trimmed (by rw [known.2.1]; exact Nat.zero_le _)
  | search =>
    rw [here] at known
    exact trimmed (by rw [known.1]; exact Nat.zero_le _)
  | parse =>
    rw [here] at known
    exact known.1.trans (Nat.le_max_right _ _)
  | header =>
    rw [here] at known
    exact known.1.trans (Nat.le_max_right _ _)
  | fill =>
    rw [here] at known
    exact known.1
  | trim =>
    rw [here] at known
    exact known.1
  | route =>
    rw [here] at known
    exact trimmed known.1
  | finished outcome =>
    rw [here] at known
    cases outcome with
    | closed => exact known
    | refused => exact known
    | routed => exact trimmed known.2.1

/-- Between any two statements, whatever chunks have come. -/
theorem handleClient_bounded (small : ∀ chunk ∈ wire, chunk.length ≤ kChunkBytes) (n : Nat) :
    Bounded (step^[n] ({}, wire)).1 := by
  obtain ⟨within, _⟩ := within_run small n
  refine ⟨within.buffer, within.contentLength, within.body, fun method path sent body finished infers => ?_⟩
  cases dispatch_infer infers
  have known := within.atPoint
  rw [finished] at known
  obtain ⟨rfl, few, declares⟩ := known
  exact ⟨few.trans within.contentLength, _, declares, few⟩

def shortRequest : Text := text "POST /infer HTTP/1.1\r\nContent-Length: 1\r\n\r\nab"

theorem handleClient_bounded_short : (step^[8] ({}, [shortRequest])).1.point =
    .finished (.routed (text "POST") (text "/infer") (text "a")) ∧ Bounded (step^[8] ({}, [shortRequest])).1 :=
  ⟨by decide +kernel, handleClient_bounded (by decide +kernel) 8⟩

end FromScratch.Inference.HttpServer
