import FromScratch.MapReduce.Storage

/-! A buffered writer under any rules. The bytes it has been given are the file's
followed by the buffer's, until an error that it never forgets. -/

namespace FromScratch.Proofs.WriterRules
open FromScratch.MapReduce Lib Program

/-- A file that takes what is sent to it, or refuses and is `excused`; the
assertion speaks of all that it has taken. -/
structure Sink (rules : Rules World Request Reply) (excuse : Prop) (temp : Path) (taken : GoString → World → Prop) :
    Prop where
  stable : ∀ content, Stable rules (taken content)
  write : ∀ content bytes, Triple rules (taken content) (call (.write temp bytes))
    (Ends (fun _ => excuse) fun _ => taken (content ++ bytes))
  quiet : ∀ content w w', w'.files = w.files → w'.notes = w.notes → taken content w → taken content w'
  count : ∀ (name : String) (delta : Int64) (fact : World → Prop), Stable rules fact →
    (∀ w w', w'.files = w.files → w'.notes = w.notes → fact w → fact w') →
    Triple rules fact (call (.count name delta)) (Ends (fun _ => excuse) fun _ => fact)

/-- The writer has been given `total` so far: the file has taken all of it but what
is buffered, or an error is on record. -/
structure Given (excuse : Prop) (temp : Path) (taken : GoString → World → Prop) (total : GoString) (writer : Writer)
    (w : World) : Prop where
  file : writer.file = temp
  given : (writer.err = none ∧ ∃ content, content ++ writer.buffered = total ∧ taken content w) ∨
    writer.err.isSome = true ∧ excuse

variable {rules : Rules World Request Reply} {excuse : Prop} {temp : Path} {taken : GoString → World → Prop}

private theorem always {fact : Prop} : Stable rules fun _ => fact := fun _ _ _ holds => holds

theorem Given.stable (sink : Sink rules excuse temp taken) {total : GoString} {writer : Writer} :
    Stable rules (Given excuse temp taken total writer) := by
  rintro w w' moves ⟨file, ⟨healthy, content, same, holds⟩ | failed⟩
  · exact ⟨file, Or.inl ⟨healthy, content, same, sink.stable content w w' moves holds⟩⟩
  · exact ⟨file, Or.inr failed⟩

variable {total : GoString} {error : Err → Prop} (sink : Sink rules excuse temp taken)
include sink

theorem send_given (writer : Writer) {content : GoString} (bytes : GoString) (healthy : writer.err = none)
    (file : writer.file = temp) (empty : writer.buffered = []) (same : content ++ bytes = total) :
    Triple rules (taken content) (writer.send bytes)
      (Ends error fun sent w => sent.buffered = [] ∧ Given excuse temp taken total sent w) := by
  subst file
  refine .bind (sink.write content bytes).outcome fun reply => ?_
  cases reply with
  | ok =>
    refine .pure (sink.stable _) fun w holds => ⟨empty, rfl, Or.inl ⟨healthy, content ++ bytes, ?_, holds⟩⟩
    rw [empty, List.append_nil, same]
  | error e =>
    refine .pure (fun _ _ _ holds => holds) fun w excused => ⟨empty, rfl, Or.inr ⟨rfl, excused⟩⟩

theorem put_given (writer : Writer) (bytes : GoString) :
    Triple rules (Given excuse temp taken total writer) (writer.put bytes)
      (Ends error (Given excuse temp taken (total ++ bytes))) := by
  rintro w ⟨file, ⟨healthy, content, rfl, holds⟩ | ⟨failed, excused⟩⟩
  · have pure (buffered : GoString) (same : content ++ buffered = content ++ writer.buffered ++ bytes) :
        Triple rules (taken content) (Pure.pure { writer with buffered := buffered } : Attempt Writer)
          (Ends error (Given excuse temp taken (content ++ writer.buffered ++ bytes))) :=
      .pure (sink.stable _) fun w holds => ⟨file, Or.inl ⟨healthy, content, same, holds⟩⟩
    unfold Writer.put
    rw [if_neg (by simp [healthy])]
    split
    next => exact pure (writer.buffered ++ bytes) (List.append_assoc ..).symm w holds
    next =>
      split
      next empty =>
        refine (Triple.post_of (send_given sink writer bytes healthy file empty ?_) fun _ _ sent => sent.2) w holds
        rw [empty, List.append_nil]
      next =>
        -- The buffer is filled up and sent, and the rest starts a new one.
        refine Triple.bind (send_given sink { writer with buffered := [] } _ healthy file rfl (List.append_assoc ..).symm)
          (fun sent => ?_) w holds
        have whole : content ++ writer.buffered ++ bytes.take (Writer.bufferSize - writer.buffered.length) ++
            bytes.drop (Writer.bufferSize - writer.buffered.length) = content ++ writer.buffered ++ bytes := by
          simp
        rintro w ⟨empty, sent_file, ⟨sent_healthy, sent_content, same, holds⟩ | ⟨failed, excused⟩⟩
        · rw [empty, List.append_nil] at same
          rw [← same] at whole
          rw [if_neg (by simp [sent_healthy])]
          split
          next =>
            exact Triple.pure (sink.stable _)
              (fun w holds => ⟨sent_file, Or.inl ⟨sent_healthy, sent_content, whole, holds⟩⟩) w holds
          next =>
            exact Triple.post_of (send_given sink sent _ sent_healthy sent_file empty whole)
              (fun _ _ sent => sent.2) w holds
        · rw [if_pos failed]
          exact Triple.pure always (fun w excused => ⟨sent_file, Or.inr ⟨failed, excused⟩⟩) w excused
  · have untouched : writer.put bytes = Pure.pure writer := by simp [Writer.put, failed]
    rw [untouched]
    exact Triple.pure always (fun w excused => ⟨file, Or.inr ⟨failed, excused⟩⟩) w excused

theorem record_given (writer : Writer) (r : Record) :
    Triple rules (Given excuse temp taken total writer) (writer.write r)
      (Ends error (Given excuse temp taken (total ++ r.encode))) := by
  have whole : total ++ r.encode =
      total ++ Record.escape r.key ++ [Record.tab] ++ Record.escape r.value ++ [Record.newline] := by
    simp [Record.encode]
  rw [whole]
  refine .bind (put_given sink writer _) fun writer => ?_
  refine .bind (put_given sink writer _) fun writer => ?_
  refine .bind (put_given sink writer _) fun writer => ?_
  exact put_given sink writer _

theorem count_given (writer : Writer) (name : String) (delta : Int64) :
    Triple rules (Given excuse temp taken total writer) (call (.count name delta))
      (Ends (fun _ => excuse) fun _ => Given excuse temp taken total writer) := by
  refine sink.count name delta _ (Given.stable sink) ?_
  rintro w w' files notes ⟨file, ⟨healthy, content, same, holds⟩ | failed⟩
  · exact ⟨file, Or.inl ⟨healthy, content, same, sink.quiet content w w' files notes holds⟩⟩
  · exact ⟨file, Or.inr failed⟩

theorem writeOrFail_given (writer : Writer) (r : Record) :
    Triple rules (Given excuse temp taken total writer) (writer.writeOrFail r)
      (Ends (fun _ => excuse) (Given excuse temp taken (total ++ r.encode))) := by
  refine .bind (record_given sink writer r) fun writer => ?_
  split
  next e failed =>
    refine .fail ?_
    rintro w ⟨_, ⟨healthy, _⟩ | ⟨_, excused⟩⟩
    · rw [failed] at healthy
      cases healthy
    · exact excused
  next => exact .pure (Given.stable sink) fun _ given => given

/-- The loop rule for bodies that write the records of their items. -/
theorem fold_given {β : Type} {body : Writer → β → Attempt Writer} (record : β → Record)
    (step : ∀ total writer item, Triple rules (Given excuse temp taken total writer) (body writer item)
      (Ends (fun _ => excuse) (Given excuse temp taken (total ++ (record item).encode))))
    (writer : Writer) (items : List β) :
    Triple rules (Given excuse temp taken total writer) (Program.fold body writer items)
      (Ends (fun _ => excuse) (Given excuse temp taken (total ++ Record.encodeAll (items.map record)))) := by
  intro w given
  refine Triple.fold (fun before => Given excuse temp taken (total ++ Record.encodeAll (before.map record)))
    (fun _ _ => Given.stable sink) (fun before item todo writer _ => ?_) w (by simpa [Record.encodeAll] using given)
  have whole : total ++ Record.encodeAll ((before ++ [item]).map record) =
      total ++ Record.encodeAll (before.map record) ++ (record item).encode := by
    simp [Record.encodeAll]
  rw [whole]
  exact step _ writer item

theorem flush_given (writer : Writer) :
    Triple rules (Given excuse temp taken total writer) writer.flush (Ends (fun _ => excuse) fun _ => taken total) := by
  rintro w ⟨rfl, ⟨healthy, content, rfl, holds⟩ | ⟨failed, excused⟩⟩
  · simp only [Writer.flush, healthy]
    split
    next empty =>
      rw [empty, List.append_nil]
      exact fun later moves => sink.stable content w later moves holds
    next => exact sink.write _ _ w holds
  · obtain ⟨e, failed⟩ := Option.isSome_iff_exists.mp failed
    unfold Writer.flush
    rw [failed]
    exact fun _ _ => excused

end FromScratch.Proofs.WriterRules
