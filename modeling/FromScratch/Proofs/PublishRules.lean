import FromScratch.MapReduce.Mapper
import FromScratch.Proofs.AttemptRules
import FromScratch.Proofs.WriterRules

/-! Writing a file and giving it its name. -/

namespace FromScratch.Proofs.PublishRules
open FromScratch.MapReduce Lib Program AttemptRules WriterRules

variable {terms : Terms} {contents : GoString → Option GoString} {own : Name → GoString} {me : Nat} {held : Holding}
  {excuse : Prop} (weak : terms.fallible → excuse)

include weak

/-- A callback that leaves good content in its file publishes it. -/
theorem writeAtomic_meets {α : Type} {path : Name} {write : Path → Attempt α} (fact : α → GoString → Prop)
    (plain : held.listed = []) (free : held.temp = none)
    (callback : ∀ serial, Triple (rules terms me)
      (Knows terms contents own me { held with temp := some (.temp path me serial, []) }) (write (.temp path me serial))
      (Ends (fun _ => excuse) fun value w => ∃ content, fact value content ∧
        Knows terms contents own me { held with temp := some (.temp path me serial, content) } w))
    (good : ∀ value content, fact value content → terms.good path content)
    (run : ∀ value content, fact value content → (Path.file path).isSpill = true → own path = content) :
    Triple (rules terms me) (Knows terms contents own me held) (Storage.writeAtomic path write)
      (Ends (fun _ => excuse) fun value w => (∃ content, fact value content) ∧
        Knows terms contents own me (held.publish path) w) := by
  have always : Stable (rules terms me) (fun _ => excuse) := fun _ _ _ holds => holds
  refine .bind (mkdirAll_meets weak _) fun _ => ?_
  refine .bind (createTemp_meets weak path plain free) fun tmp => ?_
  refine .given ?_
  rintro ⟨serial, rfl⟩
  refine .bind (callback serial).outcome fun written => ?_
  cases written with
  | error e =>
    have closing : Triple (rules terms me) (fun _ => excuse) (call (.close (.temp path me serial))).outcome
        (Ends (fun _ => excuse) fun _ _ => excuse) :=
      try_meets nofun always (fun _ => always) (fun _ _ => trivial) (fun _ holds => holds) fun _ _ _ holds _ => holds
    exact .bind closing fun _ => cleanup_meets path serial e
  | ok value =>
    refine .choose fun content => .given fun settled => ?_
    refine .bind (close_meets weak _).outcome fun closed => ?_
    cases closed with
    | error e => exact cleanup_meets path serial e
    | ok =>
      refine .bind (rename_meets weak path plain (good _ _ settled) (run _ _ settled)).outcome fun renamed => ?_
      cases renamed with
      | error e => exact cleanup_meets path serial e
      | ok => exact .pure knows_stable fun w knows => ⟨⟨content, settled⟩, knows⟩

omit weak

/-- The writer has been given `total` so far: the file holds all of it but what
is buffered, or an error is on record. -/
structure Wrote (terms : Terms) (contents : GoString → Option GoString) (own : Name → GoString) (me : Nat)
    (held : Holding) (excuse : Prop) (temp : Path) (total : GoString) (writer : Writer) (w : World) : Prop where
  file : writer.file = temp
  given : (writer.err = none ∧ ∃ content, content ++ writer.buffered = total ∧
    Knows terms contents own me { held with temp := some (temp, content) } w) ∨ writer.err.isSome = true ∧ excuse

/-- The writer's rules, for a file that nobody else writes to. -/
theorem wrote_eq {temp : Path} : Wrote terms contents own me held excuse temp =
    Given excuse temp fun content => Knows terms contents own me { held with temp := some (temp, content) } := by
  funext total writer w
  exact propext ⟨fun wrote => ⟨wrote.file, wrote.given⟩, fun given => ⟨given.file, given.given⟩⟩

include weak in
theorem knows_sink (plain : held.listed = []) (temp : Path) : Sink (rules terms me) excuse temp fun content =>
    Knows terms contents own me { held with temp := some (temp, content) } where
  stable _ := knows_stable
  write content bytes := write_meets weak temp content bytes plain
  quiet _ _ _ files notes knows := knows.quiet files (congrFun notes me)
  count _ _ _ stable quiet :=
    call_meets weak nofun stable (fun _ => stable) (fun _ _ => trivial) fun w holds _ => quiet w _ rfl rfl holds

section Writers
variable {temp : Path} {total : GoString} (plain : held.listed = [])
include weak plain

theorem writeAll_meets (writer : Writer) (records : List Record) :
    Triple (rules terms me) (Wrote terms contents own me held excuse temp total writer)
      (Program.fold Writer.writeOrFail writer records)
      (Ends (fun _ => excuse) (Wrote terms contents own me held excuse temp (total ++ Record.encodeAll records))) := by
  have sink : Sink (rules terms me) excuse temp fun content =>
      Knows terms contents own me { held with temp := some (temp, content) } := knows_sink weak plain temp
  rw [wrote_eq]
  intro w given
  have all := fold_given sink id (fun _ writer r => writeOrFail_given sink writer r) writer records w given
  rwa [List.map_id] at all

theorem flush_meets (writer : Writer) :
    Triple (rules terms me) (Wrote terms contents own me held excuse temp total writer) writer.flush
      (Ends (fun _ => excuse) fun _ => Knows terms contents own me { held with temp := some (temp, total) }) := by
  rw [wrote_eq]
  exact flush_given (knows_sink weak plain temp) writer

end Writers

include weak in
theorem writeRecords_meets {path : Name} {records : List Record} (plain : held.listed = []) (free : held.temp = none)
    (good : terms.good path (Record.encodeAll records))
    (run : (Path.file path).isSpill = true → own path = Record.encodeAll records) :
    Triple (rules terms me) (Knows terms contents own me held) (Mapper.writeRecords path records)
      (Ends (fun _ => excuse) fun _ => Knows terms contents own me (held.publish path)) := by
  refine .post_of (writeAtomic_meets weak (fun _ content => content = Record.encodeAll records) plain free
    (fun serial => ?_) (fun _ _ same => same ▸ good) fun _ _ same => same ▸ run) fun _ _ done => done.2
  intro w knows
  have empty : Wrote terms contents own me held excuse (.temp path me serial) [] { file := .temp path me serial } w :=
    ⟨rfl, Or.inl ⟨rfl, [], rfl, knows⟩⟩
  refine Triple.bind (writeAll_meets weak plain _ records) (fun writer => ?_) w empty
  exact .post_of (flush_meets weak plain writer) fun _ _ knows => ⟨_, rfl, knows⟩

end FromScratch.Proofs.PublishRules
