import FromScratch.Inference.Loader

/-! A model file that is cut short is refused wherever the cut is, and what
follows a whole one is not looked at. -/

namespace FromScratch.Inference.ModelLoader
open Lib (FiniteMap Reader)
open Lib.Reader (Whole)

/-- The exceptions thrown where the file ends too early. -/
def Ended (fault : Fault) : Prop := ∃ what, fault = .runtimeError what

section Fields

theorem whole_bytes (count : Nat) (what : String) : Whole Ended (readBytes count what) := Whole.take count ⟨_, rfl⟩

theorem whole_u32 : Whole Ended readU32 := (whole_bytes 4 "u32").bind fun _ => .pure _

theorem whole_u64 : Whole Ended readU64 := (whole_bytes 8 "u64").bind fun _ => .pure _

theorem whole_i64 : Whole Ended readI64 := (whole_bytes 8 "i64").bind fun _ => .pure _

theorem whole_f32 : Whole Ended readF32 := (whole_bytes 4 "f32").bind fun _ => .pure _

theorem whole_string : Whole Ended readString := whole_u32.bind fun len => whole_bytes len "string"

theorem whole_strings : Whole Ended readStrings := whole_u32.bind fun count => whole_string.times count

end Fields

section Tables

theorem whole_initializer (model : Model FloatBits) : Whole Ended (readInitializer model) := by
  refine whole_string.bind fun name => whole_u32.bind fun ndim => (whole_u64.times ndim).bind fun dims => ?_
  refine (whole_f32.times _).bind fun data => ?_
  exact (Whole.lift (Tensor.ofValues dims data)).bind fun tensor => .pure _

theorem whole_attribute (attrs : FiniteMap Text (Attribute FloatBits)) : Whole Ended (readAttribute attrs) := by
  refine whole_string.bind fun attrName => (whole_bytes 1 _).bind fun tag => ?_
  split
  · exact whole_i64.bind fun value => .pure _
  · split
    · exact whole_f32.bind fun value => .pure _
    · split
      · exact whole_u32.bind fun count => (whole_i64.times count).bind fun values => .pure _
      · exact .fails _

theorem whole_node (walk : FiniteMap.Traversal Text (NodeEntry FloatBits)) (model : Model FloatBits) :
    Whole Ended (readNode walk model) := by
  refine whole_string.bind fun name => whole_string.bind fun opType => ?_
  refine whole_strings.bind fun inputs => whole_strings.bind fun outputs => whole_u32.bind fun numAttrs => ?_
  exact (Whole.repeated whole_attribute numAttrs ∅).bind fun attrs => .pure _

end Tables

section File
variable (walk : FiniteMap.Traversal Text (NodeEntry FloatBits)) (path : Text)

theorem whole_model : Whole Ended (readModel walk) := by
  refine whole_u32.bind fun numInitializers => (Whole.repeated whole_initializer numInitializers {}).bind fun model => ?_
  refine whole_u32.bind fun numNodes => (Whole.repeated (whole_node walk) numNodes model).bind fun model => ?_
  exact whole_strings.bind fun graphInputs => whole_strings.bind fun graphOutputs => .pure _

theorem whole_file : Whole Ended (readFile walk path) := by
  refine (Whole.take 4 ⟨_, rfl⟩).bind fun magic => ?_
  split
  · exact Whole.fails_bind
  · refine whole_u32.bind fun version => ?_
    split
    · exact Whole.fails_bind
    · exact whole_model walk

/-- A file from whose first bytes a model is loaded: nothing is loaded from fewer of them, and the same model whatever
stands behind them. -/
theorem load_whole {file : List UInt8} {model : Model FloatBits} (accepted : load walk path (some file) = .ok model) :
    ∃ size ≤ file.length, (readFile walk path).run file = .ok (model, file.drop size) ∧
      (∀ other, load walk path (some (file.take size ++ other)) = .ok model) ∧
      ∀ fewer < size, ∃ what, load walk path (some (file.take fewer)) = .error (.runtimeError what) := by
  obtain ⟨rest, read⟩ := load_accepts accepted
  obtain ⟨used, rfl, reads, misses⟩ := whole_file walk path file model rest read
  have left : (used ++ rest).drop used.length = rest := List.drop_left
  refine ⟨used.length, by simp, by rw [left, read], fun other => ?_, fun fewer early => ?_⟩
  · rw [List.take_left, load, reads]
    rfl
  · have short : (used ++ rest).take fewer = used.take fewer := List.take_append_of_le_length early.le
    have part : used.take fewer ≠ used := by
      intro same
      have count := congrArg List.length same
      rw [List.length_take_of_le early.le] at count
      omega
    obtain ⟨error, ⟨what, rfl⟩, failed⟩ := misses (used.take fewer) (List.take_prefix ..) part
    refine ⟨what, ?_⟩
    rw [short, load, failed]
    rfl

/-- A weight and a node, written out, and one byte that is not part of them. -/
def weightedFile : List UInt8 :=
  kMagic ++ writeU32 kVersion ++ writeU32 1 ++ writeInitializer (text "w", ⟨[2], [1065353216, 0], rfl, by decide⟩) ++
    writeU32 1 ++ writeNode ⟨.kept, .kept, .kept⟩ (Node.make (text "n") (text "Gemm") [text "x", text "w"] [text "y"]
      ((∅ : FiniteMap Text (Attribute FloatBits)).insert (text "transB") (.int 1))) ++
    writeStrings [text "x"] ++ writeStrings [text "y"] ++ [7]

set_option maxRecDepth 4000 in
theorem load_whole_weighted : ∃ model, load .kept [] (some weightedFile) = .ok model ∧
    (load .kept [] (some (weightedFile ++ [1, 2, 3])) = .ok model) ∧
    ∃ size ≤ weightedFile.length, ∀ fewer < size, ∃ what,
      load .kept [] (some (weightedFile.take fewer)) = .error (.runtimeError what) := by
  obtain ⟨model, accepted⟩ : ∃ model, load .kept [] (some weightedFile) = .ok model := ⟨_, rfl⟩
  obtain ⟨size, inside, _, onward, misses⟩ := load_whole .kept [] accepted
  refine ⟨model, accepted, ?_, size, inside, misses⟩
  have same := onward (weightedFile.drop size ++ [1, 2, 3])
  rwa [← List.append_assoc, List.take_append_drop] at same

end File
end FromScratch.Inference.ModelLoader
