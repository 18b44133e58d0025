import Mathlib.Data.Nat.ModEq
import FromScratch.Inference.Exporter
import FromScratch.Proofs.ListedModels
import FromScratch.Proofs.ModelFormat
import FromScratch.Proofs.ModelTruncation
import FromScratch.Lib.Rows

/-! The file the trainer exports is the model it describes: the loader reads back
every parameter and every node. -/

namespace FromScratch.Inference
open Lib (FiniteMap Reader littleEndian)
open Lib.Reader (Reads repeated)
open Lib.Rows (joined length_joined getD_joined)

namespace Exporter
variable {F : Type}

section Parameters

/-- The rows of a matrix, one after the other. -/
theorem contiguous_joined {rows columns : Nat} (matrix : Matrix (Fin rows) (Fin columns) F) :
    contiguous matrix = joined rows fun i => if inside : i < rows then List.ofFn (matrix ⟨i, inside⟩) else [] := by
  unfold contiguous joined
  rw [List.flatMap_def]
  refine congrArg List.flatten (List.ext_getElem (by simp) fun i first second => ?_)
  rw [List.length_ofFn] at first
  simp [first]

theorem contiguous_length {rows columns : Nat} (matrix : Matrix (Fin rows) (Fin columns) F) :
    (contiguous matrix).length = rows * columns := by
  rw [contiguous_joined]
  refine length_joined fun i inside => ?_
  rw [dif_pos inside, List.length_ofFn]

theorem contiguous_getD {rows columns : Nat} (matrix : Matrix (Fin rows) (Fin columns) F) (i : Fin rows) (j : Fin columns)
    (default : F) : (contiguous matrix).getD (i * columns + j) default = matrix i j := by
  have sized (k : Nat) (inside : k < rows) :
      (if inside : k < rows then List.ofFn (matrix ⟨k, inside⟩) else []).length = columns := by
    rw [dif_pos inside, List.length_ofFn]
  rw [contiguous_joined, getD_joined sized i.isLt j.isLt, dif_pos i.isLt]
  simp

/-- The parameter is a tensor: it has as many elements as its shape says, and they
fit the memory. -/
structure Parameter.Sound (parameter : Parameter F) : Prop where
  ranked : parameter.shape ≠ []
  sized : parameter.data.length = parameter.shape.prod
  fits : parameter.data.length * 4 < 2 ^ 64
  extents : ∀ extent ∈ parameter.shape, extent < 2 ^ 64

/-- The parameter as the engine holds it. -/
def Parameter.tensor (parameter : Parameter F) : Tensor F :=
  match Tensor.ofValues (parameter.shape.map UInt64.ofNat) parameter.data with
  | .ok tensor => tensor
  | .error _ => Tensor.empty

theorem computeSize_toNat {shape : List Nat} (ranked : shape ≠ []) (small : shape.prod < 2 ^ 64) :
    (computeSize (shape.map UInt64.ofNat)).toNat = shape.prod := by
  have product (start : UInt64) :
      ((shape.map UInt64.ofNat).foldl (· * ·) start).toNat = start.toNat * shape.prod % 2 ^ 64 := by
    clear ranked small
    induction shape generalizing start with
    | nil => simp
    | cons extent shape ih =>
      rw [List.map_cons, List.foldl_cons, ih, List.prod_cons, UInt64.toNat_mul, UInt64.toNat_ofNat', ← Nat.mul_assoc]
      exact ((Nat.mod_modEq _ _).trans ((Nat.mod_modEq extent _).mul_left start.toNat)).mul_right shape.prod
  rw [← ModelLoader.computeSize_of_rank (by simpa using ranked), product]
  simpa using small

variable {parameter : Parameter F}

theorem Parameter.Sound.made (sound : parameter.Sound) :
    Tensor.ofValues (parameter.shape.map UInt64.ofNat) parameter.data = .ok parameter.tensor := by
  have fits := sound.fits
  have sized : parameter.data.length = (computeSize (parameter.shape.map UInt64.ofNat)).toNat := by
    rw [computeSize_toNat sound.ranked (by rw [← sound.sized]; omega), sound.sized]
  unfold Parameter.tensor Tensor.ofValues
  rw [dif_pos sized, dif_pos fits]

theorem Parameter.Sound.shape (sound : parameter.Sound) : parameter.tensor.shape = parameter.shape.map UInt64.ofNat := by
  have made := sound.made
  unfold Tensor.ofValues at made
  split at made
  next =>
    split at made
    next => exact (congrArg Tensor.shape (Except.ok.inj made)).symm
    next => cases made
  next => cases made

theorem Parameter.Sound.data (sound : parameter.Sound) : parameter.tensor.data = parameter.data := by
  have made := sound.made
  unfold Tensor.ofValues at made
  split at made
  next =>
    split at made
    next => exact (congrArg Tensor.data (Except.ok.inj made)).symm
    next => cases made
  next => cases made

theorem weight_sound (name : String) {inFeatures outFeatures : Nat} (layer : Linear F inFeatures outFeatures)
    (small : outFeatures * inFeatures * 4 < 2 ^ 64) (narrow : inFeatures < 2 ^ 64) (short : outFeatures < 2 ^ 64) :
    (weight name layer).Sound where
  ranked := nofun
  sized := by simp [weight, contiguous_length]
  fits := by simpa [weight, contiguous_length] using small
  extents := by
    simp only [weight, List.forall_mem_cons]
    exact ⟨short, narrow, List.forall_mem_nil _⟩

theorem bias_sound (name : String) {inFeatures outFeatures : Nat} (layer : Linear F inFeatures outFeatures)
    (small : outFeatures * 4 < 2 ^ 64) : (bias name layer).Sound where
  ranked := nofun
  sized := by simp [bias]
  fits := by simpa [bias] using small
  extents := by
    simp only [bias, List.mem_singleton, forall_eq]
    omega

theorem initializers_sound (net : Net F) : ∀ parameter ∈ initializers net, parameter.Sound := by
  have layer {inFeatures outFeatures : Nat} (layer : Linear F inFeatures outFeatures) (narrow : inFeatures ≤ 784)
      (short : outFeatures ≤ 784) (name other : String) : (weight name layer).Sound ∧ (bias other layer).Sound := by
    refine ⟨weight_sound name layer ?_ (by omega) (by omega), bias_sound other layer (by omega)⟩
    calc outFeatures * inFeatures * 4 ≤ 784 * 784 * 4 := Nat.mul_le_mul_right 4 (Nat.mul_le_mul short narrow)
      _ < 2 ^ 64 := by decide
  have fc1 := layer net.fc1 (by decide) (by decide)
  have fc2Left := layer net.fc2Left (by decide) (by decide)
  have fc2Left2 := layer net.fc2Left2 (by decide) (by decide)
  have fc2Right := layer net.fc2Right (by decide) (by decide)
  have fc3 := layer net.fc3 (by decide) (by decide)
  simp only [initializers, List.forall_mem_cons]
  exact ⟨(fc1 _ "").1, (fc1 "" _).2, (fc2Left _ "").1, (fc2Left "" _).2, (fc2Left2 _ "").1, (fc2Left2 "" _).2,
    (fc2Right _ "").1, (fc2Right "" _).2, (fc3 _ "").1, (fc3 "" _).2, List.forall_mem_nil _⟩

end Parameters

section Description

def Attr.key : Attr F → Text
  | .int name _ => text name
  | .float name _ => text name

def Attr.value : Attr F → Attribute F
  | .int _ value => .int value
  | .float _ value => .float value

def ExportedNode.node (node : ExportedNode F) : Node F :=
  Node.make (text node.name) (text node.opType) (node.inputs.map text) (node.outputs.map text)
    (node.attrs.foldl (fun attrs attr => attrs.emplace attr.key attr.value) ∅)

def tensors (net : Net F) : List (Text × Tensor F) :=
  (initializers net).map fun parameter => (text parameter.name, parameter.tensor)

/-- The model the file describes. -/
def model [Scalar F] (walk : FiniteMap.Traversal Text (NodeEntry F)) (net : Net F) : Model F :=
  Model.listed walk (tensors net) ((nodes F).map ExportedNode.node) [text "input"] [text "output"]

theorem names_eq (net : Net F) : (tensors net).map Prod.fst = ["fc1.weight", "fc1.bias", "fc2_left.weight", "fc2_left.bias",
    "fc2_left2.weight", "fc2_left2.bias", "fc2_right.weight", "fc2_right.bias", "fc3.weight", "fc3.bias"].map text := rfl

theorem names_distinct (net : Net F) : ((tensors net).map Prod.fst).Nodup := by
  rw [names_eq]
  decide

/-- What the nodes say of each other. -/
def signatures : List Signature := [
  ⟨text "flatten", [text "input"], [text "flatten_out"]⟩,
  ⟨text "fc1", [text "flatten_out", text "fc1.weight", text "fc1.bias"], [text "fc1_out"]⟩,
  ⟨text "relu1", [text "fc1_out"], [text "relu1_out"]⟩,
  ⟨text "fc2_left", [text "relu1_out", text "fc2_left.weight", text "fc2_left.bias"], [text "fc2_left_out"]⟩,
  ⟨text "relu2", [text "fc2_left_out"], [text "relu2_out"]⟩,
  ⟨text "fc2_left2", [text "relu2_out", text "fc2_left2.weight", text "fc2_left2.bias"], [text "left_out"]⟩,
  ⟨text "fc2_right", [text "relu1_out", text "fc2_right.weight", text "fc2_right.bias"], [text "right_out"]⟩,
  ⟨text "add", [text "left_out", text "right_out"], [text "add_out"]⟩,
  ⟨text "fc3", [text "add_out", text "fc3.weight", text "fc3.bias"], [text "output"]⟩]

theorem signatures_eq [Scalar F] : ((nodes F).map ExportedNode.node).map Node.signature = signatures := rfl

theorem tidy [Scalar F] (net : Net F) :
    Tidy ((tensors net).map Prod.fst) (((nodes F).map ExportedNode.node).map Node.signature) [text "input"] := by
  rw [signatures_eq, names_eq]
  constructor <;> decide

theorem nodes_made [Scalar F] :
    ∀ node ∈ (nodes F).map ExportedNode.node, node.opType = opTypeFromString node.opTypeStr := by
  intro node member
  obtain ⟨written, _, rfl⟩ := List.mem_map.mp member
  rfl

/-- Whatever is read is a parameter, the input or the output of a node. -/
theorem reads_known [Scalar F] (net : Net F) :
    ∀ read ∈ text "output" :: ((nodes F).map ExportedNode.node).flatMap Node.inputs,
      read ∈ (tensors net).map Prod.fst ∨ read = text "input" ∨
        read ∈ ((nodes F).map ExportedNode.node).flatMap Node.outputs := by
  have inputs : ((nodes F).map ExportedNode.node).flatMap Node.inputs = signatures.flatMap Signature.inputs := rfl
  have outputs : ((nodes F).map ExportedNode.node).flatMap Node.outputs = signatures.flatMap Signature.outputs := rfl
  rw [inputs, outputs, names_eq]
  decide

end Description

section File

/-- Where every text and every count of the file fits its 32 bits. -/
structure ExportedNode.Fits (node : ExportedNode FloatBits) : Prop where
  texts : ∀ s ∈ node.name :: node.opType :: (node.inputs ++ node.outputs), (text s).length < 2 ^ 32
  inputs : node.inputs.length < 2 ^ 32
  outputs : node.outputs.length < 2 ^ 32
  attrs : node.attrs.length < 2 ^ 32
  keys : ∀ attr ∈ node.attrs, attr.key.length < 2 ^ 32

variable {parameter : Parameter FloatBits}

theorem shape_written (extents : ∀ extent ∈ parameter.shape, extent < 2 ^ 64) :
    (parameter.shape.map UInt64.ofNat).flatMap ModelLoader.writeU64 = parameter.shape.flatMap (littleEndian 8) := by
  rw [List.flatMap_map]
  refine List.flatMap_congr fun extent member => ?_
  rw [ModelLoader.writeU64, UInt64.toNat_ofNat', Nat.mod_eq_of_lt (extents extent member)]

theorem reads_parameter (sound : parameter.Sound) (named : (text parameter.name).length < 2 ^ 32)
    (few : parameter.shape.length < 2 ^ 32) (model : Model FloatBits) :
    Reads (ModelLoader.readInitializer model) (writeTensor parameter)
      (model.addInitializer (text parameter.name) parameter.tensor) := by
  have fits : ModelLoader.InitializerFits (text parameter.name) parameter.tensor :=
    ⟨named, by rw [sound.shape, List.length_map]; exact few⟩
  have read := ModelLoader.reads_initializer fits (by rw [sound.shape]; simpa using sound.ranked) model
  have same : ModelLoader.writeInitializer (text parameter.name, parameter.tensor) = writeTensor parameter := by
    simp only [ModelLoader.writeInitializer, writeTensor, sound.shape, sound.data, shape_written sound.extents,
      List.length_map]
    rfl
  rwa [same] at read

theorem reads_attr {attr : Attr FloatBits} (short : attr.key.length < 2 ^ 32)
    (attrs : FiniteMap Text (Attribute FloatBits)) :
    Reads (ModelLoader.readAttribute attrs) (writeAttr attr) (attrs.emplace attr.key attr.value) := by
  cases attr with
  | int name value => exact @ModelLoader.reads_attribute (text name) (.int value) short attrs
  | float name value => exact @ModelLoader.reads_attribute (text name) (.float value) short attrs

theorem reads_texts {names : List String} (few : names.length < 2 ^ 32) (short : ∀ s ∈ names, (text s).length < 2 ^ 32) :
    Reads ModelLoader.readStrings (packU32 names.length ++ names.flatMap writeStr) (names.map text) := by
  have read := @ModelLoader.reads_strings (names.map text) (by rwa [List.length_map]) (List.forall_mem_map.mpr short)
  rwa [ModelLoader.writeStrings, List.length_map, List.flatMap_map] at read

theorem reads_node {node : ExportedNode FloatBits} (fits : node.Fits) (walk : FiniteMap.Traversal Text (NodeEntry FloatBits))
    (model : Model FloatBits) :
    Reads (ModelLoader.readNode walk model) (writeNode node) { model with graph := model.graph.addNode walk node.node } := by
  have texts := fits.texts
  simp only [List.forall_mem_cons, List.forall_mem_append] at texts
  obtain ⟨name, opType, inputs, outputs⟩ := texts
  have attributes : Reads (repeated ModelLoader.readAttribute node.attrs.length ∅) (node.attrs.flatMap writeAttr)
      (node.attrs.foldl (fun attrs attr => attrs.emplace attr.key attr.value) ∅) :=
    Reads.repeated (fun attr member attrs => reads_attr (fits.keys attr member) attrs) ∅
  have bytes : writeNode node = writeStr node.name ++ (writeStr node.opType ++
      ((packU32 node.inputs.length ++ node.inputs.flatMap writeStr) ++
        ((packU32 node.outputs.length ++ node.outputs.flatMap writeStr) ++
          (packU32 node.attrs.length ++ node.attrs.flatMap writeAttr)))) := by
    simp only [writeNode, List.append_assoc]
  rw [bytes]
  exact (ModelLoader.reads_string name).bind ((ModelLoader.reads_string opType).bind ((reads_texts fits.inputs inputs).bind
    ((reads_texts fits.outputs outputs).bind ((ModelLoader.reads_u32 fits.attrs).bind (attributes.map (Reads.pure _))))))

theorem add_parameters (parameters : List (Parameter F)) (start : Model F) :
    parameters.foldl (fun model parameter => model.addInitializer (text parameter.name) parameter.tensor) start =
      { start with
        initializers := (parameters.map fun parameter => (text parameter.name, parameter.tensor)).foldl
          (fun tensors initializer => tensors.insert initializer.1 initializer.2) start.initializers } := by
  induction parameters generalizing start with
  | nil => rfl
  | cons parameter parameters ih =>
    rw [List.foldl_cons, ih]
    rfl

theorem add_nodes (walk : FiniteMap.Traversal Text (NodeEntry F)) (nodes : List (ExportedNode F)) (start : Model F) :
    nodes.foldl (fun model node => { model with graph := model.graph.addNode walk node.node }) start =
      { start with graph := (nodes.map ExportedNode.node).foldl (fun graph node => graph.addNode walk node) start.graph } := by
  induction nodes generalizing start with
  | nil => rfl
  | cons node nodes ih =>
    rw [List.foldl_cons, ih]
    rfl

theorem nodes_fit : ∀ node ∈ nodes FloatBits, node.Fits := by
  have texts : ∀ node ∈ nodes FloatBits, ∀ s ∈ node.name :: node.opType :: (node.inputs ++ node.outputs),
      (text s).length < 2 ^ 32 := by decide
  have counts : ∀ node ∈ nodes FloatBits, node.inputs.length < 2 ^ 32 ∧ node.outputs.length < 2 ^ 32 ∧
      node.attrs.length < 2 ^ 32 := by decide
  have keys : ∀ node ∈ nodes FloatBits, ∀ attr ∈ node.attrs, attr.key.length < 2 ^ 32 := by decide
  intro node member
  obtain ⟨inputs, outputs, attrs⟩ := counts node member
  exact ⟨texts node member, inputs, outputs, attrs, keys node member⟩

theorem parameters_fit (net : Net F) : ∀ parameter ∈ initializers net,
    (text parameter.name).length < 2 ^ 32 ∧ parameter.shape.length < 2 ^ 32 := by
  have all : ∀ fields ∈ [("fc1.weight", 2), ("fc1.bias", 1), ("fc2_left.weight", 2), ("fc2_left.bias", 1),
      ("fc2_left2.weight", 2), ("fc2_left2.bias", 1), ("fc2_right.weight", 2), ("fc2_right.bias", 1), ("fc3.weight", 2),
      ("fc3.bias", 1)], (text fields.1).length < 2 ^ 32 ∧ fields.2 < 2 ^ 32 := by decide
  intro parameter member
  exact all (parameter.name, parameter.shape.length)
    (List.mem_map_of_mem (f := fun parameter : Parameter F => (parameter.name, parameter.shape.length)) member)

/-- The loader reads back the model the trainer has written. -/
theorem reads_export (net : Net FloatBits) (walk : FiniteMap.Traversal Text (NodeEntry FloatBits)) (path : Text) :
    Reads (ModelLoader.readFile walk path) (exportOien net) (model walk net) := by
  have tables : Reads (repeated ModelLoader.readInitializer (initializers net).length {})
      ((initializers net).flatMap writeTensor) _ :=
    Reads.repeated (fun parameter member model => reads_parameter (initializers_sound net parameter member)
      (parameters_fit net parameter member).1 (parameters_fit net parameter member).2 model) {}
  have table (start : Model FloatBits) : Reads (repeated (ModelLoader.readNode walk) (nodes FloatBits).length start)
      ((nodes FloatBits).flatMap writeNode) _ :=
    Reads.repeated (fun node member model => reads_node (nodes_fit node member) walk model) start
  rw [add_parameters] at tables
  simp only [add_nodes] at table
  have ten : (initializers net).length = 10 := rfl
  have magic (short : Fault) : Reads (Reader.take 4 short : ModelLoader.Stream (List UInt8)) OIEN_MAGIC OIEN_MAGIC :=
    Reads.take rfl short
  have inputs := @reads_texts ["input"] (by decide) (by decide)
  have outputs := @reads_texts ["output"] (by decide) (by decide)
  have bytes : exportOien net = OIEN_MAGIC ++ (packU32 OIEN_VERSION ++
      (packU32 (initializers net).length ++ ((initializers net).flatMap writeTensor ++
      (packU32 (nodes FloatBits).length ++ ((nodes FloatBits).flatMap writeNode ++
      ((packU32 1 ++ ["input"].flatMap writeStr) ++ (packU32 1 ++ ["output"].flatMap writeStr))))))) := by
    simp only [exportOien, List.append_assoc, List.flatMap_singleton]
  rw [bytes]
  refine (magic _).bind ?_
  refine (ModelLoader.reads_u32 (by decide)).bind ?_
  refine (ModelLoader.reads_u32 (by rw [ten]; decide)).bind (tables.bind ?_)
  refine (ModelLoader.reads_u32 (by decide)).bind ((table _).bind ?_)
  exact inputs.bind (outputs.map (Reads.pure _))

/-- The trainer's file is loaded as the model it stands for: the parameters with
their shapes and elements, the nodes in their order, and nothing else. A part of the
file is refused, and what follows it is not looked at. -/
theorem load_export (net : Net FloatBits) (walk : FiniteMap.Traversal Text (NodeEntry FloatBits)) (path : Text) :
    ∃ loaded : Model FloatBits, loaded.Assembled ∧ loaded.graph.Acyclic ∧
      loaded.graph.insertionOrder = (nodes FloatBits).map (fun node => text node.name) ∧
      (∀ name node, loaded.graph.Has name node ↔
        ∃ exported ∈ nodes FloatBits, exported.node = node ∧ text exported.name = name) ∧
      (∀ name tensor, loaded.initializers.lookup name = some tensor ↔ ∃ parameter ∈ initializers net,
        text parameter.name = name ∧ tensor.shape = parameter.shape.map UInt64.ofNat ∧ tensor.data = parameter.data) ∧
      loaded.graph.inputs = [text "input"] ∧ loaded.graph.outputs = [text "output"] ∧
      (∀ other, ModelLoader.load walk path (some (exportOien net ++ other)) = .ok loaded) ∧
      ∀ fewer < (exportOien net).length, ∃ what,
        ModelLoader.load walk path (some ((exportOien net).take fewer)) = .error (.runtimeError what) := by
  have read := reads_export net walk path
  have named := (tidy net).names
  refine ⟨model walk net, Model.assembled_listed nodes_made, (tidy net).acyclic, ?_, fun name node => ?_,
    fun name tensor => ?_, rfl, rfl, fun other => ?_, fun fewer early => ?_⟩
  · exact (Graph.order_listed walk _).trans (by rw [List.map_map]; rfl)
  · refine (Graph.has_listed named).trans ?_
    rw [List.mem_map]
    constructor
    · rintro ⟨⟨exported, member, rfl⟩, rfl⟩
      exact ⟨exported, member, rfl, rfl⟩
    · rintro ⟨exported, member, rfl, rfl⟩
      exact ⟨⟨exported, member, rfl⟩, rfl⟩
  · refine (Model.lookup_listed (names_distinct net) tensor).trans ?_
    rw [tensors, List.mem_map]
    refine exists_congr fun parameter => and_congr_right fun member => ?_
    have sound := initializers_sound net parameter member
    rw [Prod.mk.injEq, Tensor.ext_iff, sound.shape, sound.data, eq_comm (a := tensor.shape), eq_comm (a := tensor.data)]
  · rw [ModelLoader.load, read other]
    rfl
  · have all := read []
    rw [List.append_nil] at all
    obtain ⟨used, bytes, _, misses⟩ := ModelLoader.whole_file walk path _ _ _ all
    rw [List.append_nil] at bytes
    subst bytes
    have part : (exportOien net).take fewer ≠ exportOien net := by
      intro same
      have count := congrArg List.length same
      rw [List.length_take_of_le early.le] at count
      omega
    obtain ⟨error, ⟨what, rfl⟩, failed⟩ := misses _ (List.take_prefix ..) part
    exact ⟨what, by rw [ModelLoader.load, failed]; rfl⟩
end File
end Exporter
end FromScratch.Inference
