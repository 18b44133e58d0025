import FromScratch.Inference.Loader
import FromScratch.Proofs.GraphTables

/-! The OIEN format read back: every field the writer produces is read as it
was written, except an initializer of rank 0, which the writer gives no element
and the reader one. -/

namespace FromScratch.Inference
open Lib (FiniteMap Reader littleEndian ofLittleEndian littleEndian_length ofLittleEndian_of_lt)
open Lib.Reader (Reads Refuses Yields times repeated)
open Lib.FiniteMap (lookup_insert_eq lookup_emplace)

namespace ModelLoader

section Fields

theorem reads_u32 {value : Nat} (small : value < 2 ^ 32) : Reads readU32 (writeU32 value) value := by
  refine (Reads.take (littleEndian_length 4 value) _).map ?_
  rw [ofLittleEndian_of_lt small]
  exact Reads.pure value

theorem reads_u64 (value : UInt64) : Reads readU64 (writeU64 value) value := by
  refine (Reads.take (littleEndian_length 8 value.toNat) _).map ?_
  rw [ofLittleEndian_of_lt value.toNat_lt, UInt64.ofNat_toNat]
  exact Reads.pure value

theorem reads_i64 (value : Int64) : Reads readI64 (writeI64 value) value := by
  refine (Reads.take (littleEndian_length 8 value.toUInt64.toNat) _).map ?_
  rw [ofLittleEndian_of_lt value.toUInt64.toNat_lt, UInt64.ofNat_toNat,
    Int64.toInt64_toUInt64]
  exact Reads.pure value

theorem reads_f32 (value : FloatBits) : Reads readF32 (writeF32 value) value := by
  refine (Reads.take (littleEndian_length 4 value.toNat) _).map ?_
  rw [ofLittleEndian_of_lt value.toNat_lt, UInt32.ofNat_toNat]
  exact Reads.pure value

theorem reads_string {s : Text} (short : s.length < 2 ^ 32) : Reads readString (writeString s) s :=
  (reads_u32 short).bind (Reads.take rfl _)

theorem reads_strings {names : List Text} (few : names.length < 2 ^ 32) (short : ∀ name ∈ names, name.length < 2 ^ 32) :
    Reads readStrings (writeStrings names) names :=
  (reads_u32 few).bind (Reads.times fun name member => reads_string (short name member))

end Fields

/-- The counts and string lengths of an attribute fit their fields. -/
def AttributeFits (key : Text) : Attribute FloatBits → Prop
  | .ints values => key.length < 2 ^ 32 ∧ values.length < 2 ^ 32
  | _ => key.length < 2 ^ 32

structure NodeFits (node : Node FloatBits) : Prop where
  name : node.name.length < 2 ^ 32
  opTypeStr : node.opTypeStr.length < 2 ^ 32
  inputs : node.inputs.length < 2 ^ 32 ∧ ∀ name ∈ node.inputs, name.length < 2 ^ 32
  outputs : node.outputs.length < 2 ^ 32 ∧ ∀ name ∈ node.outputs, name.length < 2 ^ 32
  attributes : node.attributes.keys.length < 2 ^ 32
  attr : ∀ key value, node.attributes.lookup key = some value → AttributeFits key value

def InitializerFits (name : Text) (tensor : Tensor FloatBits) : Prop :=
  name.length < 2 ^ 32 ∧ tensor.shape.length < 2 ^ 32

instance (name : Text) (tensor : Tensor FloatBits) : Decidable (InitializerFits name tensor) :=
  inferInstanceAs (Decidable (_ ∧ _))

/-- All counts and string lengths of the model fit the 32 bits the format has. -/
structure Fits (model : Model FloatBits) : Prop where
  initializers : model.initializers.keys.length < 2 ^ 32
  initializer : ∀ name tensor, model.initializers.lookup name = some tensor → InitializerFits name tensor
  nodes : model.graph.insertionOrder.length < 2 ^ 32
  node : ∀ name entry, model.graph.nodeMap.lookup name = some entry → NodeFits entry.node
  inputs : model.graph.inputs.length < 2 ^ 32 ∧ ∀ name ∈ model.graph.inputs, name.length < 2 ^ 32
  outputs : model.graph.outputs.length < 2 ^ 32 ∧ ∀ name ∈ model.graph.outputs, name.length < 2 ^ 32

section Tables

theorem reads_attribute {key : Text} {value : Attribute FloatBits} (fits : AttributeFits key value)
    (attrs : FiniteMap Text (Attribute FloatBits)) :
    Reads (readAttribute attrs) (writeAttribute (key, value)) (attrs.emplace key value) := by
  have tag : ∀ byte : UInt8, Reads (readBytes 1 "attribute tag") [byte] [byte] := fun byte => Reads.take rfl _
  cases value with
  | int value => exact (reads_string fits).bind ((tag kAttrInt).bind ((reads_i64 value).map (Reads.pure _)))
  | float value => exact (reads_string fits).bind ((tag kAttrFloat).bind ((reads_f32 value).map (Reads.pure _)))
  | ints values =>
    exact (reads_string fits.1).bind ((tag kAttrInts).bind
      ((reads_u32 fits.2).bind ((Reads.times fun value _ => reads_i64 value).map (Reads.pure _))))

theorem computeSize_of_rank {shape : List UInt64} (rank : shape ≠ []) : shape.foldl (· * ·) 1 = computeSize shape := by
  cases shape with
  | nil => exact absurd rfl rank
  | cons => rfl

theorem reads_initializer {name : Text} {tensor : Tensor FloatBits} (fits : InitializerFits name tensor)
    (rank : tensor.shape ≠ []) (model : Model FloatBits) :
    Reads (readInitializer model) (writeInitializer (name, tensor)) (model.addInitializer name tensor) := by
  have size : (tensor.shape.foldl (· * ·) 1).toNat = tensor.data.length := by
    rw [computeSize_of_rank rank, tensor.sized]
  have data : Reads (times readF32 tensor.data.length) (tensor.data.flatMap writeF32) tensor.data :=
    Reads.times fun value _ => reads_f32 value
  simp only [writeInitializer, List.append_assoc]
  refine (reads_string fits.1).bind ((reads_u32 fits.2).bind ((Reads.times fun dim _ => reads_u64 dim).bind ?_))
  simp only [size]
  refine data.map ?_
  rw [Tensor.ofValues_self]
  exact fun _ => rfl

/-- The writer stores no element; the reader takes four of the next bytes for
one, and the constructor then refuses it. -/
theorem refuses_initializer {name : Text} {tensor : Tensor FloatBits} (fits : InitializerFits name tensor)
    (rank : tensor.shape = []) (model : Model FloatBits) :
    Refuses (readInitializer model) (writeInitializer (name, tensor)) := by
  have empty : tensor.data = [] := by
    apply List.eq_nil_of_length_eq_zero
    rw [tensor.sized, rank]
    rfl
  have last : Refuses (do
      let data ← times readF32 1
      let tensor ← Tensor.ofValues [] data
      pure (model.addInitializer name tensor) : Stream (Model FloatBits)) [] := by
    intro rest
    rw [Lib.Reader.run_bind]
    cases element : (times readF32 1).run ([] ++ rest) with
    | error e => exact ⟨e, rfl⟩
    | ok found =>
      obtain ⟨data, left⟩ := found
      have one := ((Yields.any readF32).times 1 _ data left element).1
      have refused : Tensor.ofValues [] data = .error (.invalidArgument (text "Tensor data size does not match shape")) := by
        rw [Tensor.ofValues, dif_neg]
        rw [one]
        decide
      refine ⟨.invalidArgument (text "Tensor data size does not match shape"), ?_⟩
      change (do
        let tensor ← Tensor.ofValues [] data
        pure (model.addInitializer name tensor) : Stream (Model FloatBits)).run left = _
      rw [refused]
      rfl
  simp only [writeInitializer, rank, empty, List.flatMap_nil, List.append_nil]
  rw [← List.append_nil (writeU32 _)]
  exact .tail (reads_string fits.1) (.tail (reads_u32 (by decide)) (.tail (Reads.pure []) last))

/-- A node as it comes back: its attributes in the order they were written. -/
def reloaded (walks : Walks) (node : Node FloatBits) : Node FloatBits :=
  Node.make node.name node.opTypeStr node.inputs node.outputs
    ((walks.attributes.entries node.attributes).foldl (fun attrs attr => attrs.emplace attr.1 attr.2) ∅)

theorem reads_node {walks : Walks} {node : Node FloatBits} (fits : NodeFits node)
    (walk : FiniteMap.Traversal Text (NodeEntry FloatBits)) (model : Model FloatBits) :
    Reads (readNode walk model) (writeNode walks node)
      { model with graph := model.graph.addNode walk (reloaded walks node) } := by
  have attributes : Reads (repeated readAttribute node.attributes.keys.length ∅)
      ((walks.attributes.entries node.attributes).flatMap writeAttribute) (reloaded walks node).attributes := by
    rw [← walks.attributes.entries_length]
    apply Reads.repeated
    intro attr member attrs
    exact reads_attribute (fits.attr _ _ ((walks.attributes.mem_entries _ _ _).mp member)) attrs
  simp only [writeNode, List.append_assoc]
  exact (reads_string fits.name).bind ((reads_string fits.opTypeStr).bind ((reads_strings fits.inputs.1 fits.inputs.2).bind
    ((reads_strings fits.outputs.1 fits.outputs.2).bind ((reads_u32 fits.attributes).bind
      (attributes.map (Reads.pure _))))))

end Tables

section File

def copyTables (walks : Walks) (model : Model FloatBits) : Model FloatBits :=
  (walks.initializers.entries model.initializers).foldl
    (fun (copy : Model FloatBits) initializer => copy.addInitializer initializer.1 initializer.2) {}

def copyNode (walks : Walks) (walk : FiniteMap.Traversal Text (NodeEntry FloatBits)) (copy : Model FloatBits)
    (entry : NodeEntry FloatBits) : Model FloatBits :=
  { copy with graph := copy.graph.addNode walk (reloaded walks entry.node) }

/-- What the reader makes of the writer's bytes: the tables copied, the nodes
added one after the other in the order in which they were listed. -/
def reloadedModel (walks : Walks) (walk : FiniteMap.Traversal Text (NodeEntry FloatBits)) (model : Model FloatBits)
    (nodes : List (NodeEntry FloatBits)) : Model FloatBits :=
  let copy := nodes.foldl (copyNode walks walk) (copyTables walks model)
  { copy with graph := { copy.graph with inputs := model.graph.inputs, outputs := model.graph.outputs } }

variable {walks : Walks} {walk : FiniteMap.Traversal Text (NodeEntry FloatBits)} {model : Model FloatBits}
  {nodes : List (NodeEntry FloatBits)} {path : Text}

/-- The listed nodes are those the table holds. -/
theorem nodes_fit (fits : Fits model) (listed : model.graph.nodesInInsertionOrder = .ok nodes) (kept : model.graph.Kept) :
    nodes.length < 2 ^ 32 ∧ ∀ entry ∈ nodes, NodeFits entry.node := by
  obtain ⟨found, same, names, each⟩ := Graph.nodes_of_kept kept
  cases listed.symm.trans same
  refine ⟨?_, fun entry member => fits.node _ _ (each entry member)⟩
  rw [← List.length_map, names]
  exact fits.nodes

theorem saved (listed : model.graph.nodesInInsertionOrder = .ok nodes) :
    save walks path true model = .ok (kMagic ++ (writeU32 kVersion ++
      (writeU32 model.initializers.keys.length ++
      ((walks.initializers.entries model.initializers).flatMap writeInitializer ++
      (writeU32 nodes.length ++ (nodes.flatMap (fun entry => writeNode walks entry.node) ++
      (writeStrings model.graph.inputs ++ writeStrings model.graph.outputs))))))) := by
  simp only [save, listed, List.append_assoc]
  rfl

theorem reads_file (fits : Fits model) (kept : model.graph.Kept) (listed : model.graph.nodesInInsertionOrder = .ok nodes)
    (ranked : ∀ name tensor, model.initializers.lookup name = some tensor → tensor.shape ≠ [])
    {bytes : List UInt8} (written : save walks path true model = .ok bytes) :
    Reads (readFile walk path) bytes (reloadedModel walks walk model nodes) := by
  obtain ⟨few, each⟩ := nodes_fit fits listed kept
  rw [saved listed] at written
  cases written
  have tables : Reads (repeated readInitializer model.initializers.keys.length {})
      ((walks.initializers.entries model.initializers).flatMap writeInitializer) (copyTables walks model) := by
    rw [← walks.initializers.entries_length]
    apply Reads.repeated
    intro initializer member model
    have found := (walks.initializers.mem_entries _ _ _).mp member
    exact reads_initializer (fits.initializer _ _ found) (ranked _ _ found) model
  have table : ∀ copy, Reads (repeated (readNode walk) nodes.length copy)
      (nodes.flatMap fun entry => writeNode walks entry.node) (nodes.foldl (copyNode walks walk) copy) :=
    fun copy => Reads.repeated (fun entry member copy => reads_node (each entry member) walk copy) copy
  have magic : ∀ short, Reads (Reader.take 4 short : Stream (List UInt8)) kMagic kMagic := fun short => Reads.take rfl short
  refine (magic _).bind ?_
  refine (reads_u32 (by decide)).bind ?_
  refine (reads_u32 fits.initializers).bind (tables.bind ?_)
  refine (reads_u32 few).bind ((table _).bind ?_)
  exact (reads_strings fits.inputs.1 fits.inputs.2).bind ((reads_strings fits.outputs.1 fits.outputs.2).map (Reads.pure _))

theorem refuses_file (fits : Fits model) (listed : model.graph.nodesInInsertionOrder = .ok nodes)
    (flat : ∃ name tensor, model.initializers.lookup name = some tensor ∧ tensor.shape = [])
    {bytes : List UInt8} (written : save walks path true model = .ok bytes) :
    Refuses (readFile walk path) bytes := by
  rw [saved listed] at written
  cases written
  have tables : Refuses (repeated readInitializer model.initializers.keys.length {})
      ((walks.initializers.entries model.initializers).flatMap writeInitializer) := by
    rw [← walks.initializers.entries_length]
    let ranked (initializer : Text × Tensor FloatBits) := initializer.2.shape ≠ []
    have good : ∀ initializer ∈ walks.initializers.entries model.initializers, ranked initializer →
        ∀ copy : Model FloatBits, Reads (readInitializer copy) (writeInitializer initializer)
          (copy.addInitializer initializer.1 initializer.2) := by
      intro initializer member rank copy
      exact reads_initializer (fits.initializer _ _ ((walks.initializers.mem_entries _ _ _).mp member)) rank copy
    have bad : ∀ initializer ∈ walks.initializers.entries model.initializers, ¬ranked initializer →
        ∀ copy : Model FloatBits, Refuses (readInitializer copy) (writeInitializer initializer) := by
      intro initializer member rank copy
      exact refuses_initializer (fits.initializer _ _ ((walks.initializers.mem_entries _ _ _).mp member))
        (not_not.mp rank) copy
    obtain ⟨name, tensor, found, rank⟩ := flat
    exact Refuses.repeated good bad ⟨(name, tensor), (walks.initializers.mem_entries _ _ _).mpr found, not_not.mpr rank⟩ {}
  have magic : ∀ short, Reads (Reader.take 4 short : Stream (List UInt8)) kMagic kMagic := fun short => Reads.take rfl short
  refine .tail (magic _) ?_
  refine .tail (reads_u32 (by decide)) ?_
  exact .tail (reads_u32 fits.initializers) (tables.head _)

end File

section Sameness

/-- Two nodes that differ in nothing but where their attributes stand in the table. -/
structure NodeSame (first second : Node FloatBits) : Prop where
  name : first.name = second.name
  opTypeStr : first.opTypeStr = second.opTypeStr
  opType : first.opType = second.opType
  inputs : first.inputs = second.inputs
  outputs : first.outputs = second.outputs
  attributes : ∀ key, first.attributes.lookup key = second.attributes.lookup key

/-- The same initializers, the same nodes in the same insertion order, the same
graph inputs and outputs. -/
structure ModelSame (first second : Model FloatBits) : Prop where
  initializers : ∀ name, first.initializers.lookup name = second.initializers.lookup name
  nodes : ∃ ones others, first.graph.nodesInInsertionOrder = .ok ones ∧
    second.graph.nodesInInsertionOrder = .ok others ∧
    List.Forall₂ (fun one other => NodeSame one.node other.node) ones others
  inputs : first.graph.inputs = second.graph.inputs
  outputs : first.graph.outputs = second.graph.outputs

variable {walks : Walks} {walk : FiniteMap.Traversal Text (NodeEntry FloatBits)} {model : Model FloatBits}

theorem reloaded_same {node : Node FloatBits} (typed : node.opType = opTypeFromString node.opTypeStr) :
    NodeSame (reloaded walks node) node where
  name := rfl
  opTypeStr := rfl
  opType := typed.symm
  inputs := rfl
  outputs := rfl
  attributes := walks.attributes.lookup_copy FiniteMap.lookup_emplace_fresh node.attributes

theorem copyTables_initializers (name : Text) :
    (copyTables walks model).initializers.lookup name = model.initializers.lookup name := by
  have only : ∀ (entries : List (Text × Tensor FloatBits)) (copy : Model FloatBits),
      (entries.foldl (fun (copy : Model FloatBits) initializer => copy.addInitializer initializer.1 initializer.2)
        copy).initializers =
      entries.foldl (fun table entry => table.insert entry.1 entry.2) copy.initializers := by
    intro entries
    induction entries with
    | nil => exact fun _ => rfl
    | cons entry entries ih => exact fun copy => ih _
  rw [copyTables, only]
  exact walks.initializers.lookup_copy (fun map key value other _ => lookup_insert_eq map key other value) _ name

theorem copyTables_graph : (copyTables walks model).graph = {} := by
  have only : ∀ (entries : List (Text × Tensor FloatBits)) (copy : Model FloatBits), copy.graph = {} →
      (entries.foldl (fun (copy : Model FloatBits) initializer => copy.addInitializer initializer.1 initializer.2)
        copy).graph = {} := by
    intro entries
    induction entries with
    | nil => exact fun _ same => same
    | cons entry entries ih => exact fun copy same => ih _ same
  exact only _ _ rfl

/-- Every node of the copy was read from the node of that name. -/
def Copies (walks : Walks) (model copy : Model FloatBits) : Prop :=
  ∀ name id node, Graph.stored copy.graph.nodeMap name = some (id, node) →
    ∃ entry, model.graph.nodeMap.lookup name = some entry ∧ node = reloaded walks entry.node

theorem copyNodes {nodes : List (NodeEntry FloatBits)}
    (present : ∀ entry ∈ nodes, model.graph.nodeMap.lookup entry.node.name = some entry) (copy : Model FloatBits)
    (kept : copy.graph.Kept) (copies : Copies walks model copy) :
    (nodes.foldl (copyNode walks walk) copy).graph.Kept ∧ Copies walks model (nodes.foldl (copyNode walks walk) copy) ∧
      (nodes.foldl (copyNode walks walk) copy).graph.insertionOrder =
        copy.graph.insertionOrder ++ nodes.map fun entry => entry.node.name := by
  induction nodes generalizing copy with
  | nil => exact ⟨kept, copies, (List.append_nil _).symm⟩
  | cons entry nodes ih =>
    have here := present entry List.mem_cons_self
    have nextCopies : Copies walks model (copyNode walks walk copy entry) := by
      intro name id node found
      simp only [copyNode] at found
      rw [Graph.stored_addNode] at found
      split at found
      next same =>
        cases found
        exact ⟨entry, same ▸ here, rfl⟩
      next => exact copies name id node found
    obtain ⟨finalKept, finalCopies, order⟩ :=
      ih (fun other member => present other (List.mem_cons_of_mem _ member)) (copyNode walks walk copy entry)
        (kept.addNode rfl) nextCopies
    refine ⟨finalKept, finalCopies, ?_⟩
    rw [List.foldl_cons, order]
    simp [copyNode, Graph.addNode, reloaded, Node.make]

theorem copyNodes_initializers (nodes : List (NodeEntry FloatBits)) (copy : Model FloatBits) :
    (nodes.foldl (copyNode walks walk) copy).initializers = copy.initializers := by
  induction nodes generalizing copy with
  | nil => rfl
  | cons entry nodes ih => exact ih _

private theorem forall₂_imp_mem {α β : Type} {ones : List α} {others : List β} {weak strong : α → β → Prop}
    (each : List.Forall₂ weak ones others)
    (implies : ∀ one ∈ ones, ∀ other ∈ others, weak one other → strong one other) :
    List.Forall₂ strong ones others := by
  induction each with
  | nil => exact .nil
  | cons here _ ih =>
    refine .cons (implies _ List.mem_cons_self _ List.mem_cons_self here) (ih ?_)
    exact fun one oneMember other otherMember =>
      implies one (List.mem_cons_of_mem _ oneMember) other (List.mem_cons_of_mem _ otherMember)

theorem reloadedModel_same (kept : model.graph.Kept) {nodes : List (NodeEntry FloatBits)}
    (listed : model.graph.nodesInInsertionOrder = .ok nodes) : ModelSame (reloadedModel walks walk model nodes) model := by
  obtain ⟨nodes', found, names, present⟩ := Graph.nodes_of_kept kept
  cases listed.symm.trans found
  have start : (copyTables walks model).graph = {} := copyTables_graph
  have begin : Copies walks model (copyTables walks model) := by
    rw [Copies, start]
    exact nofun
  obtain ⟨copyKept, copies, order⟩ := @copyNodes walks walk model nodes present (copyTables walks model)
    (start ▸ Graph.Kept.empty) begin
  rw [start, names] at order
  have reloadedKept : (reloadedModel walks walk model nodes).graph.Kept := copyKept.of_stored rfl rfl rfl
  obtain ⟨ones, read, readNames, stored⟩ := Graph.nodes_of_kept reloadedKept
  have paired : List.Forall₂ Eq (ones.map fun entry => entry.node.name) (nodes.map fun entry => entry.node.name) := by
    rw [List.forall₂_eq_eq_eq, names]
    exact readNames.trans order
  rw [List.forall₂_map_left_iff, List.forall₂_map_right_iff] at paired
  refine ⟨fun name => ?_, ⟨ones, nodes, read, listed, forall₂_imp_mem paired ?_⟩, rfl, rfl⟩
  · exact (congrArg (AList.lookup name) (copyNodes_initializers nodes _)).trans (copyTables_initializers name)
  · intro one oneMember other otherMember same
    obtain ⟨entry, here, read⟩ := copies one.node.name one.id one.node
      (Graph.stored_eq_some.mpr ⟨one, stored one oneMember, rfl, rfl⟩)
    rw [same, present other otherMember] at here
    cases here
    rw [read]
    exact reloaded_same (kept.typed _ _ _ (Graph.stored_eq_some.mpr ⟨other, present other otherMember, rfl, rfl⟩))

end Sameness

/-- No initializer is a scalar: the constructor gives rank 0 no element, the
reader an empty product of dimensions. -/
def Ranked (model : Model FloatBits) : Prop :=
  ∀ name tensor, model.initializers.lookup name = some tensor → tensor.shape ≠ []

section RoundTrip
variable {walks : Walks} {walk : FiniteMap.Traversal Text (NodeEntry FloatBits)} {model : Model FloatBits} {path : Text}

theorem load_reads {bytes : List UInt8} {loaded : Model FloatBits} (reads : Reads (readFile walk path) bytes loaded) :
    load walk path (some bytes) = .ok loaded := by
  have all := reads []
  rw [List.append_nil] at all
  rw [load, all]
  rfl

theorem load_refuses {bytes : List UInt8} (refuses : Refuses (readFile walk path) bytes) :
    ∃ error, load walk path (some bytes) = .error error := by
  obtain ⟨error, all⟩ := refuses []
  rw [List.append_nil] at all
  exact ⟨error, by rw [load, all]; rfl⟩

theorem reload (kept : model.graph.Kept) (fits : Fits model) (ranked : Ranked model) :
    ∃ bytes loaded, save walks path true model = .ok bytes ∧ load walk path (some bytes) = .ok loaded ∧
      ModelSame loaded model := by
  obtain ⟨nodes, listed, _⟩ := Graph.nodes_of_kept kept
  exact ⟨_, _, saved listed, load_reads (reads_file fits kept listed ranked (saved listed)), reloadedModel_same kept listed⟩

theorem reload_fails (kept : model.graph.Kept) (fits : Fits model) (scalar : ¬Ranked model)
    {bytes : List UInt8} (written : save walks path true model = .ok bytes) :
    ∃ error, load walk path (some bytes) = .error error := by
  obtain ⟨nodes, listed, _⟩ := Graph.nodes_of_kept kept
  simp only [Ranked, not_forall, not_not] at scalar
  obtain ⟨name, tensor, found, rank⟩ := scalar
  exact load_refuses (refuses_file fits listed ⟨name, tensor, found, rank⟩ written)

/-- Saving and loading gives back every model without a scalar initializer, and
no other. Node names need not be distinct. -/
theorem load_save_iff (built : model.Built) (fits : Fits model) (walks : Walks)
    (walk : FiniteMap.Traversal Text (NodeEntry FloatBits)) (path : Text) :
    (∃ bytes loaded, save walks path true model = .ok bytes ∧ load walk path (some bytes) = .ok loaded ∧
      ModelSame loaded model) ↔ Ranked model := by
  constructor
  · rintro ⟨bytes, loaded, written, read, _⟩
    by_contra scalar
    obtain ⟨error, failed⟩ := @reload_fails walks walk model path built.kept fits scalar bytes written
    cases read.symm.trans failed
  · exact reload built.kept fits

def keptWalks : Walks := ⟨.kept, .kept, .kept⟩

/-- `alpha = 1.0f`, `transB = 1`, and a list that no operation reads. -/
def gemmAttributes : FiniteMap Text (Attribute FloatBits) :=
  ((∅ : FiniteMap Text (Attribute FloatBits)).insert (text "alpha") (.float 1065353216)).insert (text "transB") (.int 1)
    |>.insert (text "pads") (.ints [1, -2])

def gemmNode : Node FloatBits := Node.make (text "n") (text "Gemm") [text "x", text "w"] [text "y"] gemmAttributes

/-- A weight, and a product of the graph input with it. -/
def oneNode (weight : Tensor FloatBits) : Model FloatBits :=
  Model.addInitializer
    { graph := { Graph.addNode .kept {} gemmNode with inputs := [text "x"], outputs := [text "y"] } } (text "w") weight

theorem oneNode_built (weight : Tensor FloatBits) : (oneNode weight).Built :=
  (((Model.Built.new.addNode .kept (text "n") (text "Gemm") [text "x", text "w"] [text "y"] gemmAttributes).setInputs
    [text "x"]).setOutputs [text "y"]).addInitializer (text "w") weight

theorem gemmNode_fits : NodeFits gemmNode := by
  refine ⟨by decide, by decide, by decide, by decide, by decide, FiniteMap.forall_lookup fun entry member => ?_⟩
  have only : gemmNode.attributes.entries = [⟨text "pads", .ints [1, -2]⟩, ⟨text "transB", .int 1⟩,
      ⟨text "alpha", .float 1065353216⟩] := rfl
  rw [only] at member
  simp only [List.mem_cons, List.not_mem_nil, or_false] at member
  rcases member with rfl | rfl | rfl
  · exact ⟨by decide, by decide⟩
  · exact (by decide : (text "transB").length < 2 ^ 32)
  · exact (by decide : (text "alpha").length < 2 ^ 32)

theorem oneNode_fits {weight : Tensor FloatBits} (small : weight.shape.length < 2 ^ 32) : Fits (oneNode weight) := by
  have one : 1 < 2 ^ 32 := by decide
  refine ⟨one, FiniteMap.forall_lookup ?_, one, FiniteMap.forall_lookup ?_, ⟨one, ?_⟩, ⟨one, ?_⟩⟩
  · intro entry member
    cases List.mem_singleton.mp member
    exact ⟨one, small⟩
  · intro entry member
    have only : (oneNode weight).graph.nodeMap.entries = [⟨text "n", ⟨0, gemmNode, [], []⟩⟩] := rfl
    rw [only] at member
    cases List.mem_singleton.mp member
    exact gemmNode_fits
  · exact (by decide : ∀ name ∈ [text "x"], name.length < 2 ^ 32)
  · exact (by decide : ∀ name ∈ [text "y"], name.length < 2 ^ 32)

/-- `Tensor({1}, {1.0f})`. -/
def oneElement : Tensor FloatBits := ⟨[1], [1065353216], rfl, by decide⟩

theorem load_save_oneElement : ∃ bytes loaded, save keptWalks [] true (oneNode oneElement) = .ok bytes ∧
    load .kept [] (some bytes) = .ok loaded ∧ ModelSame loaded (oneNode oneElement) := by
  refine (load_save_iff (oneNode_built oneElement) (oneNode_fits (by decide)) keptWalks .kept []).mpr ?_
  apply FiniteMap.forall_lookup
  intro entry member
  cases List.mem_singleton.mp member
  exact List.cons_ne_nil _ _

/-- A default-constructed tensor among the initializers is written and cannot be
read: the reader wants the one element an empty product of dimensions counts. -/
theorem load_save_scalar : ¬∀ model : Model FloatBits, model.Built → model.graph.insertionOrder.Nodup → Fits model →
    ∀ walks walk path, ∃ bytes loaded, save walks path true model = .ok bytes ∧
      load walk path (some bytes) = .ok loaded ∧ ModelSame loaded model := by
  intro every
  obtain ⟨bytes, loaded, written, read, _⟩ := every (oneNode .empty) (oneNode_built .empty) (by decide)
    (oneNode_fits (by decide)) keptWalks .kept []
  have scalar : ¬Ranked (oneNode .empty) := fun ranked => ranked (text "w") .empty rfl rfl
  obtain ⟨error, failed⟩ := reload_fails (oneNode_built .empty).kept (oneNode_fits (by decide)) scalar written
  cases read.symm.trans failed

end RoundTrip

end ModelLoader
end FromScratch.Inference
