import FromScratch.Proofs.ModelFormat

/-! What the reader accepts. Every table of an accepted file fits the counts of
the format and no initializer is a scalar, whatever the file repeats or leaves
over, so an accepted model is one that saving and loading gives back. -/

namespace FromScratch.Inference
open Lib (FiniteMap Reader ofLittleEndian ofLittleEndian_lt)
open Lib.Reader (Yields times repeated)
open Lib.FiniteMap (lookup_insert_eq)

namespace ModelLoader

section Fields

theorem yields_u32 : Yields readU32 (· < 2 ^ 32) := by
  refine (Yields.take 4 _).bind fun bytes long => Yields.pure ?_
  have bound := ofLittleEndian_lt bytes
  rwa [long] at bound

theorem yields_string : Yields readString fun s => s.length < 2 ^ 32 :=
  yields_u32.bind fun len small => (Yields.take len _).mono fun _ long => long ▸ small

theorem yields_strings : Yields readStrings fun names => names.length < 2 ^ 32 ∧ ∀ name ∈ names, name.length < 2 ^ 32 :=
  yields_u32.bind fun count small => (yields_string.times count).mono fun _ found => ⟨found.1 ▸ small, found.2⟩

end Fields

/-- What is known of the attributes read so far, with some still to come. -/
structure AttributesRead (left : Nat) (attrs : FiniteMap Text (Attribute FloatBits)) : Prop where
  few : attrs.keys.length + left < 2 ^ 32
  attr : ∀ key value, attrs.lookup key = some value → AttributeFits key value

theorem AttributesRead.emplace {left : Nat} {attrs : FiniteMap Text (Attribute FloatBits)}
    (read : AttributesRead (left + 1) attrs) {key : Text} {value : Attribute FloatBits} (fits : AttributeFits key value) :
    AttributesRead left (attrs.emplace key value) where
  few := by
    have grown := FiniteMap.keys_emplace_length_le attrs key value
    have room := read.few
    omega
  attr other found here := by
    obtain old | ⟨rfl, rfl⟩ := FiniteMap.lookup_emplace_cases here
    · exact read.attr other found old
    · exact fits

theorem yields_attribute (left : Nat) (attrs : FiniteMap Text (Attribute FloatBits))
    (read : AttributesRead (left + 1) attrs) : Yields (readAttribute attrs) (AttributesRead left) := by
  refine yields_string.bind fun name short => (Yields.any _).bind fun tag _ => ?_
  split
  · exact (Yields.any _).bind fun value _ => Yields.pure (read.emplace short)
  split
  · exact (Yields.any _).bind fun value _ => Yields.pure (read.emplace short)
  split
  · refine yields_u32.bind fun count small => ((Yields.any _).times count).bind fun values long => Yields.pure ?_
    exact read.emplace ⟨short, long.1 ▸ small⟩
  · exact Yields.fails

structure InitializersRead (left : Nat) (model : Model FloatBits) : Prop where
  graph : model.graph = {}
  few : model.initializers.keys.length + left < 2 ^ 32
  initializer : ∀ name tensor, model.initializers.lookup name = some tensor → InitializerFits name tensor
  ranked : Ranked model

theorem yields_initializer (left : Nat) (model : Model FloatBits) (read : InitializersRead (left + 1) model) :
    Yields (readInitializer model) (InitializersRead left) := by
  refine yields_string.bind fun name short => yields_u32.bind fun ndim small => ?_
  refine ((Yields.any _).times ndim).bind fun dims counted => ((Yields.any _).times _).bind fun data long => ?_
  refine (Yields.lift fun tensor made => made).bind fun tensor made => Yields.pure ?_
  obtain ⟨shape, values⟩ := Tensor.ofValues_ok made
  -- the reader counts one element for no dimension, the constructor none
  have rank : tensor.shape ≠ [] := by
    intro scalar
    have size := tensor.sized
    rw [values, long.1, ← shape, scalar] at size
    exact absurd size (by decide)
  have either : ∀ other found, (model.addInitializer name tensor).initializers.lookup other = some found →
      model.initializers.lookup other = some found ∨ other = name ∧ found = tensor := by
    intro other found here
    rw [Model.addInitializer, lookup_insert_eq] at here
    split at here
    next same => exact .inr ⟨same, (Option.some.inj here).symm⟩
    next => exact .inl here
  refine ⟨read.graph, ?_, fun other found here => ?_, fun other found here => ?_⟩
  · have grown := FiniteMap.keys_insert_length_le model.initializers name tensor
    have room := read.few
    simp only [Model.addInitializer]
    omega
  · obtain old | ⟨rfl, rfl⟩ := either other found here
    · exact read.initializer other found old
    · exact ⟨short, by rw [shape, counted.1]; exact small⟩
  · obtain old | ⟨rfl, rfl⟩ := either other found here
    · exact read.ranked other found old
    · exact rank

structure NodesRead (left : Nat) (model : Model FloatBits) : Prop where
  kept : model.graph.Kept
  few : model.graph.insertionOrder.length + left < 2 ^ 32
  node : ∀ name id node, Graph.stored model.graph.nodeMap name = some (id, node) → NodeFits node
  tables : ∃ earlier : Model FloatBits, InitializersRead 0 earlier ∧ model.initializers = earlier.initializers

theorem yields_node (walk : FiniteMap.Traversal Text (NodeEntry FloatBits)) (left : Nat) (model : Model FloatBits)
    (read : NodesRead (left + 1) model) : Yields (readNode walk model) (NodesRead left) := by
  refine yields_string.bind fun name shortName => yields_string.bind fun opType shortType => ?_
  refine yields_strings.bind fun inputs ins => yields_strings.bind fun outputs outs => ?_
  refine yields_u32.bind fun numAttrs small => ?_
  have start : AttributesRead numAttrs ∅ := ⟨by rw [AList.keys_empty]; simpa using small, nofun⟩
  refine (Yields.repeated yields_attribute numAttrs ∅ start).bind fun attrs attributes => Yields.pure ?_
  refine ⟨read.kept.addNode rfl, ?_, fun other id node here => ?_, read.tables⟩
  · have room := read.few
    simp only [Graph.addNode, List.length_append, List.length_singleton]
    omega
  · rw [Graph.stored_addNode] at here
    split at here
    · cases here
      exact ⟨shortName, shortType, ins, outs, attributes.few, attributes.attr⟩
    · exact read.node other id node here

/-- What every accepted file holds. -/
structure Loaded (model : Model FloatBits) : Prop where
  kept : model.graph.Kept
  fits : Fits model
  ranked : Ranked model

theorem yields_model (walk : FiniteMap.Traversal Text (NodeEntry FloatBits)) : Yields (readModel walk) Loaded := by
  refine yields_u32.bind fun numInitializers few => ?_
  have noTables : InitializersRead numInitializers {} := ⟨rfl, by simpa using few, nofun, nofun⟩
  refine (Yields.repeated yields_initializer numInitializers {} noTables).bind fun tables read => ?_
  refine yields_u32.bind fun numNodes small => ?_
  have noNodes : NodesRead numNodes tables := by
    refine ⟨read.graph ▸ Graph.Kept.empty, ?_, ?_, tables, read, rfl⟩
    · rw [read.graph]
      simpa using small
    · rw [read.graph]
      exact nofun
  refine (Yields.repeated (yields_node walk) numNodes tables noNodes).bind fun model nodes => ?_
  refine yields_strings.bind fun graphInputs ins => yields_strings.bind fun graphOutputs outs => Yields.pure ?_
  obtain ⟨earlier, stored, same⟩ := nodes.tables
  refine ⟨nodes.kept.of_stored rfl rfl rfl, ⟨?_, ?_, nodes.few, ?_, ins, outs⟩, ?_⟩
  · rw [same]
    exact stored.few
  · rw [same]
    exact stored.initializer
  · intro name entry found
    exact nodes.node name entry.id entry.node (Graph.stored_eq_some.mpr ⟨entry, found, rfl, rfl⟩)
  · rw [Ranked, same]
    exact stored.ranked

theorem load_yields {walk : FiniteMap.Traversal Text (NodeEntry FloatBits)} {path : Text} {file : Option (List UInt8)}
    {model : Model FloatBits} {holds : Model FloatBits → Prop} (each : Yields (readModel walk) holds)
    (accepted : load walk path file = .ok model) : holds model := by
  have yields : Yields (readFile walk path) holds := by
    refine (Yields.any _).bind fun magic _ => ?_
    simp only []
    split
    · exact Yields.fails_bind
    refine (Yields.any _).bind fun version _ => ?_
    split
    · exact Yields.fails_bind
    · exact each
  cases file with
  | none => cases accepted
  | some bytes =>
    obtain ⟨rest, read⟩ := load_accepts accepted
    exact yields bytes model rest read

theorem load_accepted {walk : FiniteMap.Traversal Text (NodeEntry FloatBits)} {path : Text} {file : Option (List UInt8)}
    {model : Model FloatBits} (accepted : load walk path file = .ok model) : Loaded model :=
  load_yields (yields_model walk) accepted

/-- Saving an accepted model gives a file that loads again, as the same model. -/
theorem reload_accepted {walk : FiniteMap.Traversal Text (NodeEntry FloatBits)} {path : Text} {file : Option (List UInt8)}
    {model : Model FloatBits} (accepted : load walk path file = .ok model) (walks : Walks)
    (again : FiniteMap.Traversal Text (NodeEntry FloatBits)) (target : Text) :
    ∃ bytes reloaded, save walks target true model = .ok bytes ∧ load again target (some bytes) = .ok reloaded ∧
      ModelSame reloaded model := by
  have read := load_accepted accepted
  exact reload read.kept read.fits read.ranked

/-- A file that names its weight twice, ends in a stray byte and has no node. -/
def repeatedWeight : List UInt8 :=
  kMagic ++ writeU32 1 ++ writeU32 2 ++ writeInitializer (text "w", oneElement) ++
    writeInitializer (text "w", ⟨[0], [], rfl, by decide⟩) ++ writeU32 0 ++ writeStrings [text "x"] ++
    writeStrings [text "w"] ++ [255]

def lastWeight : Model FloatBits where
  graph := { inputs := [text "x"], outputs := [text "w"] }
  initializers := AList.insert (text "w") ⟨[0], [], rfl, by decide⟩ ∅

theorem reload_repeatedWeight : ∃ bytes reloaded, save keptWalks [] true lastWeight = .ok bytes ∧
    load .kept [] (some bytes) = .ok reloaded ∧ ModelSame reloaded lastWeight := by
  have accepted : load .kept [] (some repeatedWeight) = .ok lastWeight := by rfl
  exact reload_accepted accepted keptWalks .kept []

end ModelLoader
end FromScratch.Inference
