import Mathlib.Data.List.AList

/-! The whole-map updates a `range` loop performs on a map it is reading,
rewriting every value and deleting the keys that fail a test, the insertion that
keeps an existing entry, and the order in which a hash table is walked, which is
any order of its keys. All are stated through `lookup`. -/

namespace FromScratch.Lib

abbrev FiniteMap (κ : Type u) (ν : Type v) := AList fun _ : κ => ν

namespace FiniteMap
variable {κ : Type u} {ν : Type v}

def mapValues (f : κ → ν → ν) (map : FiniteMap κ ν) : FiniteMap κ ν :=
  ⟨map.entries.map fun entry => ⟨entry.1, f entry.1 entry.2⟩, map.nodupKeys.map₂ f map.entries⟩

def keepKeys (keep : κ → Bool) (map : FiniteMap κ ν) : FiniteMap κ ν :=
  ⟨map.entries.filter fun entry => keep entry.1, map.nodupKeys.sublist List.filter_sublist⟩

@[simp] theorem keys_mapValues (f : κ → ν → ν) (map : FiniteMap κ ν) : (mapValues f map).keys = map.keys := by
  simp only [AList.keys, List.keys, mapValues, List.map_map]
  rfl

/-- One order in which a hash table may hand out its keys. It may depend on
everything in the table. -/
structure Traversal (κ : Type u) (ν : Type v) where
  keys : FiniteMap κ ν → List κ
  perm : ∀ map, (keys map).Perm map.keys

theorem Traversal.mem_keys (order : Traversal κ ν) (map : FiniteMap κ ν) (key : κ) :
    key ∈ order.keys map ↔ key ∈ map :=
  (order.perm map).mem_iff.trans AList.mem_keys

theorem Traversal.nodup (order : Traversal κ ν) (map : FiniteMap κ ν) : (order.keys map).Nodup :=
  (order.perm map).nodup_iff.mpr map.nodupKeys

/-- The order in which the entries happen to be kept. -/
def Traversal.kept : Traversal κ ν := ⟨AList.keys, fun _ => .refl _⟩

variable [DecidableEq κ]

def emplace (map : FiniteMap κ ν) (key : κ) (value : ν) : FiniteMap κ ν :=
  if key ∈ map then map else map.insert key value

def adjust (map : FiniteMap κ ν) (key : κ) (f : ν → ν) : FiniteMap κ ν :=
  map.mapValues fun other value => if other = key then f value else value

/-- What a loop over the table sees, entry by entry. -/
def Traversal.entries (order : Traversal κ ν) (map : FiniteMap κ ν) : List (κ × ν) :=
  (order.keys map).filterMap fun key => (map.lookup key).map (key, ·)

@[simp] theorem lookup_mapValues (f : κ → ν → ν) (map : FiniteMap κ ν) (key : κ) :
    (mapValues f map).lookup key = (map.lookup key).map (f key) :=
  List.dlookup_map₂ (f := f) key

private theorem dlookup_filter (keep : κ → Bool) (entries : List (Sigma fun _ : κ => ν)) (key : κ) :
    (entries.filter fun entry => keep entry.1).dlookup key =
      if keep key then entries.dlookup key else none := by
  induction entries with
  | nil => simp
  | cons entry entries ih =>
    obtain ⟨other, value⟩ := entry
    by_cases same : key = other
    · subst other
      by_cases kept : keep key <;> simp_all
    · by_cases kept : keep other <;> simp_all

@[simp] theorem lookup_keepKeys (keep : κ → Bool) (map : FiniteMap κ ν) (key : κ) :
    (keepKeys keep map).lookup key = if keep key then map.lookup key else none :=
  dlookup_filter keep map.entries key

theorem lookup_insert_eq (map : FiniteMap κ ν) (key other : κ) (value : ν) :
    (map.insert key value).lookup other = if other = key then some value else map.lookup other := by
  split
  next same => subst other; exact AList.lookup_insert map
  next different => exact AList.lookup_insert_ne different

theorem lookup_erase_eq (map : FiniteMap κ ν) (key other : κ) :
    (map.erase key).lookup other = if other = key then none else map.lookup other := by
  split
  next same => subst other; exact AList.lookup_erase key map
  next different => exact AList.lookup_erase_ne different

/-- What a table holds of the items each of its values stands for. -/
def items (f : κ → ν → List β) (map : FiniteMap κ ν) : List β := map.entries.flatMap fun entry => f entry.1 entry.2

theorem items_insert (f : κ → ν → List β) (map : FiniteMap κ ν) (key : κ) (value : ν) :
    items f (map.insert key value) = f key value ++ items f (map.erase key) := rfl

/-- The items of one key come first. -/
theorem items_perm {f : κ → ν → List β} {key : κ} {nothing : ν} (empty : f key nothing = []) (map : FiniteMap κ ν) :
    (items f map).Perm (f key ((map.lookup key).getD nothing) ++ items f (map.erase key)) := by
  cases found : map.lookup key with
  | none =>
    have missing : key ∉ map.entries.keys := AList.lookup_eq_none.mp found
    have same : (map.erase key).entries = map.entries := List.kerase_of_notMem_keys missing
    rw [Option.getD_none, empty, List.nil_append, items, items, same]
  | some value =>
    have member : key ∈ map.entries.keys := AList.lookup_isSome.mp (by rw [found]; rfl)
    obtain ⟨kept, before, after, fresh, split, rest⟩ := List.exists_of_kerase member
    have same : kept = value := by
      have listed : ⟨key, kept⟩ ∈ map.entries := by
        rw [split]
        exact List.mem_append_right _ List.mem_cons_self
      exact Option.some.inj ((List.mem_dlookup map.nodupKeys listed).symm.trans found)
    subst same
    have erased : (map.erase key).entries = before ++ after := rest
    rw [items, items, erased, split, List.flatMap_append, List.flatMap_append, List.flatMap_cons]
    exact List.perm_append_comm_assoc ..

theorem lookup_emplace (map : FiniteMap κ ν) (key other : κ) (value : ν) :
    (map.emplace key value).lookup other =
      if other = key then some ((map.lookup key).getD value) else map.lookup other := by
  by_cases present : key ∈ map
  · obtain ⟨found, same⟩ := Option.isSome_iff_exists.mp (AList.lookup_isSome.mpr present)
    by_cases equal : other = key
    · subst equal
      simp [emplace, present, same]
    · simp [emplace, present, equal]
  · have missing := AList.lookup_eq_none.mpr present
    simp [emplace, present, lookup_insert_eq, missing]

theorem lookup_adjust (map : FiniteMap κ ν) (key other : κ) (f : ν → ν) :
    (map.adjust key f).lookup other = if other = key then (map.lookup key).map f else map.lookup other := by
  by_cases equal : other = key
  · subst equal
    simp [adjust]
  · simp [adjust, equal]

theorem mem_iff_lookup (map : FiniteMap κ ν) (key : κ) : key ∈ map ↔ ∃ value, map.lookup key = some value := by
  rw [← AList.lookup_isSome, Option.isSome_iff_exists]

@[simp] theorem mem_adjust (map : FiniteMap κ ν) (key other : κ) (f : ν → ν) :
    other ∈ map.adjust key f ↔ other ∈ map := by
  change other ∈ (map.adjust key f).keys ↔ other ∈ map.keys
  rw [adjust, keys_mapValues]

theorem forall_lookup {map : FiniteMap κ ν} {holds : κ → ν → Prop} (each : ∀ entry ∈ map.entries, holds entry.1 entry.2)
    (key : κ) (value : ν) (found : map.lookup key = some value) : holds key value :=
  each ⟨key, value⟩ (AList.mem_lookup_iff.mp found)

theorem Traversal.mem_entries (order : Traversal κ ν) (map : FiniteMap κ ν) (key : κ) (value : ν) :
    (key, value) ∈ order.entries map ↔ map.lookup key = some value := by
  simp only [entries, List.mem_filterMap, Option.map_eq_some_iff, Prod.mk.injEq]
  constructor
  · rintro ⟨other, _, found, same, rfl, rfl⟩
    exact same
  · intro same
    exact ⟨key, (order.mem_keys map key).mpr ((mem_iff_lookup map key).mpr ⟨value, same⟩), value, same, rfl, rfl⟩

theorem Traversal.entries_keys (order : Traversal κ ν) (map : FiniteMap κ ν) :
    (order.entries map).map Prod.fst = order.keys map := by
  have visit : ∀ keys : List κ, (∀ key ∈ keys, key ∈ map) →
      (keys.filterMap fun key => (map.lookup key).map (key, ·)).map Prod.fst = keys := by
    intro keys
    induction keys with
    | nil => intro _; rfl
    | cons key keys ih =>
      intro present
      obtain ⟨value, same⟩ := (mem_iff_lookup map key).mp (present key List.mem_cons_self)
      simp [same, ih fun other member => present other (List.mem_cons_of_mem _ member)]
  exact visit _ fun key member => (order.mem_keys map key).mp member

theorem Traversal.entries_length (order : Traversal κ ν) (map : FiniteMap κ ν) :
    (order.entries map).length = map.keys.length := by
  rw [← (order.perm map).length_eq, ← order.entries_keys, List.length_map]

/-- A table filled with entries of distinct keys holds exactly those, however it
treats a key it already has. -/
theorem lookup_foldl_fresh {put : FiniteMap κ ν → κ → ν → FiniteMap κ ν}
    (puts : ∀ map key value other, map.lookup key = none →
      (put map key value).lookup other = if other = key then some value else map.lookup other)
    {entries : List (κ × ν)} (distinct : (entries.map Prod.fst).Nodup) {map : FiniteMap κ ν}
    (absent : ∀ entry ∈ entries, map.lookup entry.1 = none) (key : κ) (value : ν) :
    (entries.foldl (fun map entry => put map entry.1 entry.2) map).lookup key = some value ↔
      (key, value) ∈ entries ∨ map.lookup key = some value := by
  induction entries generalizing map with
  | nil => simp
  | cons entry entries ih =>
    rw [List.map_cons, List.nodup_cons] at distinct
    have placed := puts map entry.1 entry.2
    have here := absent entry List.mem_cons_self
    have still : ∀ other ∈ entries, (put map entry.1 entry.2).lookup other.1 = none := by
      intro other member
      have different : other.1 ≠ entry.1 := fun same => distinct.1 (same ▸ List.mem_map_of_mem member)
      rw [placed other.1 here, if_neg different]
      exact absent other (List.mem_cons_of_mem _ member)
    rw [List.foldl_cons, ih distinct.2 still, placed key here, List.mem_cons]
    by_cases same : key = entry.1
    · subst same
      have missing : (entry.1, value) ∉ entries := fun member => distinct.1 (List.mem_map.mpr ⟨_, member, rfl⟩)
      simp only [missing, here, if_true, Option.some.injEq, false_or, or_false, reduceCtorEq]
      exact ⟨fun equal => equal ▸ rfl, fun equal => congrArg Prod.snd equal.symm⟩
    · have other : (key, value) ≠ entry := fun equal => same (congrArg Prod.fst equal)
      simp [same, other]

/-- Copying a table entry by entry, in any order. -/
theorem Traversal.lookup_copy (order : Traversal κ ν) {put : FiniteMap κ ν → κ → ν → FiniteMap κ ν}
    (puts : ∀ map key value other, map.lookup key = none →
      (put map key value).lookup other = if other = key then some value else map.lookup other)
    (map : FiniteMap κ ν) (key : κ) :
    ((order.entries map).foldl (fun map entry => put map entry.1 entry.2) ∅).lookup key = map.lookup key := by
  apply Option.ext
  intro value
  have distinct : ((order.entries map).map Prod.fst).Nodup := by rw [order.entries_keys]; exact order.nodup map
  rw [lookup_foldl_fresh puts distinct fun _ _ => rfl, order.mem_entries]
  exact or_iff_left nofun

theorem keys_insert_length_le (map : FiniteMap κ ν) (key : κ) (value : ν) :
    (map.insert key value).keys.length ≤ map.keys.length + 1 := by
  rw [AList.keys_insert, List.length_cons]
  exact Nat.succ_le_succ (List.length_erase_le)

theorem keys_emplace_length_le (map : FiniteMap κ ν) (key : κ) (value : ν) :
    (map.emplace key value).keys.length ≤ map.keys.length + 1 := by
  rw [emplace]
  split
  · exact Nat.le_succ _
  · exact keys_insert_length_le map key value

theorem lookup_emplace_cases {map : FiniteMap κ ν} {key other : κ} {value found : ν}
    (here : (map.emplace key value).lookup other = some found) :
    map.lookup other = some found ∨ other = key ∧ found = value := by
  rw [lookup_emplace] at here
  split at here
  next same =>
    subst same
    cases old : map.lookup other with
    | none => rw [old] at here; exact .inr ⟨rfl, (Option.some.inj here).symm⟩
    | some kept => rw [old] at here; exact .inl here
  next => exact .inl here

theorem lookup_emplace_fresh (map : FiniteMap κ ν) (key : κ) (value : ν) (other : κ) (absent : map.lookup key = none) :
    (map.emplace key value).lookup other = if other = key then some value else map.lookup other := by
  rw [lookup_emplace, absent, Option.getD_none]

theorem keys_eq_nil_iff (map : FiniteMap κ ν) : map.keys = [] ↔ ∀ key, map.lookup key = none := by
  constructor
  · intro empty key
    rw [AList.lookup_eq_none, AList.mem_keys, empty]
    exact List.not_mem_nil
  · intro missing
    apply List.eq_nil_iff_forall_not_mem.mpr
    intro key member
    exact AList.lookup_eq_none.mp (missing key) (AList.mem_keys.mpr member)

theorem eq_empty_iff (map : FiniteMap κ ν) : map = ∅ ↔ ∀ key, map.lookup key = none := by
  rw [← keys_eq_nil_iff]
  constructor
  · rintro rfl; rfl
  · intro empty
    apply AList.ext
    simpa [AList.keys, List.keys] using empty

end FiniteMap
end FromScratch.Lib
