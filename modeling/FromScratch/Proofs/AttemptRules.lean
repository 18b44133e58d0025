import FromScratch.MapReduce.Storage

/-! What one attempt may rely on while others work in the same directories, and
what it owes them. Everybody publishes only good content, keeps to temporary
files of its own, and removes nothing but spill entries. -/

namespace FromScratch.Proofs.AttemptRules
open FromScratch.MapReduce Lib Program

/-- The entry a request takes out of its directory. -/
def takes : Request → Option Path
  | .remove path | .rename path _ => some path
  | _ => none

/-- The terms the attempts work under: whether requests may be refused (also
because an entry has gone), what may be published under each name, and what is
asked of taking an entry away and of the file an attempt opens after writing it. -/
structure Terms where
  fallible : Prop
  good : Name → GoString → Prop
  allowed : World → Nat → Request → Prop
  careful : ∀ w me request path, allowed w me request → takes request = some path →
    fallible ∨ ∀ other, other ≠ me → path ∉ (w.notes other).needs
  faithful : ∀ w me name found own, allowed w me (.openFile (.file name)) → w.files.lookup (.file name) = some found →
    good name found → (w.notes me).wrote.lookup name = some own → good name own → found = own

/-- Not a temporary file of somebody else. -/
def Mine (me : Nat) (path : Path) : Prop := ∀ target creator serial, path = .temp target creator serial → creator = me

/-- How the others may change the world under process `me`. -/
structure Undisturbed (terms : Terms) (me : Nat) (w w' : World) : Prop where
  notes : w'.notes me = w.notes me
  files : ∀ path, Mine me path → w'.files.lookup path = w.files.lookup path ∨
    (∃ name bytes, path = .file name ∧ w'.files.lookup path = some bytes ∧ terms.good name bytes) ∨
    (path.isSpill = true ∧ w'.files.lookup path = none ∧ (terms.fallible ∨ path ∉ (w.notes me).needs))
  others : ∀ path, ¬ Mine me path → (w.files.lookup path).isSome = true →
    (w'.files.lookup path).isSome = true ∨ terms.fallible ∨ path ∉ (w.notes me).needs

theorem Undisturbed.refl (terms : Terms) (me : Nat) (w : World) : Undisturbed terms me w w :=
  ⟨rfl, fun _ _ => Or.inl rfl, fun _ _ present => Or.inl present⟩

theorem Undisturbed.trans {terms : Terms} {me : Nat} {first second third : World} (early : Undisturbed terms me first second)
    (late : Undisturbed terms me second third) : Undisturbed terms me first third := by
  have notes := early.notes
  refine ⟨late.notes.trans notes, fun path mine => ?_, fun path other present => ?_⟩
  · rcases late.files path mine with same | ⟨name, bytes, named, found, good⟩ | ⟨spill, gone, free⟩
    · rw [same]
      exact early.files path mine
    · exact Or.inr (Or.inl ⟨name, bytes, named, found, good⟩)
    · rw [notes] at free
      exact Or.inr (Or.inr ⟨spill, gone, free⟩)
  · rcases early.others path other present with present | free
    · have onward := late.others path other present
      rwa [notes] at onward
    · exact Or.inr free

/-- A request refused, or a file that breaks off while it is read, an input between two lines. -/
def Falters (me : Nat) (w : World) (request : Request) (reply : Reply request) (w' : World) : Prop :=
  World.Fault w request reply w' ∨ w.Breaks me request reply w' ∧ w.LineWise request reply

/-- A step of process `me` as the terms admit it. -/
def Serves (terms : Terms) (me : Nat) (w : World) (request : Request) (reply : Reply request) (w' : World) : Prop :=
  terms.allowed w me request ∧
    (w.perform me request = (reply, w') ∨ terms.fallible ∧ Falters me w request reply w')

theorem keepsLines_falters {me : Nat} {w w' : World} {request : Request} {reply : Reply request}
    (served : w.KeepsLines me request reply w') : w.perform me request = (reply, w') ∨ Falters me w request reply w' := by
  rcases served with ⟨(performed | fault) | broken, lines⟩
  · exact .inl performed
  · exact .inr (.inl fault)
  · exact .inr (.inr ⟨broken, lines⟩)

theorem perform_keepsLines (me : Nat) (w : World) (request : Request) :
    w.KeepsLines me request (w.perform me request).1 (w.perform me request).2 := by
  refine ⟨.inl (.inl rfl), ?_⟩
  cases request with
  | openFile path =>
    cases path with
    | input name =>
      simp only [World.perform]
      split
      next => trivial
      next bytes found =>
        intro whole there
        cases found.symm.trans there
        exact List.prefix_rfl
    | file | temp => trivial
  | mkdirAll | readDir | createTemp | write | close | rename | remove | count => trivial

def rules (terms : Terms) (me : Nat) : Rules World Request Reply where
  exec := Serves terms me
  rely := Undisturbed terms me
  guarantee w w' := ∀ other, other ≠ me → Undisturbed terms other w w'
  rely_refl := Undisturbed.refl terms me
  rely_trans _ _ _ := Undisturbed.trans

theorem rules_compatible (terms : Terms) (i j : Nat) (w w' : World) (different : i ≠ j)
    (kept : (rules terms i).guarantee w w') : (rules terms j).rely w w' := kept j (Ne.symm different)

section Names

@[simp] theorem isSpill_input (name : GoString) : (Path.input name).isSpill = false := rfl

@[simp] theorem isSpill_part (m p : Nat) : (Path.file (.part m p)).isSpill = false := by
  simp [Path.isSpill, Path.base, Name.base, String.toList_append]

@[simp] theorem isSpill_out (p : Nat) : (Path.file (.out p)).isSpill = false := by
  simp [Path.isSpill, Path.base, Name.base, String.toList_append]

@[simp] theorem isSpill_spill (m n p : Nat) : (Path.file (.spill m n p)).isSpill = true := by
  simp [Path.isSpill, Path.base, Name.base, String.toList_append]

end Names

section Worlds
variable (w : World) (me : Nat)

@[simp] theorem note_files (change : Notes → Notes) : (w.note me change).files = w.files := rfl

@[simp] theorem note_notes (change : Notes → Notes) : (w.note me change).notes me = change (w.notes me) := by
  simp [World.note]

theorem note_notes_of_ne {other : Nat} (different : other ≠ me) (change : Notes → Notes) :
    (w.note me change).notes other = w.notes other := by
  simp [World.note, Function.update_of_ne different]

@[simp] theorem append_notes (path : Path) (bytes : GoString) : (w.append path bytes).notes = w.notes := by
  unfold World.append
  split <;> rfl

theorem append_lookup (path other : Path) (bytes : GoString) : (w.append path bytes).files.lookup other =
    if other = path then (w.files.lookup path).map (· ++ bytes) else w.files.lookup other := by
  unfold World.append
  split
  next content found =>
    simp only [FiniteMap.lookup_insert_eq, found, Option.map_some]
  next missing =>
    split
    next same => rw [same, missing, Option.map_none]
    next => rfl

theorem perform_notes_of_ne {other : Nat} (different : other ≠ me) (request : Request) :
    (w.perform me request).2.notes other = w.notes other := by
  cases request with
  | mkdirAll | close | count => rfl
  | write temp bytes => simp [World.perform]
  | readDir | createTemp => simp only [World.perform, note_notes_of_ne _ _ different]
  | openFile | remove | rename =>
    simp only [World.perform]
    split
    · rfl
    · simp only [note_notes_of_ne _ _ different]

end Worlds

/-- The requests that change files: only those an attempt may make. -/
def Proper (terms : Terms) (me : Nat) (w : World) : Request → Prop
  | .write temp _ => ∃ target serial, temp = .temp target me serial
  | .rename temp target => (∃ target serial, temp = .temp target me serial) ∧
      ∀ bytes, w.files.lookup temp = some bytes → terms.good target bytes
  | .remove path => (∃ target serial, path = .temp target me serial) ∨ path.isSpill = true
  | _ => True

private theorem temp_not_mine {me other : Nat} (different : other ≠ me) {path : Path} (mine : Mine other path)
    {target : Name} {serial : Nat} : path ≠ .temp target me serial := by
  rintro rfl
  exact different (mine _ _ _ rfl).symm

theorem perform_guarantee {terms : Terms} {me : Nat} {w : World} {request : Request} (allowed : terms.allowed w me request)
    (proper : Proper terms me w request) : (rules terms me).guarantee w (w.perform me request).2 := by
  intro other different
  have quiet (same : (w.perform me request).2.files = w.files) :
      Undisturbed terms other w (w.perform me request).2 := by
    refine ⟨perform_notes_of_ne w me different request, fun path _ => Or.inl ?_, fun path _ present => Or.inl ?_⟩
    · rw [same]
    · rw [same]; exact present
  have free (path : Path) (taken : takes request = some path) : terms.fallible ∨ path ∉ (w.notes other).needs :=
    (terms.careful w me request path allowed taken).imp_right fun free => free other different
  cases request with
  | mkdirAll | readDir | close | count => exact quiet rfl
  | openFile opened =>
    apply quiet
    simp only [World.perform]
    split <;> rfl
  | createTemp target =>
    have others := perform_notes_of_ne w me different (.createTemp target)
    refine ⟨others, fun path mine => Or.inl ?_, fun path _ present => Or.inl ?_⟩
    · have elsewhere : path ≠ .temp target me w.serial := temp_not_mine different mine
      simp [World.perform, elsewhere]
    · simp only [World.perform, note_files, FiniteMap.lookup_insert_eq]
      split
      next => rfl
      next => exact present
  | write temp bytes =>
    obtain ⟨target, serial, rfl⟩ := proper
    have others := perform_notes_of_ne w me different (.write (.temp target me serial) bytes)
    refine ⟨others, fun path mine => Or.inl ?_, fun path _ present => Or.inl ?_⟩
    · simp [World.perform, append_lookup, temp_not_mine different mine]
    · simp only [World.perform, append_lookup]
      split
      next same => subst same; simpa using present
      next => exact present
  | remove removed =>
    simp only [World.perform]
    split
    next => exact Undisturbed.refl ..
    next =>
      refine ⟨by simp only [note_notes_of_ne _ _ different], fun path mine => ?_, fun path _ present => ?_⟩
      · simp only [note_files, FiniteMap.lookup_erase_eq]
        split
        next same =>
          subst same
          rcases proper with ⟨target, serial, rfl⟩ | spill
          · exact absurd rfl (temp_not_mine different mine)
          · exact Or.inr (Or.inr ⟨spill, rfl, free path rfl⟩)
        next => exact Or.inl rfl
      · simp only [note_files, FiniteMap.lookup_erase_eq]
        split
        next same => subst same; exact Or.inr (free path rfl)
        next => exact Or.inl present
  | rename temp target =>
    obtain ⟨⟨_, _, rfl⟩, good⟩ := proper
    simp only [World.perform]
    split
    next => exact Undisturbed.refl ..
    next bytes found =>
      refine ⟨by simp only [note_notes_of_ne _ _ different], fun path mine => ?_, fun path _ present => ?_⟩
      · simp only [note_files, FiniteMap.lookup_insert_eq, FiniteMap.lookup_erase_eq,
          if_neg (temp_not_mine different mine)]
        split
        next same => exact Or.inr (Or.inl ⟨target, bytes, same, rfl, good bytes found⟩)
        next => exact Or.inl rfl
      · simp only [note_files, FiniteMap.lookup_insert_eq, FiniteMap.lookup_erase_eq]
        split
        next => exact Or.inl rfl
        next =>
          split
          next same => subst same; exact Or.inr (free _ rfl)
          next => exact Or.inl present

theorem proper_guarantee {terms : Terms} {me : Nat} {w w' : World} {request : Request} {reply : Reply request}
    (served : Serves terms me w request reply w') (proper : Proper terms me w request) :
    (rules terms me).guarantee w w' := by
  obtain ⟨allowed, served | ⟨weak, fault | ⟨broken, _⟩⟩⟩ := served
  · have after : w' = (w.perform me request).2 := by rw [served]
    subst after
    exact perform_guarantee allowed proper
  · intro other different
    cases fault with
    | refused => exact Undisturbed.refl ..
    | short =>
      obtain ⟨target, serial, rfl⟩ := proper
      refine ⟨by simp, fun path mine => Or.inl ?_, fun path _ present => Or.inr (Or.inl weak)⟩
      simp [append_lookup, temp_not_mine different mine]
  · cases broken
    exact perform_guarantee allowed proper

/-- The entry is there with fitting content and others leave it alone; where
requests may fail it may as well have gone. -/
def Holds (terms : Terms) (me : Nat) (w : World) (path : Path) (fits : GoString → Prop) : Prop :=
  terms.fallible ∧ w.files.lookup path = none ∨
    (∃ bytes, w.files.lookup path = some bytes ∧ fits bytes) ∧ (terms.fallible ∨ path ∈ (w.notes me).needs)

section Holds
variable {terms : Terms} {me : Nat} {w w' : World} {path : Path} {fits : GoString → Prop}

theorem Holds.same (holds : Holds terms me w path fits) (files : w'.files.lookup path = w.files.lookup path)
    (needs : path ∈ (w.notes me).needs → path ∈ (w'.notes me).needs) : Holds terms me w' path fits := by
  rcases holds with ⟨weak, gone⟩ | ⟨found, kept⟩
  · exact Or.inl ⟨weak, files.trans gone⟩
  · rw [← files] at found
    exact Or.inr ⟨found, kept.imp_right needs⟩

theorem Holds.stable (holds : Holds terms me w path fits) (moves : Undisturbed terms me w w')
    (refreshed : ∀ name bytes, path = .file name → terms.good name bytes → fits bytes)
    (foreign : ¬ Mine me path → ∀ bytes, fits bytes) : Holds terms me w' path fits := by
  have notes := moves.notes
  have needs (kept : terms.fallible ∨ path ∈ (w.notes me).needs) : terms.fallible ∨ path ∈ (w'.notes me).needs := by
    rwa [notes]
  by_cases mine : Mine me path
  · rcases moves.files path mine with same | ⟨name, bytes, rfl, found, good⟩ | ⟨_, gone, free⟩
    · exact holds.same same fun member => notes ▸ member
    · refine Or.inr ⟨⟨bytes, found, refreshed name bytes rfl good⟩, ?_⟩
      rcases holds with ⟨weak, _⟩ | ⟨_, kept⟩
      · exact Or.inl weak
      · exact needs kept
    · refine Or.inl ⟨?_, gone⟩
      rcases holds with ⟨weak, _⟩ | ⟨_, weak | member⟩
      · exact weak
      · exact weak
      · exact free.resolve_right (not_not.mpr member)
  · have kept : terms.fallible ∨ path ∈ (w.notes me).needs := holds.elim (fun gone => Or.inl gone.1) And.right
    cases found : w'.files.lookup path with
    | some bytes => exact Or.inr ⟨⟨bytes, found, foreign mine bytes⟩, needs kept⟩
    | none =>
      refine Or.inl ⟨?_, found⟩
      rcases holds with ⟨weak, _⟩ | ⟨⟨bytes, present, _⟩, weak | member⟩
      · exact weak
      · exact weak
      · rcases moves.others path mine (by simp [present]) with still | free
        · simp [found] at still
        · exact free.resolve_right (not_not.mpr member)

end Holds

/-- What an attempt has in the directories: the entries it is still to remove,
its temporary file, the runs it wrote and has not opened, and what it or an
earlier task published. -/
structure Holding where
  listed : List Path := []
  temp : Option (Path × GoString) := none
  spilled : Name → Prop := fun _ => False
  published : Name → Prop := fun _ => False

/-- The temporary file has taken its name. -/
def Holding.publish (held : Holding) (target : Name) : Holding :=
  if (Path.file target).isSpill then { held with temp := none, spilled := fun name => held.spilled name ∨ name = target }
  else { held with temp := none, published := fun name => held.published name ∨ name = target }

/-- `contents` are the input files, `own` what this attempt writes to each run. -/
structure Knows (terms : Terms) (contents : GoString → Option GoString) (own : Name → GoString) (me : Nat)
    (held : Holding) (w : World) : Prop where
  inputs : ∀ name, w.files.lookup (.input name) = contents name
  distinct : held.listed.Nodup
  listed : ∀ path ∈ held.listed, path.isSpill = true ∧ Holds terms me w path fun _ => True
  temp : ∀ path bytes, held.temp = some (path, bytes) →
    (∃ target serial, path = .temp target me serial) ∧ Holds terms me w path (· = bytes)
  spilled : ∀ name, held.spilled name → (Path.file name).isSpill = true ∧
    (w.notes me).wrote.lookup name = some (own name) ∧ terms.good name (own name) ∧
      Holds terms me w (.file name) (terms.good name)
  published : ∀ name, held.published name → (Path.file name).isSpill = false ∧
    ∃ bytes, w.files.lookup (.file name) = some bytes ∧ terms.good name bytes

section Knows
variable {terms : Terms} {contents : GoString → Option GoString} {own : Name → GoString} {me : Nat} {held : Holding}

theorem knows_stable : Stable (rules terms me) (Knows terms contents own me held) := by
  intro w w' moves knows
  have notes : w'.notes me = w.notes me := moves.notes
  constructor
  · intro name
    have mine : Mine me (.input name) := nofun
    rcases moves.files _ mine with same | ⟨_, _, other, _⟩ | ⟨spill, _⟩
    · rw [same]
      exact knows.inputs name
    · cases other
    · cases spill
  · exact knows.distinct
  · intro path member
    obtain ⟨spill, holds⟩ := knows.listed path member
    exact ⟨spill, holds.stable moves (fun _ _ _ _ => trivial) fun _ _ => trivial⟩
  · intro path bytes open'
    obtain ⟨⟨target, serial, rfl⟩, holds⟩ := knows.temp path bytes open'
    refine ⟨⟨target, serial, rfl⟩, holds.stable moves (fun _ _ impossible => by cases impossible) fun foreign => ?_⟩
    exact absurd (fun _ _ _ same => by cases same; rfl) foreign
  · intro name member
    obtain ⟨spill, wrote, good, holds⟩ := knows.spilled name member
    refine ⟨spill, by rw [notes]; exact wrote, good, holds.stable moves ?_ fun foreign => absurd nofun foreign⟩
    rintro _ bytes ⟨⟩ fresh
    exact fresh
  · intro name member
    obtain ⟨plain, bytes, found, good⟩ := knows.published name member
    refine ⟨plain, ?_⟩
    have mine : Mine me (.file name) := nofun
    rcases moves.files _ mine with same | ⟨_, fresh, named, found, good⟩ | ⟨spill, _⟩
    · exact ⟨bytes, same.trans found, good⟩
    · cases named
      exact ⟨fresh, found, good⟩
    · rw [plain] at spill
      cases spill

theorem Knows.quiet {w w' : World} (knows : Knows terms contents own me held w) (files : w'.files = w.files)
    (notes : w'.notes me = w.notes me) : Knows terms contents own me held w' := by
  have same {path fits} (holds : Holds terms me w path fits) : Holds terms me w' path fits :=
    holds.same (by rw [files]) fun member => by rwa [notes]
  constructor
  · rw [files]; exact knows.inputs
  · exact knows.distinct
  · exact fun path member => (knows.listed path member).imp_right same
  · exact fun path bytes open' => (knows.temp path bytes open').imp_right same
  · intro name member
    obtain ⟨spill, wrote, good, holds⟩ := knows.spilled name member
    exact ⟨spill, by rw [notes]; exact wrote, good, same holds⟩
  · rw [files]; exact knows.published

theorem Knows.fewer {w : World} {spilled published : Name → Prop} (knows : Knows terms contents own me held w)
    (spills : ∀ name, spilled name → held.spilled name) (publishes : ∀ name, published name → held.published name) :
    Knows terms contents own me { held with spilled := spilled, published := published } w :=
  ⟨knows.inputs, knows.distinct, knows.listed, knows.temp, fun name member => knows.spilled name (spills name member),
    fun name member => knows.published name (publishes name member)⟩

/-- A path a step of process `me` leaves alone. -/
structure Untouched (me : Nat) (w w' : World) (path : Path) : Prop where
  files : w'.files.lookup path = w.files.lookup path
  needs : path ∈ (w.notes me).needs → path ∈ (w'.notes me).needs

def touched (w : World) (me : Nat) : Request → List Path
  | .openFile path | .remove path | .write path _ => [path]
  | .createTemp target => [.temp target me w.serial]
  | .rename temp target => [temp, .file target]
  | _ => []

theorem perform_untouched (w : World) (me : Nat) (request : Request) {path : Path}
    (elsewhere : path ∉ touched w me request) : Untouched me w (w.perform me request).2 path := by
  cases request with
  | mkdirAll | close | count => exact ⟨rfl, id⟩
  | readDir => exact ⟨rfl, fun member => by simp [World.perform, member]⟩
  | createTemp target =>
    have other : path ≠ .temp target me w.serial := fun same => elsewhere (by simp [touched, same])
    refine ⟨?_, fun member => ?_⟩
    · simp [World.perform, other]
    · simpa [World.perform] using Or.inr member
  | write temp bytes =>
    have other : path ≠ temp := fun same => elsewhere (by simp [touched, same])
    exact ⟨by simp [World.perform, append_lookup, other], fun member => by simpa [World.perform] using member⟩
  | openFile opened =>
    have other : path ≠ opened := fun same => elsewhere (by simp [touched, same])
    simp only [World.perform]
    split
    · exact ⟨rfl, id⟩
    · exact ⟨rfl, fun member => by simp [member, other]⟩
  | remove removed =>
    have other : path ≠ removed := fun same => elsewhere (by simp [touched, same])
    simp only [World.perform]
    split
    · exact ⟨rfl, id⟩
    · exact ⟨by simp [other], fun member => by simp [member, other]⟩
  | rename temp target =>
    simp only [touched, List.mem_cons, List.not_mem_nil, or_false, not_or] at elsewhere
    obtain ⟨other, aside⟩ := elsewhere
    simp only [World.perform]
    split
    · exact ⟨rfl, id⟩
    · exact ⟨by simp [other, aside], fun member => by simp [member, other]⟩

theorem perform_wrote (w : World) (me : Nat) {request : Request} {name : Name}
    (elsewhere : .file name ∉ touched w me request) :
    ((w.perform me request).2.notes me).wrote.lookup name = (w.notes me).wrote.lookup name := by
  cases request with
  | mkdirAll | close | count => rfl
  | readDir | createTemp | write => simp [World.perform]
  | openFile | remove =>
    simp only [World.perform]
    split
    · rfl
    · simp
  | rename temp target =>
    simp only [touched, List.mem_cons, List.not_mem_nil, or_false, not_or, Path.file.injEq] at elsewhere
    simp only [World.perform]
    split
    · rfl
    · simp [elsewhere.2]

/-- What an attempt still knows after a request about the entries that the
request has not touched. -/
theorem Knows.after {w : World} (request : Request) (held' : Holding) (knows : Knows terms contents own me held w)
    (inputs : ∀ name, (w.perform me request).2.files.lookup (.input name) = w.files.lookup (.input name))
    (fewer : held'.listed.Sublist held.listed)
    (listed : ∀ path ∈ held'.listed, path ∉ touched w me request)
    (temp : ∀ path bytes, held'.temp = some (path, bytes) → held.temp = some (path, bytes) ∧ path ∉ touched w me request)
    (spilled : ∀ name, held'.spilled name → held.spilled name ∧ .file name ∉ touched w me request)
    (published : ∀ name, held'.published name → held.published name ∧
      (w.perform me request).2.files.lookup (.file name) = w.files.lookup (.file name)) :
    Knows terms contents own me held' (w.perform me request).2 := by
  have same {path fits} (elsewhere : path ∉ touched w me request) (holds : Holds terms me w path fits) :
      Holds terms me (w.perform me request).2 path fits :=
    have untouched := perform_untouched w me request elsewhere
    holds.same untouched.files untouched.needs
  constructor
  · intro name
    rw [inputs]
    exact knows.inputs name
  · exact knows.distinct.sublist fewer
  · intro path member
    exact (knows.listed path (fewer.subset member)).imp_right (same (listed path member))
  · intro path bytes open'
    obtain ⟨before, elsewhere⟩ := temp path bytes open'
    exact (knows.temp path bytes before).imp_right (same elsewhere)
  · intro name member
    obtain ⟨before, elsewhere⟩ := spilled name member
    obtain ⟨spill, wrote, good, holds⟩ := knows.spilled name before
    exact ⟨spill, (perform_wrote w me elsewhere).trans wrote, good, same elsewhere holds⟩
  · intro name member
    obtain ⟨before, unchanged⟩ := published name member
    rw [unchanged]
    exact knows.published name before

end Knows

theorem mem_listing {w : World} {dir : Directory} {path : Path} (member : path ∈ w.listing dir) : path ∈ w.files := by
  simp only [World.listing, List.mem_insertionSort, List.mem_filter] at member
  exact AList.mem_keys.mpr member.1

theorem listing_nodup (w : World) (dir : Directory) : (w.listing dir).Nodup :=
  (List.perm_insertionSort _ _).nodup_iff.mpr (w.files.keys_nodup.filter _)

/-- What reading a file delivers: all of it or, where the reading may break off, some of it and an error. -/
def Partly (fallible : Prop) (content : GoString) (stream : Stream) : Prop :=
  stream = { bytes := content } ∨ fallible ∧ stream.readErr ≠ none

/-- Several files are read whole, unless the reading of one breaks off. -/
theorem partly_all {ι : Type} {fallible : Prop} {content : ι → GoString} {items : List ι} {streams : List Stream}
    (read : List.Forall₂ (fun item => Partly fallible (content item)) items streams) :
    streams = items.map (fun item => { bytes := content item }) ∨
      fallible ∧ ∃ stream ∈ streams, stream.readErr ≠ none := by
  induction read with
  | nil => exact Or.inl rfl
  | cons first _ ih =>
    rcases first with rfl | ⟨weak, broken⟩
    · rcases ih with rfl | ⟨weak, stream, member, broken⟩
      · exact Or.inl rfl
      · exact Or.inr ⟨weak, stream, List.mem_cons_of_mem _ member, broken⟩
    · exact Or.inr ⟨weak, _, List.mem_cons_self, broken⟩

section Requests
variable {terms : Terms} {contents : GoString → Option GoString} {own : Name → GoString} {me : Nat} {held : Holding}
  {error : Err → Prop} (refused : terms.fallible → error .io)
include refused

/-- A request is safe when it is a proper one and its faultless reply is as
expected; a refusal has to be excused. -/
theorem call_meets {request : Request} {pre : World → Prop} {post : Answer request → World → Prop}
    (unread : ∀ path, request ≠ .openFile path)
    (stable : Stable (rules terms me) pre) (after : ∀ answer, Stable (rules terms me) (post answer))
    (proper : ∀ w, pre w → Proper terms me w request)
    (performed : ∀ w, pre w → terms.allowed w me request →
      Ends error post (w.perform me request).1 (w.perform me request).2) :
    Triple (rules terms me) pre (call request) (Ends error post) := by
  refine .ask (Ends error post) stable (fun w reply w' holds served => ?_) fun reply => ?_
  · refine ⟨proper_guarantee served (proper w holds), ?_⟩
    obtain ⟨allowed, served | ⟨weak, fault | ⟨broken, _⟩⟩⟩ := served
    · have ends := performed w holds allowed
      rwa [served] at ends
    · cases fault <;> exact refused weak
    · cases broken
      exact absurd rfl (unread _)
  · cases reply with
    | ok answer => exact fun w holds later moves => after answer w later moves holds
    | error e => exact fun w failed _ _ => failed

/-- Opening a file delivers all of it or, where requests may be refused, what could be read. -/
theorem open_meets {path : Path} {pre : World → Prop} {post : Stream → World → Prop}
    (stable : Stable (rules terms me) pre) (after : ∀ stream, Stable (rules terms me) (post stream))
    (missing : ∀ w, pre w → w.files.lookup path = none → error .notExist)
    (opened : ∀ w content stream, pre w → terms.allowed w me (.openFile path) → w.files.lookup path = some content →
      Partly terms.fallible content stream → w.LineWise (.openFile path) (.ok stream) →
      post stream (w.perform me (.openFile path)).2) :
    Triple (rules terms me) pre (call (.openFile path)) (Ends error post) := by
  refine .ask (Ends error post) stable (fun w reply w' holds served => ?_) fun reply => ?_
  · refine ⟨proper_guarantee served trivial, ?_⟩
    obtain ⟨allowed, served | ⟨weak, fault | ⟨broken, lines⟩⟩⟩ := served
    · cases found : w.files.lookup path with
      | none =>
        have failed : reply = .error .notExist := by
          simp only [World.perform, found, Prod.mk.injEq] at served
          exact served.1.symm
        subst failed
        exact missing w holds found
      | some content =>
        have read : reply = .ok { bytes := content } := by
          simp only [World.perform, found, Prod.mk.injEq] at served
          exact served.1.symm
        subst read
        have after : w' = (w.perform me (.openFile path)).2 := by rw [served]
        rw [after]
        have lines := (perform_keepsLines me w (.openFile path)).2
        rw [served] at lines
        exact opened w content _ holds allowed found (.inl rfl) lines
    · cases fault
      exact refused weak
    · cases broken with
      | reading held start => exact opened w _ _ holds allowed held (.inr ⟨weak, by simp⟩) lines
  · cases reply with
    | ok stream => exact fun w holds later moves => after stream w later moves holds
    | error e => exact fun w failed _ _ => failed

end Requests

section Entries
variable {terms : Terms} {contents : GoString → Option GoString} {own : Name → GoString} {me : Nat} {held : Holding}
  {excuse : Prop} (weak : terms.fallible → excuse)

theorem Holds.missing {w : World} {path : Path} {fits : GoString → Prop} (holds : Holds terms me w path fits)
    (missing : w.files.lookup path = none) : terms.fallible := by
  rcases holds with ⟨weak, _⟩ | ⟨⟨_, present, _⟩, _⟩
  · exact weak
  · rw [missing] at present
    cases present

theorem Holds.found {w : World} {path : Path} {fits : GoString → Prop} {bytes : GoString}
    (holds : Holds terms me w path fits) (found : w.files.lookup path = some bytes) : fits bytes := by
  rcases holds with ⟨_, gone⟩ | ⟨⟨_, present, fit⟩, _⟩
  · rw [found] at gone
    cases gone
  · cases found.symm.trans present
    exact fit

include weak

theorem mkdirAll_meets (dir : Directory) : Triple (rules terms me) (Knows terms contents own me held) (call (.mkdirAll dir))
    (Ends (fun _ => excuse) fun _ => Knows terms contents own me held) :=
  call_meets weak nofun knows_stable (fun _ => knows_stable) (fun _ _ => trivial) fun _ knows _ => knows

theorem close_meets (temp : Path) : Triple (rules terms me) (Knows terms contents own me held) (call (.close temp))
    (Ends (fun _ => excuse) fun _ => Knows terms contents own me held) :=
  call_meets weak nofun knows_stable (fun _ => knows_stable) (fun _ _ => trivial) fun _ knows _ => knows

theorem count_meets (name : String) (delta : Int64) : Triple (rules terms me) (Knows terms contents own me held)
    (call (.count name delta)) (Ends (fun _ => excuse) fun _ => Knows terms contents own me held) :=
  call_meets weak nofun knows_stable (fun _ => knows_stable) (fun _ _ => trivial) fun _ knows _ => knows.quiet rfl rfl

theorem readDir_meets (dir : Directory) : Triple (rules terms me) (Knows terms contents own me {}) (call (.readDir dir))
    (Ends (fun _ => excuse) fun entries => Knows terms contents own me { listed := entries.filter Path.isSpill }) := by
  refine call_meets weak nofun knows_stable (fun _ => knows_stable) (fun _ _ => trivial) fun w knows _ => ?_
  refine ⟨knows.inputs, (listing_nodup w dir).filter _, fun path member => ?_, nofun, nofun, nofun⟩
  obtain ⟨listed, spill⟩ := List.mem_filter.mp member
  obtain ⟨bytes, found⟩ := Option.isSome_iff_exists.mp (AList.lookup_isSome.mpr (mem_listing listed))
  refine ⟨spill, Or.inr ⟨⟨bytes, found, trivial⟩, Or.inr ?_⟩⟩
  simp only [World.perform, note_notes]
  exact List.mem_append_left _ member

theorem remove_meets (path : Path) (rest : List Path) :
    Triple (rules terms me) (Knows terms contents own me { listed := path :: rest }) (call (.remove path))
      (Ends (fun _ => excuse) fun _ => Knows terms contents own me { listed := rest }) := by
  refine call_meets weak nofun knows_stable (fun _ => knows_stable) (fun w knows => ?_) fun w knows _ => ?_
  · exact Or.inr (knows.listed path List.mem_cons_self).1
  · obtain ⟨spill, holds⟩ := knows.listed path List.mem_cons_self
    obtain ⟨fresh, _⟩ := List.nodup_cons.mp knows.distinct
    cases found : w.files.lookup path with
    | none =>
      have reply : (w.perform me (.remove path)).1 = .error .notExist := by simp [World.perform, found]
      rw [reply]
      exact weak (holds.missing found)
    | some bytes =>
      have reply : (w.perform me (.remove path)).1 = .ok () := by simp [World.perform, found]
      rw [reply]
      refine knows.after _ _ (fun name => ?_) (List.sublist_cons_self ..) (fun other member => ?_) nofun nofun nofun
      · have plain : Path.input name ≠ path := by rintro rfl; cases spill
        simp [World.perform, found, plain]
      · simp only [touched, List.mem_singleton]
        rintro rfl
        exact fresh member

theorem createTemp_meets (target : Name) (plain : held.listed = []) (free : held.temp = none) :
    Triple (rules terms me) (Knows terms contents own me held) (call (.createTemp target))
      (Ends (fun _ => excuse) fun path w => (∃ serial, path = .temp target me serial) ∧
        Knows terms contents own me { held with temp := some (path, []) } w) := by
  refine call_meets weak nofun knows_stable (fun path w w' moves knows => ?_) (fun _ _ => trivial) fun w knows _ => ?_
  · exact ⟨knows.1, knows_stable w w' moves knows.2⟩
  · have kept := knows.after (.createTemp target) held (fun name => by simp [World.perform])
      (List.Sublist.refl _) (fun path member => by simp [plain] at member) (fun _ _ open' => by simp [free] at open')
      (fun name member => ⟨member, by simp [touched]⟩) (fun name member => ⟨member, by simp [World.perform]⟩)
    refine ⟨⟨w.serial, rfl⟩, kept.inputs, kept.distinct, kept.listed, ?_, kept.spilled, kept.published⟩
    rintro path bytes ⟨⟩
    refine ⟨⟨target, w.serial, rfl⟩, Or.inr ⟨⟨[], ?_, rfl⟩, Or.inr ?_⟩⟩
    · simp [World.perform]
    · simp [World.perform]

theorem write_meets (temp : Path) (content bytes : GoString) (plain : held.listed = []) :
    Triple (rules terms me) (Knows terms contents own me { held with temp := some (temp, content) })
      (call (.write temp bytes))
      (Ends (fun _ => excuse) fun _ => Knows terms contents own me { held with temp := some (temp, content ++ bytes) }) := by
  refine call_meets weak nofun knows_stable (fun _ => knows_stable) (fun w knows => (knows.temp _ _ rfl).1)
    fun w knows _ => ?_
  obtain ⟨⟨target, serial, rfl⟩, holds⟩ := knows.temp _ _ rfl
  have kept := knows.after (.write (.temp target me serial) bytes) { held with temp := none }
    (fun name => by simp [World.perform, append_lookup]) (List.Sublist.refl _)
    (fun path member => by simp [plain] at member) nofun (fun name member => ⟨member, by simp [touched]⟩)
    (fun name member => ⟨member, by simp [World.perform, append_lookup]⟩)
  refine ⟨kept.inputs, kept.distinct, kept.listed, ?_, kept.spilled, kept.published⟩
  rintro path _ ⟨⟩
  refine ⟨⟨target, serial, rfl⟩, ?_⟩
  rcases holds with ⟨weak, gone⟩ | ⟨⟨_, found, rfl⟩, needed⟩
  · exact Or.inl ⟨weak, by simp [World.perform, append_lookup, gone]⟩
  · exact Or.inr ⟨⟨_, by simp [World.perform, append_lookup, found], rfl⟩, needed.imp_right fun member => by
      simpa [World.perform] using member⟩

theorem rename_meets {temp : Path} {content : GoString} (target : Name) (plain : held.listed = [])
    (good : terms.good target content) (run : (Path.file target).isSpill = true → own target = content) :
    Triple (rules terms me) (Knows terms contents own me { held with temp := some (temp, content) })
      (call (.rename temp target))
      (Ends (fun _ => excuse) fun _ => Knows terms contents own me (held.publish target)) := by
  refine call_meets weak nofun knows_stable (fun _ => knows_stable) (fun w knows => ?_) fun w knows _ => ?_
  · obtain ⟨mine, holds⟩ := knows.temp _ _ rfl
    refine ⟨mine, fun bytes found => ?_⟩
    rw [holds.found found]
    exact good
  obtain ⟨⟨target', serial, rfl⟩, holds⟩ := knows.temp _ _ rfl
  cases found : w.files.lookup (.temp target' me serial) with
  | none =>
    have reply : (w.perform me (.rename (.temp target' me serial) target)).1 = .error .notExist := by
      simp [World.perform, found]
    rw [reply]
    exact weak (holds.missing found)
  | some bytes =>
    obtain rfl := holds.found found
    have reply : (w.perform me (.rename (.temp target' me serial) target)).1 = .ok () := by simp [World.perform, found]
    have there : (w.perform me (.rename (.temp target' me serial) target)).2.files.lookup (.file target) = some bytes := by
      simp [World.perform, found]
    have needed : Path.file target ∈ ((w.perform me (.rename (.temp target' me serial) target)).2.notes me).needs := by
      simp [World.perform, found]
    have wrote : ((w.perform me (.rename (.temp target' me serial) target)).2.notes me).wrote.lookup target =
      some bytes := by
      simp [World.perform, found]
    have kept := knows.after (.rename (.temp target' me serial) target)
      { held with temp := none, spilled := fun name => held.spilled name ∧ name ≠ target,
                  published := fun name => held.published name ∧ name ≠ target }
      (fun name => by simp [World.perform, found]) (List.Sublist.refl _) (fun path member => by simp [plain] at member)
      nofun (fun name member => ⟨member.1, by simp [touched, member.2]⟩)
      (fun name member => ⟨member.1, by simp [World.perform, found, member.2]⟩)
    rw [reply]
    unfold Holding.publish
    split
    next spill =>
      refine ⟨kept.inputs, kept.distinct, kept.listed, nofun, fun name member => ?_, fun name member => ?_⟩
      · by_cases same : name = target
        · subst same
          rw [run spill]
          exact ⟨spill, wrote, good, Or.inr ⟨⟨bytes, there, good⟩, Or.inr needed⟩⟩
        · exact kept.spilled name ⟨member.resolve_right same, same⟩
      · refine kept.published name ⟨member, ?_⟩
        rintro rfl
        rw [(knows.published name member).1] at spill
        cases spill
    next visible =>
      refine ⟨kept.inputs, kept.distinct, kept.listed, nofun, fun name member => ?_, fun name member => ?_⟩
      · refine kept.spilled name ⟨member, ?_⟩
        rintro rfl
        exact visible (knows.spilled name member).1
      · by_cases same : name = target
        · subst same
          exact ⟨by simpa using visible, bytes, there, good⟩
        · exact kept.published name ⟨member.resolve_right same, same⟩

theorem openInput_meets {name bytes : GoString} (plain : held.listed = []) (free : held.temp = none)
    (input : contents name = some bytes) :
    Triple (rules terms me) (Knows terms contents own me held) (call (.openFile (.input name)))
      (Ends (fun _ => excuse) fun stream w => (Partly terms.fallible bytes stream ∧
          (Scanner.scan stream).1 <+: (Scanner.scan { bytes := bytes }).1) ∧ Knows terms contents own me held w) := by
  refine open_meets weak knows_stable (fun _ => knows_stable.and) (fun w knows missing => ?_)
    fun w content stream knows _ found read lines => ?_
  · cases ((knows.inputs name).trans input).symm.trans missing
  · cases ((knows.inputs name).trans input).symm.trans found
    have same : (w.perform me (.openFile (.input name))).2.files = w.files := by simp [World.perform, found]
    refine ⟨⟨read, lines _ found⟩, knows.after _ _ (fun _ => by rw [same]) (List.Sublist.refl _)
      (fun path member => by simp [plain] at member) (fun _ _ open' => by simp [free] at open')
      (fun name member => ⟨member, by simp [touched]⟩) (fun name member => ⟨member, by rw [same]⟩)⟩

theorem openMissing_meets {name : GoString} (missing : contents name = none) (excused : excuse) :
    Triple (rules terms me) (Knows terms contents own me held) (call (.openFile (.input name)))
      (Ends (fun _ => excuse) fun _ _ => False) := by
  refine open_meets weak knows_stable (fun _ _ _ _ impossible => impossible) (fun _ _ _ => excused)
    fun w _ _ knows _ found _ _ => ?_
  cases ((knows.inputs name).trans missing).symm.trans found

/-- Opening a run the attempt wrote delivers what it wrote. -/
theorem openRun_meets {name : Name} (plain : held.listed = []) (free : held.temp = none) (run : held.spilled name) :
    Triple (rules terms me) (Knows terms contents own me held) (call (.openFile (.file name)))
      (Ends (fun _ => excuse) fun stream w => Partly terms.fallible (own name) stream ∧
        Knows terms contents own me { held with spilled := fun other => held.spilled other ∧ other ≠ name } w) := by
  refine open_meets weak knows_stable (fun _ => knows_stable.and) (fun w knows missing => ?_)
    fun w content stream knows allowed found read _ => ?_
  · exact weak ((knows.spilled name run).2.2.2.missing missing)
  · obtain ⟨_, wrote, good, holds⟩ := knows.spilled name run
    obtain rfl := terms.faithful w me name content (own name) allowed found (holds.found found) wrote good
    have same : (w.perform me (.openFile (.file name))).2.files = w.files := by simp [World.perform, found]
    refine ⟨read, knows.after _ _ (fun _ => by rw [same]) (List.Sublist.refl _)
      (fun path member => by simp [plain] at member)
      (fun _ _ open' => by simp [free] at open') (fun other member => ⟨member.1, by simp [touched, member.2]⟩)
      (fun name member => ⟨member, by rw [same]⟩)⟩

omit weak

/-- A published file never goes away, so opening it fails only where the file
system does. -/
theorem openPublished_meets {name : Name} (plain : held.listed = []) (free : held.temp = none)
    (runless : ∀ other, ¬ held.spilled other)
    (published : held.published name) :
    Triple (rules terms me) (Knows terms contents own me held) (call (.openFile (.file name)))
      (Ends (fun e => terms.fallible ∧ e = .io) fun stream w =>
        (∃ content, terms.good name content ∧ Partly terms.fallible content stream) ∧
        Knows terms contents own me held w) := by
  refine open_meets (fun weak => ⟨weak, rfl⟩) knows_stable (fun _ => knows_stable.and) (fun w knows missing => ?_)
    fun w content stream knows _ found read _ => ?_
  · obtain ⟨_, _, found, _⟩ := knows.published name published
    cases found.symm.trans missing
  · obtain ⟨_, bytes, here, good⟩ := knows.published name published
    cases here.symm.trans found
    have same : (w.perform me (.openFile (.file name))).2.files = w.files := by simp [World.perform, found]
    exact ⟨⟨content, good, read⟩, knows.after _ _ (fun _ => by rw [same]) (List.Sublist.refl _)
      (fun path member => by simp [plain] at member) (fun _ _ open' => by simp [free] at open')
      (fun name member => absurd member (runless name)) (fun name member => ⟨member, by rw [same]⟩)⟩

/-- A request whose error is looked at or dropped. -/
theorem try_meets {request : Request} {pre : World → Prop} {error : Err → Prop} {post : Reply request → World → Prop}
    (unread : ∀ path, request ≠ .openFile path) (stable : Stable (rules terms me) pre)
    (after : ∀ reply, Stable (rules terms me) (post reply))
    (proper : ∀ w, pre w → Proper terms me w request)
    (performed : ∀ w, pre w → post (w.perform me request).1 (w.perform me request).2)
    (faulty : ∀ w reply w', pre w → World.Fault w request reply w' → post reply w') :
    Triple (rules terms me) pre (call request).outcome (Ends error post) := by
  refine .ask post stable (fun w reply w' holds served => ?_) fun reply => ?_
  · refine ⟨proper_guarantee served (proper w holds), ?_⟩
    obtain ⟨_, served | ⟨_, fault | ⟨broken, _⟩⟩⟩ := served
    · have ends := performed w holds
      rwa [served] at ends
    · exact faulty w reply w' holds fault
    · cases broken
      exact absurd rfl (unread _)
  · exact fun w holds later moves => after reply w later moves holds

/-- Removing a run that is no longer needed may fail without consequence. -/
theorem tryRemove_meets {name : Name} {published : Name → Prop} (spill : (Path.file name).isSpill = true) :
    Triple (rules terms me) (Knows terms contents own me { published := published }) (call (.remove (.file name))).outcome
      (Ends (fun _ => excuse) fun _ => Knows terms contents own me { published := published }) := by
  refine try_meets nofun knows_stable (fun _ => knows_stable) (fun _ _ => Or.inr spill)
    (fun w knows => ?_) fun w reply w' knows fault => ?_
  · have input (other : GoString) : Path.input other ≠ .file name := nofun
    have elsewhere (other : Name) (member : published other) : Path.file other ≠ .file name := by
      intro same
      rw [← same, (knows.published other member).1] at spill
      cases spill
    refine knows.after _ _ (fun other => ?_) (List.Sublist.refl _) nofun nofun nofun fun other member => ⟨member, ?_⟩
    · simp only [World.perform]
      split
      · rfl
      · simp [input]
    · simp only [World.perform]
      split
      · rfl
      · simp only [note_files, FiniteMap.lookup_erase_eq, if_neg (elsewhere other member)]
  · cases fault
    exact knows

/-- Once the attempt is bound to fail it still keeps its hands off the others' files. -/
theorem cleanup_meets {α : Type} {value : α → World → Prop} (target : Name) (serial : Nat) (e : Err) :
    Triple (rules terms me) (fun _ => excuse)
      (do
        let _ ← (call (.remove (.temp target me serial))).outcome
        Program.fail e : Attempt α)
      (Ends (fun _ => excuse) value) := by
  have always : Stable (rules terms me) (fun _ => excuse) := fun _ _ _ holds => holds
  have removing : Triple (rules terms me) (fun _ => excuse) (call (.remove (.temp target me serial))).outcome
      (Ends (fun _ => excuse) fun _ _ => excuse) :=
    try_meets nofun always (fun _ => always) (fun _ _ => Or.inl ⟨target, serial, rfl⟩)
      (fun _ holds => holds) fun _ _ _ holds _ => holds
  exact .bind removing fun _ => .fail fun _ holds => holds

end Entries

end FromScratch.Proofs.AttemptRules
