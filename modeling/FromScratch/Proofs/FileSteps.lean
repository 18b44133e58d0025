import FromScratch.Proofs.AttemptRules

/-! What a request does to the files, whether it succeeds or not. -/

namespace FromScratch.Proofs.FileSteps
open FromScratch.MapReduce Lib Program AttemptRules

/-- The paths whose content a request may change. -/
def changed (w : World) (me : Nat) : Request → List Path
  | .remove path | .write path _ => [path]
  | .createTemp target => [.temp target me w.serial]
  | .rename temp target => [temp, .file target]
  | _ => []

variable {w w' : World} {me : Nat} {path temp : Path} {target : Name}

theorem perform_unchanged (request : Request) (elsewhere : path ∉ changed w me request) :
    (w.perform me request).2.files.lookup path = w.files.lookup path := by
  cases request with
  | openFile =>
    simp only [World.perform]
    split <;> rfl
  | _ => exact (perform_untouched w me _ elsewhere).files

theorem delivers_unchanged {request : Request} {reply : Reply request} (served : w.Delivers me request reply w')
    (elsewhere : path ∉ changed w me request) : w'.files.lookup path = w.files.lookup path := by
  rcases served with (performed | fault) | broken
  · have same := perform_unchanged request elsewhere
    rwa [show w.perform me request = (reply, w') from performed] at same
  · cases fault with
    | refused => rfl
    | short =>
      have other : path ≠ _ := fun same => elsewhere (List.mem_singleton.mpr same)
      rw [append_lookup, if_neg other]
  · cases broken
    exact perform_unchanged _ elsewhere

theorem delivers_openFile {bytes : GoString} {reply : Reply (.openFile path)}
    (served : w.Delivers me (.openFile path) reply w')
    (held : w.files.lookup path = some bytes) :
    Ends (fun e => e ≠ .notExist) (fun (stream : Stream) _ => stream.bytes <+: bytes ∧
      (stream.readErr = none → stream.bytes = bytes))
      reply w' := by
  rcases served with (performed | fault) | broken
  · simp only [World.Performs, World.perform, held] at performed
    cases performed
    exact ⟨List.prefix_rfl, fun _ => rfl⟩
  · cases fault
    intro missing
    cases missing
  · cases broken with
    | reading found start =>
      cases held.symm.trans found
      refine ⟨start, ?_⟩
      intro whole
      cases whole

theorem delivers_createTemp {reply : Reply (.createTemp target)} (served : w.Delivers me (.createTemp target) reply w') :
    (∃ e, reply = .error e) ∧ w' = w ∨
      reply = .ok (.temp target me w.serial) ∧ w'.files.lookup (.temp target me w.serial) = some [] ∧ w'.serial =
        w.serial + 1 := by
  rcases served with (performed | fault) | broken
  · cases performed
    exact Or.inr ⟨rfl, by simp [World.note], rfl⟩
  · cases fault
    exact Or.inl ⟨⟨_, rfl⟩, rfl⟩
  · cases broken

/-- A write that fails may leave some of its bytes. -/
theorem delivers_write {bytes : GoString} {reply : Reply (.write temp bytes)}
    (served : w.Delivers me (.write temp bytes) reply w') :
    ∃ written, written <+: bytes ∧ w'.files.lookup temp = (w.files.lookup temp).map (· ++ written) ∧
      (reply = .ok () → written = bytes) := by
  rcases served with (performed | fault) | broken
  · cases performed
    exact ⟨bytes, List.prefix_rfl, by rw [append_lookup, if_pos rfl], fun _ => rfl⟩
  · cases fault with
    | refused => exact ⟨[], List.nil_prefix, by cases w.files.lookup temp <;> simp, nofun⟩
    | short part => exact ⟨_, part, by rw [append_lookup, if_pos rfl], nofun⟩
  · cases broken

theorem delivers_rename {reply : Reply (.rename temp target)} (served : w.Delivers me (.rename temp target) reply w') :
    (∃ e, reply = .error e) ∧ w'.files = w.files ∨
      reply = .ok () ∧ ∃ bytes, w.files.lookup temp = some bytes ∧ w'.files.lookup (.file target) = some bytes := by
  rcases served with (performed | fault) | broken
  · simp only [World.Performs, World.perform] at performed
    split at performed
    next =>
      cases performed
      exact Or.inl ⟨⟨_, rfl⟩, rfl⟩
    next bytes found =>
      cases performed
      exact Or.inr ⟨rfl, bytes, found, by simp [World.note]⟩
  · cases fault
    exact Or.inl ⟨⟨_, rfl⟩, rfl⟩
  · cases broken

end FromScratch.Proofs.FileSteps
