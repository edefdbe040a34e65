import ProtobufEdit.Editor.Commands

/-!
# Runs of commands

Any commands, accepted or refused, leave a machine that stands for the document edited by them;
what it saves is the reference emission of that document.
-/

namespace ProtobufEdit.Editor

open Wire Wire.Grouped Varint Arena

/-- The machine behind some commands, and what they answered. -/
def Machine.performAll (m : Machine) : List Command → Machine × List (Except EditFault Reply)
  | [] => (m, [])
  | command :: commands =>
    let performed := m.perform command
    let rest := performed.1.performAll commands
    (rest.1, performed.2 :: rest.2)

/-- The document behind some commands, given what they answered. -/
noncomputable def Doc.editAll (dialect : Dialect) (standard : Standard) (limit : DepthLimit)
    (d : Doc) : List Command → List (Except EditFault Reply) → Doc
  | command :: commands, reply :: replies =>
    editAll dialect standard limit (d.edit dialect standard limit command reply) commands replies
  | _, _ => d

section Runs

variable {m m' : Machine} {d : Doc}

/-- A command is its edit: a refused one edits nothing. -/
theorem Machine.StandsFor.perform (h : m.StandsFor d) (command : Command) :
    (m.perform command).1.StandsFor
      (d.edit m.dialect m.standard m.limit command (m.perform command).2) := by
  obtain ⟨t, ht, rfl⟩ := h
  cases hp : m.perform command with
  | mk m' answered =>
    cases answered with
    | error fault =>
      obtain rfl := perform_refused hp
      refine ⟨t, ht, ?_⟩
      unfold Doc.edit
      rfl
    | ok reply => exact ht.perform hp

theorem Machine.StandsFor.performAll (h : m.StandsFor d) (commands : List Command) :
    (m.performAll commands).1.StandsFor
      (d.editAll m.dialect m.standard m.limit commands (m.performAll commands).2) := by
  induction commands generalizing m d with
  | nil => exact h
  | cons command commands ih =>
    have hs := same_perform m command
    have hrest := ih (h.perform command)
    rw [hs.dialect, hs.standard, hs.limit] at hrest
    exact hrest

theorem performAll_standard (m : Machine) (commands : List Command) :
    (m.performAll commands).1.standard = m.standard := by
  induction commands generalizing m with
  | nil => rfl
  | cons command commands ih => exact (ih _).trans (same_perform m command).standard

theorem Machine.StandsFor.save (h : m.StandsFor d) : m.save = d.saved := by
  obtain ⟨t, ht, rfl⟩ := h
  exact ht.save

theorem Machine.StandsFor.saveLen (h : m.StandsFor d) : m.save.Prices m.saveLen := by
  obtain ⟨t, ht, -⟩ := h
  exact ht.saveLen

theorem Doc.saved_ne_panicked (d : Doc) : d.saved ≠ .panicked := by
  unfold Doc.saved
  split
  · exact nofun
  · split <;> exact nofun

/-- The document a source is opened as. -/
noncomputable def Doc.opened (dialect : Dialect) (standard : Standard) (source : List UInt8)
    (limit : DepthLimit) : Doc :=
  entries (opening dialect standard source limit)

/-- The document commanded of an editor that was opened on a source. -/
noncomputable def Doc.commanded (dialect : Dialect) (standard : Standard) (source : List UInt8)
    (limit : DepthLimit) (m : Machine) (commands : List Command) : Doc :=
  (Doc.opened dialect standard source limit).editAll dialect standard limit commands
    (m.performAll commands).2

/-- An editor stands for its document over any run. -/
theorem standsFor_run {dialect : Dialect} {standard : Standard} {source : List UInt8}
    {limit : DepthLimit} (h : openSource dialect standard source limit = .ok m)
    (commands : List Command) :
    (m.performAll commands).1.StandsFor
      (.commanded dialect standard source limit m commands) := by
  obtain ⟨-, hm, rfl, rfl, -, rfl⟩ := openSource_models h
  exact Machine.StandsFor.performAll ⟨_, hm, rfl⟩ commands

/-- The groupless editor saves what was commanded, and prices what it saves. -/
theorem save_groupless {standard : Standard} {source : List UInt8} {limit : DepthLimit}
    (h : openSource .groupless standard source limit = .ok m) (commands : List Command) :
    (m.performAll commands).1.save =
        (Doc.commanded .groupless standard source limit m commands).saved ∧
      (m.performAll commands).1.save ≠ .panicked ∧
      (m.performAll commands).1.save.Prices (m.performAll commands).1.saveLen := by
  have hstands := standsFor_run h commands
  have hsave := hstands.save
  exact ⟨hsave, hsave ▸ Doc.saved_ne_panicked _, hstands.saveLen⟩

end Runs

/-- A padded tag outlives its value. -/
theorem save_groupless_padded : ∃ m, openSource .groupless .tolerant [0x88, 0x00, 0x01]
      ⟨1, by decide, by decide⟩ = .ok m ∧
    (m.performAll [.setVarint 0 5]).1.save =
        (Doc.commanded .groupless .tolerant [0x88, 0x00, 0x01] ⟨1, by decide, by decide⟩ m
          [.setVarint 0 5]).saved ∧
      (m.performAll [.setVarint 0 5]).1.save ≠ .panicked ∧
      (m.performAll [.setVarint 0 5]).1.save.Prices (m.performAll [.setVarint 0 5]).1.saveLen :=
  ⟨_, rfl, save_groupless rfl _⟩

example : (openSource .groupless .tolerant [0x88, 0x00, 0x01] ⟨1, by decide, by decide⟩).map
    (fun m => (m.performAll [.setVarint 0 5]).1.save) = .ok (.saved [0x88, 0x00, 0x05]) := by decide

end ProtobufEdit.Editor
