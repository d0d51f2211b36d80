import Lightbox.Shell.Lex

/-! # The extension's settings

`extension.ts` reads the setting of a button either as a command string or as an object
(`getConfig`). A button is shown if its script is a non-empty string. -/

namespace Lightbox.Extension.Config

open Lightbox.Shell.Lex (Text)

/-- The two buttons. -/
inductive ButtonId
  | run | debug
  deriving DecidableEq, Repr

/-- The object form of a setting; a missing field is `none`. -/
structure ButtonConfig where
  script : Option Text := none
  cwd : Option Text := none
  args : Option (List Text) := none
  floatingWindow : Option Bool := none
  autoClose : Option Bool := none
  deriving DecidableEq, Repr

/-- The value of a setting as VS Code returns it. -/
inductive Raw
  | undefined
  | str (s : Text)
  | obj (c : ButtonConfig)
  deriving DecidableEq, Repr

/-- The settings of a button. -/
def getConfig : Raw → ButtonConfig
  | .str s => if s = [] then {} else { script := some s }
  | .obj c => c
  | .undefined => {}

/-- `Boolean(x)` for an optional string. -/
def truthy : Option Text → Bool
  | none => false
  | some s => !s.isEmpty

/-- The button has a non-empty script, in either form. -/
def HasScript : Raw → Prop
  | .undefined => False
  | .str s => s ≠ []
  | .obj c => ∃ s, c.script = some s ∧ s ≠ []

/-- What `syncContext` computes is what the settings say. -/
theorem truthy_getConfig (r : Raw) : truthy (getConfig r).script = true ↔ HasScript r := by
  cases r with
  | undefined => simp [getConfig, truthy, HasScript]
  | str s =>
    by_cases hs : s = []
    · simp [getConfig, truthy, HasScript, hs]
    · simp [getConfig, truthy, HasScript, hs]
  | obj c =>
    obtain ⟨script, _, _, _, _⟩ := c
    cases script with
    | none => simp [getConfig, truthy, HasScript]
    | some s => simp [getConfig, truthy, HasScript]

end Lightbox.Extension.Config
