import ProductLine.Options
import ProductLine.Text.Natural
import ProductLine.Text.Position
/-!
# Settings

Options are given from outside as settings, which are names with values.  An option that is a
number takes natural numbers that fit into a machine word.

* `OptionsUpdate.ofSettings` is strict: every name must be that of an option, and of another one
  each time, but a setting may leave its option unset;
* `Options.ofSettings` is lenient: names of no option are skipped, and options without a setting
  have their defaults.
-/
namespace ProductLine

/-- The value of a setting. -/
inductive SettingValue where
  | integer (value : Int)
  | boolean (value : Bool)
  | text (value : String)
  /-- A name for which there is nothing more to say, where a choice could have said more. -/
  | choice (name : String)
  /-- A name with something more to say about it. -/
  | detailedChoice (name : String)
  /-- The setting has no value. -/
  | absent
  /-- A value that no option takes. -/
  | other
deriving DecidableEq, Repr

/-- A name with a value. -/
abbrev Setting := String × SettingValue

/-- Why settings are refused. -/
inductive SettingError where
  | unknownOption (name : String)
  | unknownOrder (name : String)
  /-- The option does not take the value. -/
  | invalidValue (name : String)
  /-- There are two settings for the option. -/
  | repeated (name : String)
deriving DecidableEq, Repr

/-- Names in quotes with commas between them. -/
def SettingError.quoted (names : List String) : String :=
  ", ".intercalate (names.map (fun name => "`" ++ name ++ "`"))

/-- The wording of a refused setting. -/
def SettingError.message : SettingError → String
  | .unknownOption name =>
      "unknown option " ++ quoted [name] ++ ", expected one of " ++
        quoted (Options.help.map Prod.fst)
  | .unknownOrder name =>
      "unknown order " ++ quoted [name] ++ ", expected one of " ++
        quoted ["insertion", "difference", "interaction"] ++ " for key `order`"
  | .invalidValue name => "invalid value for key " ++ quoted [name]
  | .repeated name => "repeated option " ++ quoted [name]

/-! ## Values -/

namespace SettingValue

/-- The value as a natural number that fits into a machine word. -/
def natural? : SettingValue → Option Nat
  | integer value =>
      if 0 ≤ value ∧ value.toNat < Text.wordBound then some value.toNat else none
  | _ => none

/-- The value as a truth value. -/
def boolean? : SettingValue → Option Bool
  | boolean value => some value
  | _ => none

/-- The value as a build order, which is given by its name or chosen. -/
def order? : SettingValue → Option BuildOrder
  | text name | choice name => BuildOrder.ofName? name
  | _ => none

end SettingValue

/-! ## Updates -/

namespace OptionsUpdate

/-- The update that gives the option with a name a value: `none` if no option has the name, and
`some none` if the option does not take the value. -/
def single? (value : SettingValue) : (name : String) → Option (Option OptionsUpdate)
  | "solution_buffer" => some (value.natural?.map fun n => { solutionBuffer := some n })
  | "scheduler_capacity" => some (value.natural?.map fun n => { schedulerCapacity := some n })
  | "buffer_first" => some (value.boolean?.map fun b => { bufferFirst := some b })
  | "order" => some (value.order?.map fun o => { order := some o })
  | "interaction_strength" => some (value.natural?.map fun n => { interactionStrength := some n })
  | "workers" => some (value.natural?.map fun n => { workers := some n })
  | "wait_interval_ms" => some (value.natural?.map fun n => { waitIntervalMs := some n })
  | "count_limit" => some (value.natural?.map fun n => { countLimit := some n })
  | "max_configurations" => some (value.natural?.map fun n => { maxConfigurations := some n })
  | "count_first" => some (value.boolean?.map fun b => { countFirst := some b })
  | "clause_limit" => some (value.natural?.map fun n => { clauseLimit := some n })
  | _ => none

/-- Why the value of a setting is refused. -/
def refusal : Setting → SettingError
  | ("order", .text name) | ("order", .choice name) | ("order", .detailedChoice name) =>
      if (BuildOrder.ofName? name).isNone then .unknownOrder name else .invalidValue "order"
  | (name, _) => .invalidValue name

/-- The update that a setting makes after settings for other options.  A setting without a value
makes none. -/
def ofSetting (others : List String) (s : Setting) : Except SettingError OptionsUpdate :=
  match single? s.2 s.1 with
  | none => .error (.unknownOption s.1)
  | some update? =>
      if others.contains s.1 then .error (.repeated s.1)
      else
        match update? with
        | some update => .ok update
        | none => if s.2 = .absent then .ok {} else .error (refusal s)

/-- The update that some settings make after settings for other options. -/
def ofSettingsAfter (others : List String) : List Setting → Except SettingError OptionsUpdate
  | [] => .ok {}
  | s :: rest => do
      let first ← ofSetting others s
      let following ← ofSettingsAfter (s.1 :: others) rest
      return first.merge following

/-- The update that some settings make, no two of which are for the same option. -/
def ofSettings (settings : List Setting) : Except SettingError OptionsUpdate :=
  ofSettingsAfter [] settings

end OptionsUpdate

namespace Options

/-- The options after one more setting, unless it has the name of no option. -/
def set (o : Options) (s : Setting) : Except SettingError Options :=
  match OptionsUpdate.single? s.2 s.1 with
  | none => .ok o
  | some (some update) => .ok (o.update update)
  | some none => .error (OptionsUpdate.refusal s)

/-- The options that some settings describe. -/
def ofSettings : List Setting → Options → Except SettingError Options
  | [], o => .ok o
  | s :: rest, o => do
      let o ← o.set s
      ofSettings rest o

end Options

end ProductLine
