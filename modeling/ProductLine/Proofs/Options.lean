import Mathlib.Tactic.Common
import ProductLine.CommandLine.Run
/-!
# Updates of options

What an update does to one parameter is told by what it sets the parameter to.  Merging takes the
later of two values and an update falls back on the old one, so updates can be merged in any groups
before they are made.

* `Parameter` names the options one by one, and `Options.eq_of_get` says that there are no others;
* `OptionsUpdate.get?_merge` and `Options.get_update` look at one parameter;
* `Options.update_merged` is about any number of updates, merged or made one by one;
* `Tool.options_eq` says which updates lead to the options of a run.
-/
namespace ProductLine

/-! ## Parameters -/

/-- The parameters of analyses and build runs. -/
inductive Parameter where
  | solutionBuffer
  | schedulerCapacity
  | bufferFirst
  | order
  | interactionStrength
  | workers
  | waitIntervalMs
  | countLimit
  | maxConfigurations
  | countFirst
  | clauseLimit
deriving DecidableEq, Repr

/-- What a parameter can be. -/
abbrev Parameter.Value : Parameter → Type
  | order => BuildOrder
  | bufferFirst | countFirst => Bool
  | solutionBuffer | schedulerCapacity | interactionStrength | workers | waitIntervalMs
  | countLimit | maxConfigurations | clauseLimit => Nat

/-- What some options say about a parameter. -/
def Options.get (o : Options) : (p : Parameter) → p.Value
  | .solutionBuffer => o.solutionBuffer
  | .schedulerCapacity => o.schedulerCapacity
  | .bufferFirst => o.bufferFirst
  | .order => o.order
  | .interactionStrength => o.interactionStrength
  | .workers => o.workers
  | .waitIntervalMs => o.waitIntervalMs
  | .countLimit => o.countLimit
  | .maxConfigurations => o.maxConfigurations
  | .countFirst => o.countFirst
  | .clauseLimit => o.clauseLimit

/-- What an update sets a parameter to, if it does. -/
def OptionsUpdate.get? (u : OptionsUpdate) : (p : Parameter) → Option p.Value
  | .solutionBuffer => u.solutionBuffer
  | .schedulerCapacity => u.schedulerCapacity
  | .bufferFirst => u.bufferFirst
  | .order => u.order
  | .interactionStrength => u.interactionStrength
  | .workers => u.workers
  | .waitIntervalMs => u.waitIntervalMs
  | .countLimit => u.countLimit
  | .maxConfigurations => u.maxConfigurations
  | .countFirst => u.countFirst
  | .clauseLimit => u.clauseLimit

/-- Options are told apart by their parameters. -/
theorem Options.eq_of_get {o o' : Options} (h : ∀ p, o.get p = o'.get p) : o = o' := by
  cases o
  cases o'
  simp only [Options.mk.injEq]
  exact ⟨h .solutionBuffer, h .schedulerCapacity, h .bufferFirst, h .order, h .interactionStrength,
    h .workers, h .waitIntervalMs, h .countLimit, h .maxConfigurations, h .countFirst,
    h .clauseLimit⟩

/-! ## Merging -/

namespace OptionsUpdate

variable {u v w : OptionsUpdate} {p : Parameter}

/-- Updates are told apart by what they set. -/
theorem eq_of_get? (h : ∀ p, u.get? p = v.get? p) : u = v := by
  cases u
  cases v
  simp only [OptionsUpdate.mk.injEq]
  exact ⟨h .solutionBuffer, h .schedulerCapacity, h .bufferFirst, h .order, h .interactionStrength,
    h .workers, h .waitIntervalMs, h .countLimit, h .maxConfigurations, h .countFirst,
    h .clauseLimit⟩

@[simp] theorem get?_empty : get? {} p = none := by cases p <;> rfl

/-- What both set is taken from the second. -/
@[simp] theorem get?_merge : (u.merge v).get? p = (v.get? p).or (u.get? p) := by
  cases p <;> exact Option.orElse_eq_or

/-- It does not matter which updates are merged first. -/
theorem merge_assoc (u v w : OptionsUpdate) : (u.merge v).merge w = u.merge (v.merge w) :=
  eq_of_get? (fun p => by simp [Option.or_assoc])

theorem empty_merge (u : OptionsUpdate) : merge {} u = u := eq_of_get? (fun p => by simp)

theorem merge_empty (u : OptionsUpdate) : merge u {} = u := eq_of_get? (fun p => by simp)

end OptionsUpdate

/-! ## Updates -/

namespace Options

variable {o : Options} {p : Parameter}

/-- A parameter has the value that the update sets it to, and its old one if it is not set. -/
@[simp] theorem get_update (o : Options) (u : OptionsUpdate) (p : Parameter) :
    (o.update u).get p = (u.get? p).getD (o.get p) := by
  cases p <;> rfl

@[simp] theorem update_empty (o : Options) : o.update {} = o := eq_of_get (fun p => by simp)

/-- A merged update changes options as its parts do one after the other. -/
theorem update_merge (o : Options) (u v : OptionsUpdate) :
    o.update (u.merge v) = (o.update u).update v :=
  eq_of_get (fun p => by simp [Option.getD_or])

/-- Updates that were merged first are made like one after the other. -/
theorem update_foldl_merge (o : Options) (u : OptionsUpdate) (us : List OptionsUpdate) :
    o.update (us.foldl .merge u) = us.foldl update (o.update u) := by
  induction us generalizing u with
  | nil => rfl
  | cons v us ih => rw [List.foldl_cons, ih, update_merge, List.foldl_cons]

/-- **Updates can be merged before they are made.**  Any number of updates, merged in order, change
options as the updates do one after the other.  How the updates are grouped makes no difference, nor
do empty ones, and an update leaves each parameter as it was that it does not set. -/
theorem update_merged :
    (∀ (o : Options) (us : List OptionsUpdate), o.update (us.foldl .merge {}) = us.foldl update o) ∧
    (∀ u v w : OptionsUpdate, (u.merge v).merge w = u.merge (v.merge w)) ∧
    (∀ u : OptionsUpdate, OptionsUpdate.merge {} u = u ∧ u.merge {} = u) ∧
    ∀ (o : Options) (u : OptionsUpdate) (p : Parameter),
      (o.update u).get p = (u.get? p).getD (o.get p) := by
  refine ⟨?_, OptionsUpdate.merge_assoc, ?_, get_update⟩
  · intro o us
    rw [update_foldl_merge, update_empty]
  · exact fun u => ⟨u.empty_merge, u.merge_empty⟩

/-- The later of two values counts, wherever the updates are split. -/
example :
    let u : OptionsUpdate := { order := some .interaction, workers := some 3 }
    let v : OptionsUpdate := { interactionStrength := some 3 }
    let w : OptionsUpdate := { workers := some 5 }
    ({} : Options).update ((u.merge v).merge w) =
      { order := .interaction, interactionStrength := 3, workers := 5 } := by
  decide

end Options

/-! ## The options of a run -/

namespace Tool

/-- The updates that a run reads: from the file with settings, if there is one, and then from each
of the single settings. -/
def updates (a : Arguments) (config : Option Contents) : Except ToolError (List OptionsUpdate) :=
  (config.toList.map updateOfFile ++ a.settings.map updateOfText).mapM id

/-- The updates from several texts are merged in their order, unless a text fails. -/
theorem updateOfTexts_eq (u : OptionsUpdate) (documents : List String) :
    updateOfTexts u documents =
      ((documents.map updateOfText).mapM id).map (List.foldl .merge u) := by
  induction documents generalizing u with
  | nil => rfl
  | cons document documents ih =>
    rw [updateOfTexts, List.map_cons, List.mapM_cons, id_eq]
    cases updateOfText document with
    | error cause => rfl
    | ok v =>
      refine (ih (u.merge v)).trans ?_
      cases (documents.map updateOfText).mapM id <;> rfl

/-- The single settings change what the updates before them lead to. -/
theorem map_update_updateOfTexts (u : OptionsUpdate) (documents : List String) :
    (updateOfTexts u documents).map ({} : Options).update =
      ((documents.map updateOfText).mapM id).map
        (List.foldl Options.update (({} : Options).update u)) := by
  rw [updateOfTexts_eq]
  cases (documents.map updateOfText).mapM id with
  | error cause => rfl
  | ok us => exact congrArg Except.ok (Options.update_foldl_merge {} u us)

/-- The options of a run are the defaults, changed by the updates that it reads, one after the
other. -/
theorem options_eq (a : Arguments) (config : Option Contents) :
    options a config = (updates a config).map (List.foldl Options.update {}) := by
  cases config with
  | none =>
    have hsettings := map_update_updateOfTexts {} a.settings
    rw [Options.update_empty] at hsettings
    exact hsettings
  | some file =>
    have hfile : updates a (some file) = (do
        let u ← updateOfFile file
        let us ← (a.settings.map updateOfText).mapM id
        return u :: us) := List.mapM_cons
    rw [options, hfile, Option.elim_some]
    cases updateOfFile file with
    | error cause => rfl
    | ok u =>
      refine (map_update_updateOfTexts u a.settings).trans ?_
      cases (a.settings.map updateOfText).mapM id <;> rfl

end Tool

end ProductLine
