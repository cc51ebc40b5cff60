import ProductLine.Build.Queue
/-!
# Options

The parameters of analyses and build runs.  An update sets some of them; updates are merged, later
ones winning, and then applied.
-/
namespace ProductLine

/-- The order in which configurations are built. -/
inductive BuildOrder where
  | insertion
  | difference
  | interaction
deriving DecidableEq, Repr, Inhabited

/-- The build order with a name. -/
def BuildOrder.ofName? : String → Option BuildOrder
  | "insertion" => some .insertion
  | "difference" => some .difference
  | "interaction" => some .interaction
  | _ => none

/-- The parameters of analyses and build runs. -/
structure Options where
  /-- Models kept to skip tests of implications. -/
  solutionBuffer : Nat := 1000
  /-- Configurations buffered before the producer has to wait. -/
  schedulerCapacity : Nat := 500
  /-- Whether everything is buffered and sorted before anything is built. -/
  bufferFirst : Bool := false
  order : BuildOrder := .insertion
  /-- The size of the combinations that the interaction order covers. -/
  interactionStrength : Nat := 2
  /-- Build workers, zero for twice the available parallelism. -/
  workers : Nat := 0
  /-- Milliseconds between two looks at a cancellation. -/
  waitIntervalMs : Nat := 1000
  /-- The count at which counting stops. -/
  countLimit : Nat := 1000000
  /-- The number of configurations after which to stop, zero for none. -/
  maxConfigurations : Nat := 0
  /-- Whether to count before building. -/
  countFirst : Bool := false
  /-- The most clauses of a constraint. -/
  clauseLimit : Nat := 100000
deriving DecidableEq, Repr, Inhabited

/-- Values for some of the options. -/
structure OptionsUpdate where
  solutionBuffer : Option Nat := none
  schedulerCapacity : Option Nat := none
  bufferFirst : Option Bool := none
  order : Option BuildOrder := none
  interactionStrength : Option Nat := none
  workers : Option Nat := none
  waitIntervalMs : Option Nat := none
  countLimit : Option Nat := none
  maxConfigurations : Option Nat := none
  countFirst : Option Bool := none
  clauseLimit : Option Nat := none
deriving DecidableEq, Repr, Inhabited

/-- The update that sets what either sets; what both set is taken from the second. -/
def OptionsUpdate.merge (u v : OptionsUpdate) : OptionsUpdate where
  solutionBuffer := v.solutionBuffer <|> u.solutionBuffer
  schedulerCapacity := v.schedulerCapacity <|> u.schedulerCapacity
  bufferFirst := v.bufferFirst <|> u.bufferFirst
  order := v.order <|> u.order
  interactionStrength := v.interactionStrength <|> u.interactionStrength
  workers := v.workers <|> u.workers
  waitIntervalMs := v.waitIntervalMs <|> u.waitIntervalMs
  countLimit := v.countLimit <|> u.countLimit
  maxConfigurations := v.maxConfigurations <|> u.maxConfigurations
  countFirst := v.countFirst <|> u.countFirst
  clauseLimit := v.clauseLimit <|> u.clauseLimit

namespace Options

/-- The options after an update. -/
def update (o : Options) (u : OptionsUpdate) : Options where
  solutionBuffer := u.solutionBuffer.getD o.solutionBuffer
  schedulerCapacity := u.schedulerCapacity.getD o.schedulerCapacity
  bufferFirst := u.bufferFirst.getD o.bufferFirst
  order := u.order.getD o.order
  interactionStrength := u.interactionStrength.getD o.interactionStrength
  workers := u.workers.getD o.workers
  waitIntervalMs := u.waitIntervalMs.getD o.waitIntervalMs
  countLimit := u.countLimit.getD o.countLimit
  maxConfigurations := u.maxConfigurations.getD o.maxConfigurations
  countFirst := u.countFirst.getD o.countFirst
  clauseLimit := u.clauseLimit.getD o.clauseLimit

/-- The policy of the build queue. -/
def orderingPolicy (o : Options) : OrderingPolicy :=
  match o.order with
  | .insertion => .insertion
  | .difference => .difference
  | .interaction => .interaction o.interactionStrength

/-- The number of workers on a machine that runs `parallelism` threads at once. -/
def workerCount (o : Options) (parallelism : Nat) : Nat :=
  if o.workers = 0 then 2 * parallelism else o.workers

/-- The number of configurations after which to stop, if there is one. -/
def target (o : Options) : Option Nat :=
  if o.maxConfigurations = 0 then none else some o.maxConfigurations

/-- For each option its name and what it is for. -/
def help : List (String × String) := [
  ("solution_buffer",
   "Number of models kept to skip implication checks. (Default: 1000)"),
  ("scheduler_capacity",
   "Number of configurations buffered before the producer has to wait. (Default: 500)"),
  ("buffer_first",
   "Buffer all configurations and sort them before building any. (Default: false)"),
  ("order",
   "Build order: \"insertion\", \"difference\" or \"interaction\". (Default: \"insertion\")"),
  ("interaction_strength",
   "Size of the feature combinations covered by the interaction order. (Default: 2)"),
  ("workers",
   "Number of build workers, 0 for twice the available parallelism. (Default: 0)"),
  ("wait_interval_ms",
   "Milliseconds a waiting producer or worker sleeps between cancellation checks. (Default: 1000)"),
  ("count_limit",
   "Configurations counted before the count is reported as a lower bound. (Default: 1000000)"),
  ("max_configurations",
   "Stop after this many configurations, 0 for no limit. (Default: 0)"),
  ("count_first",
   "Count the configurations before building to know the expected total. (Default: false)"),
  ("clause_limit",
   "Maximal number of clauses a single constraint may translate to. (Default: 100000)")]

/-- A line for each option. -/
def helpLines : List String := help.map (fun (name, purpose) => name ++ ": " ++ purpose)

end Options

end ProductLine
