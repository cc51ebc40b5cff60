/-!
# Monitors

Long analyses are never interrupted; they ask a monitor at fixed points whether to go on.
-/
namespace ProductLine

/-- Asked whether the analysis is canceled; like a backend it acts on a world. -/
abbrev Monitor (ω : Type) := ω → Bool × ω

namespace Monitor

variable {ω : Type}

/-- The monitor that never cancels. -/
def never : Monitor ω := fun w => (false, w)

/-- The monitor that cancels when the world says so. -/
def reading (canceled : ω → Bool) : Monitor ω := fun w => (canceled w, w)

end Monitor

end ProductLine
