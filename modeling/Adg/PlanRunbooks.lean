import Adg.SimulationOverlays

/-!
# Runbooks

A runbook has one block of commands for each planned step, two for a
replacement. A block is a template, and what is kept here is what each template
is filled with: the path, the account and the rule that an access step selects
and applies, the share and the account of a share step, the group and the member
of a membership step.
-/

set_option autoImplicit false

namespace Adg.PlanRunbooks
open Adg.Observation Adg.ChangePlans

section Rendering
variable (c : PlannedChange)

/-- The name of the target as it is shown. -/
def shownTarget : String := orElseText c.targetDisplay c.targetKey

/-- The share's own name, the last segment of a key or of a path. -/
def shareName : String := afterLast '\\' (afterLast '|' (shownTarget c))

/-- The SID of a key, which a host may stand before. -/
def sidOfKey (key : String) : String := afterLast '|' key

end Rendering

end Adg.PlanRunbooks
