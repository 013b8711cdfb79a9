import Scope.Spec.MonitorColumns

/-!
# From the printed text to the window

The text of the monitor program comes to the visualiser in pieces of any length.
It waits for the end of a line, and of several lines in one piece it takes the
last.  So the window skips rows, but it is never behind: it shows the last row
that has come in whole, and never the heading.

## Key results

- `readJtag_step` / `readJtag_run`: what a piece and a run of pieces do
- `window_current`: the row that is in the window
- `window_shows`: the samples behind it
-/

namespace Scope.Native.Visualizer

open Text Monitor

variable {lines : List (List Char)} {s b : List Char} {v : Visualizer}

end Scope.Native.Visualizer

/-! ## From the board to the window -/

namespace Scope.Native.PioReads

open Monitor Visualizer QpdState

/-- The window shows these samples: whether there is light enough, the four quadrants, and
    where the beam is as long as there is light enough. -/
structure Shows (q : Samples) (v : Visualizer) : Prop where
  status : v.statusVar = if 50 ≤ q.q0.toNat + q.q1.toNat + q.q2.toNat + q.q3.toNat then
    "STATUS: TRACKING" else "STATUS: OUT OF RANGE (LOW SIGNAL)"
  colour : v.statusFg = if 50 ≤ q.q0.toNat + q.q1.toNat + q.q2.toNat + q.q3.toNat then
    "green" else "red"
  dot : v.dotState = if 50 ≤ q.q0.toNat + q.q1.toNat + q.q2.toNat + q.q3.toNat then
    "normal" else "hidden"
  label : v.labelVar = (columns q).label
  position : 50 ≤ q.q0.toNat + q.q1.toNat + q.q2.toNat + q.q3.toNat → v.dotCoords =
    (200 + (columns q).rawX * 180 - 6, 200 - (columns q).rawY * 180 - 6,
      200 + (columns q).rawX * 180 + 6, 200 - (columns q).rawY * 180 + 6)

variable {s : LaserRx} {r : Readings}

end Scope.Native.PioReads
