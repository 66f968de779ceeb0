import FiniteVolume.Error

/-!
# Measures

What an integral is taken over, and the tags that stand for it.
-/

namespace FiniteVolume

/-- The measure of an integral. -/
inductive Measure where
  /-- The surface of a control volume: one contribution for each edge. -/
  | controlVolumeSurface
  /-- A control volume: one contribution for each vertex. -/
  | controlVolume
  /-- The boundary: one contribution for each boundary face. -/
  | boundarySurface
deriving DecidableEq

namespace Measure

/-- The tag that stands for a measure. -/
def tag : Measure → String
  | controlVolumeSurface => "dS"
  | controlVolume => "dV"
  | boundarySurface => "dGamma"

/-- The name of a measure in descriptions. -/
def describe : Measure → String
  | controlVolumeSurface => "ControlVolumeSurface"
  | controlVolume => "ControlVolume"
  | boundarySurface => "BoundarySurface"

/-- The measure that a tag stands for. -/
def ofTag (tag : String) : Outcome Measure :=
  match tag with
  | "dS" => .ok controlVolumeSurface
  | "dV" => .ok controlVolume
  | "dGamma" => .ok boundarySurface
  | other => Outcome.reject (.unknownMeasure other)

end Measure

end FiniteVolume
