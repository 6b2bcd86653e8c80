import NodeScript.Binary.Basic

/-!
# Angles

Rotations are held in whole units of which a full turn has 65536, and shown in degrees. Both
conversions are single precision arithmetic, so they lose the low bits of large angles.
-/

namespace NodeScript.Angle

/-- The units of a full turn. -/
def unitsPerTurn : Single :=
  .ofInt 65536

/-- The degrees of a full turn. -/
def degreesPerTurn : Single :=
  .ofInt 360

/-- The whole number of units nearest to an angle in degrees. -/
def ofDegrees (degrees : Single) : Int32 :=
  (unitsPerTurn * (degrees / degreesPerTurn)).toInt32

/-- An angle in degrees. -/
def toDegrees (units : Int32) : Single :=
  degreesPerTurn * (.ofInt units.toInt / unitsPerTurn)

end NodeScript.Angle
