/-!
# Limits

Two bounds that a walk or lookup puts on what it reads.
-/

namespace SetupForms

/-- The bounds on what is read. -/
structure Limits where
  /-- the longest payload of a text option's default -/
  maxDefaultLength : UInt32 := 0xff
  /-- the deepest nesting of forms, with the root at depth 0 -/
  maxDepth : Nat := 32
  deriving DecidableEq

end SetupForms
