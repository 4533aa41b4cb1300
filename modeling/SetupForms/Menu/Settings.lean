/-!
# Menu settings

How a menu numbers its questions and what it shows beside them.
-/

namespace SetupForms.Menu

/-- The settings of a menu. -/
structure Settings where
  /-- the question id of object id 0 -/
  componentStart : UInt16 := 0x1000
  /-- the first question id that is out of range -/
  componentEnd : UInt16 := 0xefff
  /-- what is stored in place of an empty text default -/
  invalidString : String := "INVALID"
  /-- whether a changed question asks for a reset -/
  resetRequired : Bool := true
  /-- whether a blank subtitle follows each tree -/
  treeSeparator : Bool := true
  deriving DecidableEq

end SetupForms.Menu
