/-!
# Option flags

A form or option carries 32 flag bits. They decide how the option is drawn and stored and never
how it is read, so unknown bits are kept.

The known bits are read by name, and the attributes of a variable are made of them.
-/

namespace SetupForms

/-- The flag bits of a form or option. -/
structure Flags where
  /-- all 32 bits, known or not -/
  bits : UInt32
  deriving DecidableEq

namespace Flags

/-- Whether one of the bits of `mask` is set. -/
def has (f : Flags) (mask : UInt32) : Bool := f.bits &&& mask != 0

/-- The value may not be changed. -/
def isReadOnly (f : Flags) : Bool := f.has 0x01

/-- The option is hidden. -/
def isSuppressed (f : Flags) : Bool := f.has 0x04

/-- The variable is lost at a reset. -/
def isVolatile (f : Flags) : Bool := f.has 0x08

/-- The variable stays accessible after boot. -/
def isRuntime (f : Flags) : Bool := f.has 0x10

/-- The option is shown but refuses input: bit 5 asks for it, and bit 1 marks an option whose
dependency is unmet. -/
def isGrayedOut (f : Flags) : Bool := f.has 0x22

end Flags

/-- How a renderer shows an element. -/
structure Visibility where
  /-- not shown at all -/
  suppressed : Bool := false
  /-- shown, but takes no input -/
  grayedOut : Bool := false
  deriving DecidableEq

/-- The visibility that flags ask for. -/
def Flags.visibility (f : Flags) : Visibility where
  suppressed := f.isSuppressed
  grayedOut := f.isGrayedOut

/-- The attribute word of a variable made for an option: bit 1 for access during boot, bit 0
unless the option is volatile, bit 2 for access after boot. -/
def Flags.attributes (f : Flags) : UInt32 :=
  2 ||| (if f.isVolatile then 0 else 1) ||| (if f.isRuntime then 4 else 0)

end SetupForms
