import Mathlib.Tactic.Linarith

/-!
# Identifiers, constants and index entries

The integer types of `const.h` are `Nat` and `Int` here. Where a function
depends on their width (the comparator, the serializer) it says so itself.
-/

namespace Loxim.Indexes

abbrev Lid := Nat
abbrev Ts := Int
abbrev Tid := Int
abbrev NodeAddress := Nat

/-- The modifier of an entry whose transaction was rolled back. -/
def Tid.rolledBack : Tid := -2

/-- The modifier the cleaner writes over a transaction beyond the horizon. -/
def Tid.beyondHorizon : Tid := -3

/-- `STORE_IXR_NULLVALUE`: no time, or no transaction. -/
def nullValue : Int := -1

def nodeSize : Nat := 8192

/-- `sizeof(Node)`: seven four-byte fields, `leaf` padded to four bytes. -/
def nodeHeaderSize : Nat := 28

def maxNodeCapacity : Nat := nodeSize - nodeHeaderSize

/-- `NEW_NODE`, the address that stands for no node. -/
def newNode : NodeAddress := 2 ^ 32 - 1

def maxNodeAddr : NodeAddress := 2 ^ 32 - 1 - nodeSize - 1

def maxStringLen : Nat := 255

/-- `sizeof(RootEntry)`. -/
def rootEntrySize : Nat := 16

/-- `sizeof(NodeEntry)`. -/
def nodeEntrySize : Nat := 8

def maxIndexStructSize : Nat := max rootEntrySize nodeEntrySize

structure RootEntry where
  modyfierTransactionId : Tid
  addTime : Ts
  delTime : Ts
  logicalID : Lid
  deriving DecidableEq, Repr

/-- How many entries each rolled back transaction still has in an index. -/
abbrev RolledBackIndex := Std.ExtTreeMap Tid Nat

abbrev RolledBack := Std.ExtTreeMap Lid RolledBackIndex

end Loxim.Indexes
