import GradualScript.Value.Basic

/-!
# Slots

A table keeps its entries in slots. Removing an entry leaves a tombstone, so that a
search for another key that once passed over the entry still gets past its slot.
-/

set_option autoImplicit false

namespace GradualScript

/-- A key and the value stored under it. -/
structure Entry where
  key : Value
  value : Value
deriving DecidableEq

/-- A place for an entry. -/
inductive Slot where
  | empty
  | tombstone
  | occupied (entry : Entry)
deriving DecidableEq

namespace Slot

def content? : Slot → Option Entry
  | .occupied e => some e
  | _ => none

def isVacant : Slot → Bool
  | .occupied _ => false
  | _ => true

/-- Whether a search for a key ends at a slot: the key is there, or it would have been
put there. -/
def endsSearch (key : Value) : Slot → Bool
  | .empty => true
  | .tombstone => false
  | .occupied e => e.key.same key

end Slot

end GradualScript
