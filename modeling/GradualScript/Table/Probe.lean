import GradualScript.Table.Slot

/-!
# Probing

A search for a key walks over the slots from the one its hash points to, one after the
other, and from the last one on to the first. The walk is given the number of slots it
may look at. With as many as there are slots, it looks at each of them once.
-/

set_option autoImplicit false

namespace GradualScript

namespace Probe

def next (capacity i : Nat) : Nat := (i + 1) % capacity

/-- The first slot from `i` on at which `stop` holds, among the next `budget` ones. -/
def firstSlot? (slots : Array Slot) (stop : Slot → Bool) (i : Nat) : Nat → Option Nat
  | 0 => none
  | budget + 1 =>
    match slots[i]? with
    | none => none
    | some slot =>
      if stop slot then some i else firstSlot? slots stop (next slots.size i) budget

end Probe

end GradualScript
