import GradualScript.Table.Capacity
import GradualScript.Table.Probe
import GradualScript.Ty.Basic
import GradualScript.Value.Hash

/-!
# Tables

A table maps values to values. It is a hash table with open addressing: an entry is in
the first slot that was free on the walk from the slot its key hashes to. Keys are
compared as a running program compares them (`Value.same`); not-a-number, which is not
even the same as itself, cannot be a key.

The table counts its entries and its tombstones. Before a new entry would overload it,
the entries are moved to new slots, without the tombstones: twice as many slots if the
entries alone would overload the table, and as many as before otherwise.

The order of `Table.entries` is the order of the slots.
-/

set_option autoImplicit false

namespace GradualScript

/-- A hash table from values to values. -/
structure Table where
  slots : Array Slot
  size : Nat
  tombstones : Nat
deriving DecidableEq

/-- What a table cannot do. -/
inductive TableError where
  | nanKey
  | cannotAllocate (requested : UInt64)
deriving DecidableEq

def TableError.message : TableError → String
  | .nanKey => "NaN can't be used as a table key"
  | .cannotAllocate requested =>
    "can't allocate a table with " ++ toString requested.toNat ++ " slots"

namespace Table

/-! ## Fresh tables -/

def emptySlots (capacity : Nat) : Array Slot := Array.replicate capacity .empty

def fresh (capacity : Nat) : Table := ⟨emptySlots capacity, 0, 0⟩

def empty : Table := fresh Capacity.initial

/-- A table with room for a requested number of slots, if they can be counted. -/
def withCapacity (requested : UInt64) : Except TableError Table :=
  let capacity := Capacity.round requested.toNat
  if capacity < Capacity.limit then .ok (fresh capacity) else .error (.cannotAllocate requested)

/-! ## Looking up -/

def capacity (t : Table) : Nat := t.slots.size

def isEmpty (t : Table) : Bool := t.size == 0

/-- The entries in the order of their slots. -/
def entries (t : Table) : List Entry := t.slots.toList.filterMap Slot.content?

/-- Where the entry of a key is, and the entry. -/
def find? (t : Table) (key : Value) : Option (Nat × Entry) := do
  let i ← Probe.firstSlot? t.slots (Slot.endsSearch key) (key.slotIndex t.capacity) t.capacity
  let slot ← t.slots[i]?
  let e ← slot.content?
  return (i, e)

def get? (t : Table) (key : Value) : Option Value := (t.find? key).map (·.2.value)

def contains (t : Table) (key : Value) : Bool := (t.find? key).isSome

/-- Whether every entry fits a type. Only table types are fit by a table, and an entry
fits if the kinds of its key and its value are compatible with the key type and the
value type. -/
def conformsTo (t : Table) : Ty → Bool
  | .table key value =>
    t.entries.all fun e =>
      key.compatible (.primitive e.key.kind) && value.compatible (.primitive e.value.kind)
  | _ => false

/-! ## Changing entries -/

/-- The slot where the entry of an absent key goes: the first vacant one on its walk. -/
def vacantSlot? (slots : Array Slot) (key : Value) : Option Nat :=
  Probe.firstSlot? slots Slot.isVacant (key.slotIndex slots.size) slots.size

def settle (slots : Array Slot) (e : Entry) : Array Slot :=
  match vacantSlot? slots e.key with
  | none => slots
  | some i => slots.setIfInBounds i (.occupied e)

/-- Moves the entries, in order, to new slots and leaves the tombstones behind. -/
def rehash (t : Table) (capacity : Nat) : Table :=
  ⟨t.entries.foldl settle (emptySlots capacity), t.size, 0⟩

def reserve (t : Table) : Table :=
  if Capacity.overloaded (t.size + t.tombstones + 1) t.capacity then
    if Capacity.overloaded (t.size + 1) t.capacity then t.rehash (t.capacity * 2)
    else t.rehash t.capacity
  else t

/-- Adds an entry whose key is absent. The slot it goes to may have been a tombstone,
which is then no longer counted. -/
def place (t : Table) (e : Entry) : Table :=
  let reused := (vacantSlot? t.slots e.key).bind (t.slots[·]?) == some .tombstone
  ⟨settle t.slots e, t.size + 1, if reused then t.tombstones - 1 else t.tombstones⟩

/-- Changes the value stored under a key and gives the old one. A key that is absent
stays so. -/
def replace (t : Table) (key value : Value) : Option Value × Table :=
  match t.find? key with
  | none => (none, t)
  | some (i, e) =>
    (some e.value, { t with slots := t.slots.setIfInBounds i (.occupied { e with value }) })

/-- Stores a value under a key and gives the value that was stored before. A key that
is the same as the stored one does not take its place. -/
def insert (t : Table) (key value : Value) : Except TableError (Option Value × Table) :=
  if key.isNaN then .error .nanKey
  else if t.contains key then .ok (t.replace key value)
  else .ok (none, t.reserve.place ⟨key, value⟩)

def remove (t : Table) (key : Value) : Option Value × Table :=
  match t.find? key with
  | none => (none, t)
  | some (i, e) =>
    (some e.value, ⟨t.slots.setIfInBounds i .tombstone, t.size - 1, t.tombstones + 1⟩)

end Table

end GradualScript
