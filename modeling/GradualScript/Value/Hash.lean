import GradualScript.Value.Basic

/-!
# Hashing keys

Keys are hashed with the 64-bit FNV-1a function, a fold over bytes. A text is hashed
by the bytes of its UTF-8 encoding alone. Every other value is hashed by a tag byte
for its kind followed by its payload, so that for instance `true` and the text of
the single byte 1 do not collide as a rule. Numbers are hashed in canonical form:
keys that are the same at run time have the same hash.

A table with a power of two of slots starts to look for a key at `Value.slotIndex`,
the low bits of the hash.
-/

set_option autoImplicit false

namespace GradualScript

namespace Fnv

def offset : UInt64 := 14695981039346656037

def prime : UInt64 := 1099511628211

def absorb (state : UInt64) (byte : UInt8) : UInt64 := (state ^^^ byte.toUInt64) * prime

def absorbAll (state : UInt64) (bytes : List UInt8) : UInt64 := bytes.foldl absorb state

end Fnv

namespace Value

def hashedBytes : Value → List UInt8
  | .text s => s.toUTF8.data.toList
  | .number x => 1 :: x.canonical.octets
  | .boolean b => [2, if b then 1 else 0]
  | .nil => [3]

def hash (v : Value) : UInt64 := Fnv.absorbAll Fnv.offset v.hashedBytes

/-- The slot at which a table of `capacity` slots starts to look for a key. The
capacity is a power of two, so the mask keeps the low bits of the hash. -/
def slotIndex (key : Value) (capacity : Nat) : Nat := key.hash.toNat &&& (capacity - 1)

end Value

end GradualScript
