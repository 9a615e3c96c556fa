/-!
# Assets

An asset is known by its number, a 32-bit word.
-/
namespace AsOf

/-- An asset. -/
structure Sid where
  id : UInt32
deriving DecidableEq, Repr, Hashable

namespace Sid

instance : LE Sid := ⟨fun a b => a.id ≤ b.id⟩
instance : LT Sid := ⟨fun a b => a.id < b.id⟩
instance (a b : Sid) : Decidable (a ≤ b) := inferInstanceAs (Decidable (a.id ≤ b.id))
instance (a b : Sid) : Decidable (a < b) := inferInstanceAs (Decidable (a.id < b.id))

/-- The asset with a number, if the number is one. -/
def ofInt? (n : Int) : Option Sid :=
  if 0 ≤ n && n < 0x100000000 then some ⟨UInt32.ofNat n.toNat⟩ else none

def toNat (s : Sid) : Nat := s.id.toNat

def text (s : Sid) : String := toString s.id

/-- Ascending, without repeats. -/
def sortedSet (sids : List Sid) : List Sid :=
  (sids.mergeSort fun a b => decide (a ≤ b)).eraseDups

end Sid
end AsOf
