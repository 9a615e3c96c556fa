/-!
# Searching an ordered sequence

`partitionPoint p xs` is the number of leading items that satisfy `p`, found by
halving, when the items that satisfy `p` all come first. On any other sequence
it is the place at which the halving ends.
-/
namespace AsOf

/-- Halves the `size` items from `base` on until one is left. -/
def narrow {α : Type} (p : α → Bool) (xs : Array α) (base size : Nat) : Nat :=
  if size ≤ 1 then if xs[base]?.any p then base + 1 else base
  else
    let mid := base + size / 2
    narrow p xs (if xs[mid]?.any p then mid else base) (size - size / 2)
termination_by size

/-- Where the items that satisfy `p` end. -/
def partitionPoint {α : Type} (p : α → Bool) (xs : Array α) : Nat :=
  if xs.isEmpty then 0 else narrow p xs 0 xs.size

end AsOf
