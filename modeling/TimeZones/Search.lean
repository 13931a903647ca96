/-! Binary search in arrays. -/
namespace TimeZones.Search
variable {α : Type}

/-- Where `p` turns false between `lo` and `hi`, if it holds before some place and fails from there
on. -/
def boundary (p : α → Bool) (xs : Array α) (lo hi : Nat) (h : hi ≤ xs.size) : Nat :=
  if hlt : lo < hi then
    have hm : (lo + hi) / 2 < xs.size := by omega
    if p xs[(lo + hi) / 2] then boundary p xs ((lo + hi) / 2 + 1) hi h
    else boundary p xs lo ((lo + hi) / 2) (by omega)
  else lo
termination_by hi - lo

/-- How many elements come before the first that fails `p`, if all that hold come first. -/
def partitionPoint (p : α → Bool) (xs : Array α) : Nat := boundary p xs 0 xs.size (Nat.le_refl _)

/-- The element whose key is `k`, in an array with strictly increasing keys. -/
def byKey (key : α → String) (k : String) (xs : Array α) : Option α :=
  xs[partitionPoint (fun x => key x < k) xs]?.filter fun x => key x = k

end TimeZones.Search
