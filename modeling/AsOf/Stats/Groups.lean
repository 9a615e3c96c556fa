import AsOf.Stats.Rank

/-!
# Cross-sections by group

`grouped f` applies a function of a row to the members of each group on their
own. A value without a group gets none.
-/
namespace AsOf.Stats

/-- The positions of one group. -/
def members (groups : List (Option Int)) (g : Int) : List Nat :=
  (groups.zipIdx.filter fun (h, _) => h == some g).map (·.2)

/-- The groups that occur. -/
def distinct (groups : List (Option Int)) : List Int :=
  (groups.filterMap id).eraseDups

/-- `f` of the values of each group, put back in place. -/
def grouped (f : List Float → List Float) (values : List Float)
    (groups : List (Option Int)) : List Float :=
  let row := values.toArray
  scatter values.length <| (distinct groups).flatMap fun g =>
    let is := members groups g
    is.zip (f (is.map fun i => row.getD i nan))

end AsOf.Stats
