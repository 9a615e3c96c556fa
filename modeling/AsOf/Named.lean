/-!
# Items by name

A `Named α` keeps items in the order of their names, one for each name.
-/
namespace AsOf

/-- Items by name, in the order of the names. -/
abbrev Named (α : Type) := List (String × α)

namespace Named

variable {α β : Type}

/-- Puts an item at its place, instead of one of the same name. -/
def insert (name : String) (x : α) : Named α → Named α
  | [] => [(name, x)]
  | (n, y) :: rest =>
    if name < n then (name, x) :: (n, y) :: rest
    else if name = n then (n, x) :: rest
    else (n, y) :: insert name x rest

def ofList (items : List (String × α)) : Named α :=
  items.foldl (fun m (name, x) => insert name x m) []

def get? (m : Named α) (name : String) : Option α := m.lookup name

/-- All items but the one of a name. -/
def erase (m : Named α) (name : String) : Named α := m.filter (·.1 != name)

def names (m : Named α) : List String := m.map (·.1)

def items (m : Named α) : List α := m.map (·.2)

end Named
end AsOf
