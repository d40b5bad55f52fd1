/-!
# Association — keys with values, in the order in which the keys came in

Keys are compared with a given test of sameness. Putting a value under a key that is there
already keeps the place of the entry and the key that was stored first.
-/

namespace DispatchLisp

/-- Entries in the order in which their keys first came in. -/
abbrev Association (κ α : Type) := List (κ × α)

namespace Association

variable {κ α : Type}

/-- The value under a key. -/
def get? (same : κ → κ → Bool) (key : κ) : Association κ α → Option α
  | [] => none
  | (k, v) :: rest => if same k key then some v else get? same key rest

/-- Puts a value under a key. -/
def put (same : κ → κ → Bool) (key : κ) (value : α) : Association κ α → Association κ α
  | [] => [(key, value)]
  | (k, v) :: rest => if same k key then (k, value) :: rest else (k, v) :: put same key value rest

/-- Whether there is an entry for a key. -/
def contains (same : κ → κ → Bool) (key : κ) (entries : Association κ α) : Bool :=
  (get? same key entries).isSome

/-- The keys in order. -/
def keys (entries : Association κ α) : List κ :=
  entries.map (·.1)

end Association

/-! ## Tables of names -/

/-- Values under names. -/
abbrev Table (α : Type) := Association String α

namespace Table

variable {α : Type}

/-- The value under a name. -/
def get? (table : Table α) (name : String) : Option α :=
  Association.get? (· == ·) name table

/-- Puts a value under a name; a new name goes to the end. -/
def set (table : Table α) (name : String) (value : α) : Table α :=
  Association.put (· == ·) name value table

/-- Whether a name is bound. -/
def contains (table : Table α) (name : String) : Bool :=
  (get? table name).isSome

/-- Drops a name. -/
def erase (table : Table α) (name : String) : Table α :=
  table.filter fun entry => !(entry.1 == name)

/-- Puts several values, one after another. -/
def setAll (table : Table α) (entries : List (String × α)) : Table α :=
  entries.foldl (fun table entry => set table entry.1 entry.2) table

end Table

end DispatchLisp
