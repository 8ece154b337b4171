/-!
# Ascending lists

Sets and tables that are read back in ascending order are kept as lists and grown by
`insertOrdered`. Membership is decided by equality alone, so `mem_insertOrdered` asks nothing
of the order.
-/

namespace SmtLowering

variable {α : Type}

section Insert

variable [DecidableEq α] [Ord α]

/-- Adds `a` before the first greater element, unless it is met on the way. -/
def insertOrdered (a : α) : List α → List α
  | [] => [a]
  | b :: bs =>
    if a = b then b :: bs
    else if (compare a b).isLT then a :: b :: bs
    else b :: insertOrdered a bs

theorem mem_insertOrdered {a x : α} {bs : List α} :
    x ∈ insertOrdered a bs ↔ x = a ∨ x ∈ bs := by
  induction bs with
  | nil => simp [insertOrdered]
  | cons b bs ih =>
    simp only [insertOrdered]
    split
    · next h => subst h; simp
    · split
      · simp
      · simp only [List.mem_cons, ih]; grind

/-- The elements of a list in ascending order, each once. -/
def ascending (xs : List α) : List α := xs.foldl (fun seen x => insertOrdered x seen) []

end Insert

/-- A table from names to values, its entries in ascending order of the names. -/
structure NameTable (α : Type) where
  entries : List (String × α)
  deriving DecidableEq

namespace NameTable

def empty : NameTable α := ⟨[]⟩

instance : Inhabited (NameTable α) := ⟨empty⟩

def find? (t : NameTable α) (name : String) : Option α := t.entries.lookup name

/-- Replaces the entry of `name`, or adds one before the first greater name. -/
def insertEntry (name : String) (a : α) : List (String × α) → List (String × α)
  | [] => [(name, a)]
  | (n, b) :: es =>
    if name = n then (name, a) :: es
    else if (compare name n).isLT then (name, a) :: (n, b) :: es
    else (n, b) :: insertEntry name a es

def insert (t : NameTable α) (name : String) (a : α) : NameTable α :=
  ⟨insertEntry name a t.entries⟩

def erase (t : NameTable α) (name : String) : NameTable α :=
  ⟨t.entries.filter (·.1 ≠ name)⟩

end NameTable

end SmtLowering
