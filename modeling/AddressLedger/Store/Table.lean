/-!
# Tables

Rows that carry their own key, in ascending order of the keys. A written row takes the place of the
one with its key.
-/
namespace AddressLedger.Store.Table

variable {α : Type} (keyOf : α → String)

/-- Writes a row over the one with its key. -/
def put (row : α) : List α → List α
  | [] => [row]
  | first :: rest =>
    if keyOf row < keyOf first then row :: first :: rest
    else if keyOf row = keyOf first then row :: rest
    else first :: put row rest

def get? (key : String) (rows : List α) : Option α := rows.find? fun row => keyOf row == key

variable {keyOf}

theorem keyOf_of_get? {key : String} {rows : List α} {row : α}
    (h : get? keyOf key rows = some row) : keyOf row = key := by
  simpa using List.find?_some h

theorem get?_put (row : α) (key : String) (rows : List α) :
    get? keyOf key (put keyOf row rows) =
      if keyOf row = key then some row else get? keyOf key rows := by
  induction rows with
  | nil => by_cases h : keyOf row = key <;> simp [put, get?, h]
  | cons first rest ih =>
    simp only [get?] at ih
    rw [put]
    split
    · by_cases h : keyOf row = key <;> simp [get?, h]
    · split
      · rename_i same
        by_cases h : keyOf row = key
        · simp [get?, h]
        · have hfirst : keyOf first ≠ key := fun e => h (same.trans e)
          simp [get?, h, hfirst]
      · rename_i other
        by_cases hfirst : keyOf first = key
        · have h : keyOf row ≠ key := fun e => other (e.trans hfirst.symm)
          simp [get?, h, hfirst]
        · simp [get?, hfirst, ih]

end AddressLedger.Store.Table
