/-!
# JSON values

Values whose numbers are either whole numbers or doubles. The members of an object come in a list.
Those of a value that was read are in the order of their names and without repetition, so that equal
objects are equal values.
-/
namespace AddressLedger

inductive Json
  | null
  | bool (b : Bool)
  | integer (n : Int)
  | float (x : Float)
  | text (s : String)
  | array (items : List Json)
  | object (members : List (String × Json))
  deriving Inhabited

namespace Keyed

variable {α : Type}

/-- Sets the value of a key, in a list with ascending keys. -/
def put (key : String) (value : α) : List (String × α) → List (String × α)
  | [] => [(key, value)]
  | entry :: rest =>
    if key < entry.1 then (key, value) :: entry :: rest
    else if key = entry.1 then (key, value) :: rest
    else entry :: put key value rest

def get? (key : String) : List (String × α) → Option α
  | [] => none
  | entry :: rest => if entry.1 = key then some entry.2 else get? key rest

/-- The entries with ascending keys; of several with one key the last. -/
def ofList (entries : List (String × α)) : List (String × α) :=
  entries.foldl (fun table entry => put entry.1 entry.2 table) []

@[simp] theorem get?_nil (key : String) : get? key ([] : List (String × α)) = none := rfl

@[simp] theorem ofList_nil : ofList ([] : List (String × α)) = [] := rfl

theorem get?_put (key k : String) (value : α) (table : List (String × α)) :
    get? k (put key value table) = if key = k then some value else get? k table := by
  induction table with
  | nil => simp [put, get?]
  | cons entry rest ih =>
    rw [put]
    split
    · simp [get?]
    · split
      · rename_i h
        subst h
        by_cases hk : entry.1 = k <;> simp [get?, hk]
      · rename_i h
        by_cases hk : entry.1 = k
        · subst hk
          simp [get?, h]
        · simp [get?, hk, ih]

theorem mem_put {key : String} {value : α} {table : List (String × α)} {entry : String × α}
    (h : entry ∈ put key value table) : entry = (key, value) ∨ entry ∈ table := by
  induction table with
  | nil => exact .inl (List.mem_singleton.mp h)
  | cons first rest ih =>
    rw [put] at h
    split at h
    · exact List.mem_cons.mp h
    · split at h
      · exact (List.mem_cons.mp h).imp_right (.tail _)
      · rcases List.mem_cons.mp h with rfl | h
        · exact .inr (.head _)
        · exact (ih h).imp_right (.tail _)

theorem mem_ofList {entries : List (String × α)} {entry : String × α} (h : entry ∈ ofList entries) :
    entry ∈ entries := by
  have hfold : ∀ table : List (String × α),
      entry ∈ entries.foldl (fun table entry => put entry.1 entry.2 table) table →
        entry ∈ entries ∨ entry ∈ table := by
    clear h
    induction entries with
    | nil => exact fun table h => .inr h
    | cons first rest ih =>
      intro table h
      rcases ih _ h with h | h
      · exact .inl (.tail _ h)
      · rcases mem_put h with rfl | h
        · exact .inl (.head _)
        · exact .inr h
  exact (hfold [] h).resolve_right List.not_mem_nil

/-- A table of entries whose values are all given by their keys. -/
theorem get?_ofList {f : String → Option α} {entries : List (String × α)}
    (h : ∀ entry ∈ entries, f entry.1 = some entry.2) (key : String) :
    get? key (ofList entries) = if key ∈ entries.map Prod.fst then f key else none := by
  have hfold : ∀ table : List (String × α),
      get? key (entries.foldl (fun table entry => put entry.1 entry.2 table) table) =
        if key ∈ entries.map Prod.fst then f key else get? key table := by
    induction entries with
    | nil => exact fun table => rfl
    | cons first rest ih =>
      intro table
      have hfirst := h first (.head _)
      rw [List.foldl_cons, ih (fun entry hmem => h entry (.tail _ hmem)), get?_put]
      by_cases hkey : first.1 = key
      · subst hkey
        simp [hfirst]
      · have hkey' : ¬ key = first.1 := Ne.symm hkey
        simp only [List.map_cons, List.mem_cons, hkey, hkey', false_or, if_false]
  exact hfold []

/-- Taking a part of each value, where all values have it, takes it of the value that is found. -/
theorem get?_filterMap {β : Type} {pick : α → Option β} {table : List (String × α)}
    (h : ∀ entry ∈ table, (pick entry.2).isSome) (key : String) :
    get? key (table.filterMap fun entry => (pick entry.2).map (entry.1, ·)) =
      (get? key table).bind pick := by
  induction table with
  | nil => rfl
  | cons first rest ih =>
    obtain ⟨value, hvalue⟩ := Option.isSome_iff_exists.mp (h first (.head _))
    simp only [List.filterMap_cons, hvalue, Option.map_some, get?]
    rw [ih fun entry hmem => h entry (.tail _ hmem)]
    split
    · exact hvalue.symm
    · rfl

end Keyed

end AddressLedger
