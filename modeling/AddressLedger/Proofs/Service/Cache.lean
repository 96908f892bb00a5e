import AddressLedger.Service.Procedure

/-!
# The cache

What is cached under a key after another entry is kept or dropped.
-/
namespace AddressLedger.Service.Shared
open Catalog

variable {φ : Type} {s : Shared φ} {key asked : Key} {r : Record}

theorem find?_filter_ne (h : asked ≠ key) (entries : List (Key × Record)) :
    (entries.filter fun entry => entry.1 != key).find? (fun entry => entry.1 == asked) =
      entries.find? fun entry => entry.1 == asked := by
  rw [List.find?_filter]
  congr 1
  funext entry
  by_cases he : entry.1 = asked
  · simp [he, h]
  · simp [he]

theorem cached?_of_cache_nil (h : s.cache = []) (key : Key) : s.cached? key = none := by
  rw [cached?, h]
  rfl

@[simp] theorem cached?_forget (s : Shared φ) (key asked : Key) :
    (s.forget key).cached? asked = if asked = key then none else s.cached? asked := by
  by_cases h : asked = key
  · subst h
    simp [cached?, forget]
  · rw [if_neg h, cached?, forget, find?_filter_ne h, cached?]

@[simp] theorem cached?_keep (s : Shared φ) (key asked : Key) (r : Record) :
    (s.keep key r).cached? asked = if asked = key then some r else s.cached? asked := by
  by_cases h : asked = key
  · subst h
    simp [cached?, keep]
  · have hne : key ≠ asked := Ne.symm h
    have hforget := cached?_forget s key asked
    rw [if_neg h] at hforget
    rw [if_neg h, ← hforget, cached?, cached?, keep, List.find?_cons_of_neg (by simpa using hne)]

end AddressLedger.Service.Shared
