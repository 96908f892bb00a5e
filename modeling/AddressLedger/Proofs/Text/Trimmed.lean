import AddressLedger.Input
import AddressLedger.Proofs.Text.LowerCase
import Mathlib.Data.List.DropRight

/-!
# Trimmed texts

A text that begins and ends with characters that are not blank does so in lower case, too: every
character yields some, and none of them is blank. So an address in normal form is its own normal
form.
-/
namespace AddressLedger.Text

variable {cs : List Char} {c : Char}

/-- The first and the last character, if there are any, are not blank. -/
structure IsTrimmed (cs : List Char) : Prop where
  head : ∀ c ∈ cs.head?, isBlank c = false
  last : ∀ c ∈ cs.getLast?, isBlank c = false

theorem head?_dropWhile_isBlank (cs : List Char) {c : Char}
    (h : c ∈ (cs.dropWhile isBlank).head?) :
    isBlank c = false := by
  have hnot := List.head?_dropWhile_not isBlank cs
  rwa [Option.mem_def.1 h] at hnot

theorem trimChars_eq (cs : List Char) :
    trimChars cs = (cs.dropWhile isBlank).rdropWhile isBlank := rfl

theorem isTrimmed_trimChars (cs : List Char) : IsTrimmed (trimChars cs) := by
  constructor
  · intro c hc
    -- What is dropped at the end leaves the first character where it is.
    obtain ⟨dropped, hsplit⟩ := List.rdropWhile_prefix isBlank (cs.dropWhile isBlank)
    apply head?_dropWhile_isBlank cs
    rw [← hsplit, ← trimChars_eq, List.head?_append, Option.mem_def.1 hc]
    rfl
  · intro c hc
    rw [trimChars, List.getLast?_reverse] at hc
    exact head?_dropWhile_isBlank _ hc

theorem trimChars_eq_self (h : IsTrimmed cs) : trimChars cs = cs := by
  have hfront : cs.dropWhile isBlank = cs := by
    rw [List.dropWhile_eq_self_iff]
    intro hlength
    simp [h.head cs[0] (by simp [List.head?_eq_getElem?, hlength])]
  rw [trimChars_eq, hfront, List.rdropWhile_eq_self_iff]
  intro hne
  simp [h.last (cs.getLast hne) (List.getLast?_eq_getLast_of_ne_nil hne)]

theorem isBlank_or_mem_trimChars (h : c ∈ cs) : isBlank c = true ∨ c ∈ trimChars cs := by
  rw [trimChars, List.mem_reverse]
  rw [← List.takeWhile_append_dropWhile (p := isBlank) (l := cs), List.mem_append] at h
  rcases h with h | h
  · exact .inl (List.mem_takeWhile_imp h)
  · rw [← List.mem_reverse, ← List.takeWhile_append_dropWhile (p := isBlank)
      (l := (cs.dropWhile isBlank).reverse), List.mem_append] at h
    exact h.imp_left List.mem_takeWhile_imp

theorem mem_of_mem_trimChars (h : c ∈ trimChars cs) : c ∈ cs := by
  rw [trimChars, List.mem_reverse] at h
  have hfront := List.mem_reverse.mp ((List.dropWhile_sublist isBlank).subset h)
  exact (List.dropWhile_sublist isBlank).subset hfront

/-- Something is left of a text exactly if one of its characters is not blank. -/
theorem trim_ne_empty_iff {s : String} : trim s ≠ "" ↔ ∃ c ∈ s.toList, isBlank c = false := by
  rw [← String.toList_inj.ne, toList_trim]
  constructor
  · intro hne
    obtain ⟨c, rest, htrim⟩ := List.exists_cons_of_ne_nil hne
    have hmem : c ∈ trimChars s.toList := htrim ▸ List.mem_cons_self
    have hhead : c ∈ (trimChars s.toList).head? := by simp [htrim]
    exact ⟨c, mem_of_mem_trimChars hmem, (isTrimmed_trimChars s.toList).head c hhead⟩
  · rintro ⟨c, hc, hblank⟩
    have hmem := (isBlank_or_mem_trimChars hc).resolve_left (by simp [hblank])
    exact List.ne_nil_of_mem hmem

theorem not_isBlank_toLower :
    ∀ n < 0x80, isBlank (Char.ofNat n) = false → isBlank (Char.ofNat n).toLower = false := by
  decide +kernel

/-- What a run yields lies between the blank characters. -/
def CaseRun.IsSolid (r : CaseRun) : Prop :=
  0x20 < r.first + r.shift ∧ ∀ b ∈ [(0x85, 0x85), (0xA0, 0xA0), (0x1680, 0x1680), (0x2000, 0x200A),
    (0x2028, 0x2029), (0x202F, 0x202F), (0x205F, 0x205F), (0x3000, 0x3000)],
    r.last + r.shift < (b : Int × Int).1 ∨ b.2 < r.first + r.shift

instance (r : CaseRun) : Decidable r.IsSolid := by unfold CaseRun.IsSolid; infer_instance

theorem capitals_isSolid : ∀ r ∈ capitals, r.IsSolid := by decide +kernel

theorem not_isBlank_image {r : CaseRun} (hr : r ∈ capitals) {n : Nat} (hn : r.covers n = true) :
    isBlank (Char.ofNat (r.image n)) = false := by
  have value := toNat_ofNat_image (capitals_isPlain r hr) hn
  rcases CaseRun.covers_iff.1 hn with ⟨low, high, -⟩
  have solid := capitals_isSolid r hr
  simp only [CaseRun.IsSolid, List.forall_mem_cons, List.not_mem_nil, false_implies,
    implies_true, and_true] at solid
  have image : r.image n = (n + r.shift).toNat := rfl
  simp only [isBlank, value, Bool.or_eq_false_iff, Bool.and_eq_false_iff, decide_eq_false_iff_not,
    beq_eq_false_iff_ne]
  omega

/-- A character that is not blank yields some characters, none of which is blank. -/
theorem not_isBlank_of_mem_lowerChar {c d : Char} (hc : isBlank c = false)
    (hd : d ∈ lowerChar c) : isBlank d = false := by
  rw [lowerChar] at hd
  split at hd
  · rename_i small
    have h := not_isBlank_toLower c.toNat small
    rw [Char.ofNat_toNat] at h
    rw [List.mem_singleton.1 hd]
    exact h hc
  · split at hd
    · have hdotted : isBlank 'i' = false ∧ isBlank '\u0307' = false := by decide
      rw [List.mem_cons, List.mem_singleton] at hd
      rcases hd with rfl | rfl
      · exact hdotted.1
      · exact hdotted.2
    · split at hd
      · rename_i r hr
        rw [List.mem_singleton.1 hd]
        exact not_isBlank_image (List.mem_of_find?_eq_some hr) (by simpa using List.find?_some hr)
      · rwa [List.mem_singleton.1 hd]

theorem not_isBlank_lowerSigma (before after : List Char) :
    isBlank (lowerSigma before after) = false := by
  unfold lowerSigma
  split <;> decide

theorem lowerChar_ne_nil (c : Char) : lowerChar c ≠ [] := by
  rw [lowerChar]
  repeat' split
  all_goals exact List.cons_ne_nil _ _

def lowerAt (before : List Char) (c : Char) (rest : List Char) : List Char :=
  if c = 'Σ' then [lowerSigma before rest] else lowerChar c

theorem lowerAfter_cons (before : List Char) (c : Char) (rest : List Char) :
    lowerAfter before (c :: rest) = lowerAt before c rest ++ lowerAfter (c :: before) rest := rfl

theorem lowerAt_ne_nil (before : List Char) (c : Char) (rest : List Char) :
    lowerAt before c rest ≠ [] := by
  rw [lowerAt]
  split
  · exact List.cons_ne_nil _ _
  · exact lowerChar_ne_nil c

theorem not_isBlank_of_mem_lowerAt {before rest : List Char} {c d : Char}
    (hc : isBlank c = false) (hd : d ∈ lowerAt before c rest) : isBlank d = false := by
  rw [lowerAt] at hd
  split at hd
  · rw [List.mem_singleton.1 hd]
    exact not_isBlank_lowerSigma before rest
  · exact not_isBlank_of_mem_lowerChar hc hd

theorem lowerAfter_eq_nil_iff {before : List Char} : lowerAfter before cs = [] ↔ cs = [] := by
  cases cs with
  | nil => simp [lowerAfter]
  | cons c rest => simp [lowerAfter_cons, lowerAt_ne_nil]

theorem head?_lowerAfter {before : List Char} (h : ∀ c ∈ cs.head?, isBlank c = false) :
    ∀ d ∈ (lowerAfter before cs).head?, isBlank d = false := by
  cases cs with
  | nil => simp [lowerAfter]
  | cons c rest =>
    intro d hd
    rw [lowerAfter_cons, List.head?_append_of_ne_nil _ (lowerAt_ne_nil before c rest)] at hd
    exact not_isBlank_of_mem_lowerAt (h c rfl) (List.mem_of_head? hd)

theorem getLast?_lowerAfter {before : List Char} (h : ∀ c ∈ cs.getLast?, isBlank c = false) :
    ∀ d ∈ (lowerAfter before cs).getLast?, isBlank d = false := by
  induction cs generalizing before with
  | nil => simp [lowerAfter]
  | cons c rest ih =>
    rw [lowerAfter_cons]
    cases rest with
    | nil =>
      rw [lowerAfter, List.append_nil]
      exact fun d hd => not_isBlank_of_mem_lowerAt (h c rfl) (List.mem_of_getLast? hd)
    | cons c' rest =>
      have hne : lowerAfter (c :: before) (c' :: rest) ≠ [] := by simp [lowerAfter_eq_nil_iff]
      rw [List.getLast?_append_of_ne_nil _ hne]
      exact ih h

/-- Lower-casing a trimmed text leaves nothing to be trimmed. -/
theorem trim_lower_trim (s : String) : trim (lower (trim s)) = lower (trim s) := by
  have htrimmed := isTrimmed_trimChars s.toList
  rw [← toList_trim] at htrimmed
  have hlower : IsTrimmed (lower (trim s)).toList := by
    rw [toList_lower]
    exact ⟨head?_lowerAfter htrimmed.head, getLast?_lowerAfter htrimmed.last⟩
  rw [trim, trimChars_eq_self hlower, String.ofList_toList]

end AddressLedger.Text

namespace AddressLedger

/-- The normal form of an address is in normal form. -/
@[simp] theorem normalizeAddress_idem (a : String) :
    normalizeAddress (normalizeAddress a) = normalizeAddress a := by
  rw [normalizeAddress, normalizeAddress, Text.trim_lower_trim, Text.lower_lower]

@[simp] theorem lower_normalizeAddress (a : String) :
    Text.lower (normalizeAddress a) = normalizeAddress a :=
  Text.lower_lower _

end AddressLedger
