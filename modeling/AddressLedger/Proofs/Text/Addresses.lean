import AddressLedger.Proofs.Text.Trimmed

/-!
# Addresses in any spelling

In lower case no character outside ASCII gives a hexadecimal digit or the letter `x`. So an address
is accepted exactly if its normal form is, and it is the same whether a text is checked before it is
put into normal form or after. A list of addresses is accepted exactly if each of its pieces is,
as it is written.
-/
namespace AddressLedger.Text

variable {before rest cs : List Char} {c d : Char}

def isAddressChar (c : Char) : Bool := isHexDigit c || c == 'x' || c == 'X'

theorem toNat_of_isAddressChar (h : isAddressChar c = true) : c.toNat < 0x80 ∧ c.toNat ≠ 0x6B := by
  simp only [isAddressChar, isHexDigit, Char.isDigit, Bool.or_eq_true, Bool.and_eq_true,
    decide_eq_true_eq, beq_iff_eq, Char.le_def, ge_iff_le, UInt32.le_iff_toNat_le] at h
  obtain (h | rfl) | rfl := h
  · have hn : c.toNat = c.val.toNat := rfl
    simp at h
    omega
  · decide
  · decide

/-- Outside ASCII a run yields characters outside ASCII, but for the Kelvin sign, which gives a
`k`. -/
theorem capitals_stay : ∀ r ∈ capitals, r.last < 0x80 ∨ 0x80 ≤ r.first + r.shift ∨
    (r.first = r.last ∧ r.first + r.shift = 0x6B) := by
  decide +kernel

/-- A character that gives one of an address is an ASCII character. -/
theorem ascii_of_isAddressChar (hd : d ∈ lowerAt before c rest) (h : isAddressChar d = true) :
    c.toNat < 0x80 := by
  by_contra hc
  rw [lowerAt] at hd
  split at hd
  · have hsigma : lowerSigma before rest = 'ς' ∨ lowerSigma before rest = 'σ' := by
      unfold lowerSigma
      split <;> simp
    have hnot : isAddressChar 'ς' = false ∧ isAddressChar 'σ' = false := by decide
    rw [List.mem_singleton.1 hd] at h
    rcases hsigma with e | e <;> simp [e, hnot] at h
  · rw [lowerChar, if_neg hc] at hd
    split at hd
    · have hnot : isAddressChar 'i' = false ∧ isAddressChar '\u0307' = false := by decide
      rw [List.mem_cons, List.mem_singleton] at hd
      rcases hd with rfl | rfl <;> simp [hnot] at h
    · split at hd
      · rename_i r hr
        have hcovers : r.covers c.toNat = true := by simpa using List.find?_some hr
        have hmem := List.mem_of_find?_eq_some hr
        have hvalue : d.toNat = r.image c.toNat := by
          rw [List.mem_singleton.1 hd]
          exact toNat_ofNat_image (capitals_isPlain r hmem) hcovers
        have hstay := capitals_stay r hmem
        have hbound := toNat_of_isAddressChar h
        rw [hvalue, CaseRun.image] at hbound
        obtain ⟨hlow, hhigh, -⟩ := CaseRun.covers_iff.1 hcovers
        omega
      · rw [List.mem_singleton.1 hd] at h
        exact hc (toNat_of_isAddressChar h).1

theorem lowerAfter_of_ascii (h : ∀ c ∈ cs, c.toNat < 0x80) :
    lowerAfter before cs = cs.map Char.toLower := by
  induction cs generalizing before with
  | nil => rfl
  | cons c cs ih =>
    have hc := h c List.mem_cons_self
    have hsigma : c ≠ 'Σ' := by
      rintro rfl
      exact absurd hc (by decide)
    rw [lowerAfter, if_neg hsigma, lowerChar, if_pos hc, ih fun d hd => h d (.tail c hd)]
    rfl

/-- A text whose lower case is made of the characters of addresses is an ASCII text. -/
theorem ascii_of_lowerAfter (h : ∀ d ∈ lowerAfter before cs, isAddressChar d = true) :
    ∀ c ∈ cs, c.toNat < 0x80 := by
  induction cs generalizing before with
  | nil => simp
  | cons c cs ih =>
    rw [lowerAfter_cons] at h
    rw [List.forall_mem_cons]
    constructor
    · obtain ⟨d, hd⟩ := List.exists_mem_of_ne_nil _ (lowerAt_ne_nil before c cs)
      exact ascii_of_isAddressChar hd (h d (List.mem_append_left _ hd))
    · exact ih fun d hd => h d (List.mem_append_right _ hd)

end AddressLedger.Text

namespace AddressLedger
open Text

variable {a b raw : String} {cs : List Char} {c : Char}

theorem isAddressForm_cons (c x : Char) (digits : List Char) :
    isAddressForm (c :: x :: digits) =
      (c == '0' && ((x == 'x' || x == 'X') && digits.length == 40 && digits.all isHexDigit)) := by
  by_cases hc : c = '0'
  · subst hc
    simp [isAddressForm]
  · simp [isAddressForm, hc]

theorem isAddressForm_iff : isAddressForm cs = true ↔ ∃ x digits, cs = '0' :: x :: digits ∧
    (x = 'x' ∨ x = 'X') ∧ digits.length = 40 ∧ ∀ d ∈ digits, isHexDigit d = true := by
  match cs with
  | [] | [c] => simp [isAddressForm]
  | c :: x :: digits => simp [isAddressForm_cons, and_assoc]

theorem isAddressChar_of_isAddressForm (h : isAddressForm cs = true) :
    ∀ c ∈ cs, isAddressChar c = true := by
  obtain ⟨x, digits, rfl, hx, -, hdigits⟩ := isAddressForm_iff.1 h
  simp only [List.forall_mem_cons, isAddressChar, Bool.or_eq_true, beq_iff_eq]
  exact ⟨by decide, by tauto, fun d hd => .inl (.inl (hdigits d hd))⟩

theorem ascii_of_isAddressForm (h : isAddressForm cs = true) : ∀ c ∈ cs, c.toNat < 0x80 :=
  fun c hc => (toNat_of_isAddressChar (isAddressChar_of_isAddressForm h c hc)).1

theorem toLower_of_not_ascii (h : ¬ c.toNat < 0x80) : c.toLower = c := by
  have hn : c.toNat = c.val.toNat := rfl
  have hz : ('Z' : Char).val.toNat = 90 := rfl
  refine dif_neg fun hcapital => ?_
  rw [UInt32.le_iff_toNat_le] at hcapital
  omega

/-- The case of ASCII letters plays no part in what addresses are made of. -/
theorem toLower_agrees (c : Char) : isHexDigit c.toLower = isHexDigit c ∧
    (c.toLower == '0') = (c == '0') ∧
    (c.toLower == 'x' || c.toLower == 'X') = (c == 'x' || c == 'X') := by
  by_cases h : c.toNat < 0x80
  · have hascii : ∀ n < 0x80, isHexDigit (Char.ofNat n).toLower = isHexDigit (Char.ofNat n) ∧
        ((Char.ofNat n).toLower == '0') = (Char.ofNat n == '0') ∧
        ((Char.ofNat n).toLower == 'x' || (Char.ofNat n).toLower == 'X') =
          (Char.ofNat n == 'x' || Char.ofNat n == 'X') := by
      decide +kernel
    have hc := hascii c.toNat h
    rwa [Char.ofNat_toNat] at hc
  · simp [toLower_of_not_ascii h]

theorem isAddressForm_map_toLower (cs : List Char) :
    isAddressForm (cs.map Char.toLower) = isAddressForm cs := by
  match cs with
  | [] | [c] => simp [isAddressForm]
  | c :: x :: digits =>
    simp only [List.map_cons, isAddressForm_cons, List.length_map, List.all_map, toLower_agrees]
    congr 2
    exact List.all_congr rfl fun d => (toLower_agrees d).1

/-- Lower-casing a text makes it neither an address nor keeps it from being one. -/
theorem isAddressForm_lowerAfter (cs : List Char) :
    isAddressForm (lowerAfter [] cs) = isAddressForm cs := by
  rw [Bool.eq_iff_iff]
  constructor
  · intro h
    have hascii := ascii_of_lowerAfter (isAddressChar_of_isAddressForm h)
    rwa [lowerAfter_of_ascii hascii, isAddressForm_map_toLower] at h
  · intro h
    rwa [lowerAfter_of_ascii (ascii_of_isAddressForm h), isAddressForm_map_toLower]

theorem checkAddress_eq_ok_iff :
    checkAddress a = .ok () ↔ isAddressForm (trimChars a.toList) = true := by
  rw [← toList_trim]
  simp only [checkAddress]
  split
  · rename_i hempty
    simp [hempty, isAddressForm]
  · split <;> simp_all

theorem toList_normalizeAddress (a : String) :
    (normalizeAddress a).toList = lowerAfter [] (trimChars a.toList) := by
  rw [normalizeAddress, toList_lower, toList_trim]

/-- A text is accepted as an address exactly if its normal form is. -/
theorem checkAddress_normalizeAddress (a : String) :
    checkAddress (normalizeAddress a) = .ok () ↔ checkAddress a = .ok () := by
  have htrim : trimChars (normalizeAddress a).toList = lowerAfter [] (trimChars a.toList) := by
    rw [← toList_trim, normalizeAddress, trim_lower_trim, toList_lower, toList_trim]
  rw [checkAddress_eq_ok_iff, checkAddress_eq_ok_iff, htrim, isAddressForm_lowerAfter]

/-- An accepted address is an ASCII text, and is put into lower case as such. -/
theorem toList_normalizeAddress_of_ok (h : checkAddress a = .ok ()) :
    (normalizeAddress a).toList = (trimChars a.toList).map Char.toLower := by
  have hascii := ascii_of_isAddressForm (checkAddress_eq_ok_iff.1 h)
  rw [toList_normalizeAddress, lowerAfter_of_ascii hascii]

theorem checkAddress_congr (hsame : normalizeAddress b = normalizeAddress a)
    (h : checkAddress a = .ok ()) : checkAddress b = .ok () := by
  rwa [← checkAddress_normalizeAddress, hsame, checkAddress_normalizeAddress]

/-- An accepted address has one normal form in all its spellings, and no other text has it. -/
theorem normalizeAddress_eq_iff (h : checkAddress a = .ok ()) :
    normalizeAddress b = normalizeAddress a ↔ sameIgnoringAsciiCase (trim b) (trim a) = true := by
  rw [sameIgnoringAsciiCase, beq_iff_eq, toList_trim, toList_trim]
  constructor
  · intro hsame
    rw [← toList_normalizeAddress_of_ok (checkAddress_congr hsame h),
      ← toList_normalizeAddress_of_ok h, hsame]
  · intro hsame
    have hb : checkAddress b = .ok () := by
      rw [checkAddress_eq_ok_iff, ← isAddressForm_map_toLower, hsame, isAddressForm_map_toLower]
      exact checkAddress_eq_ok_iff.1 h
    rw [← String.toList_inj, toList_normalizeAddress_of_ok hb, hsame,
      toList_normalizeAddress_of_ok h]

def IsSmallHexDigit (c : Char) : Prop := c.isDigit = true ∨ ('a' ≤ c ∧ c ≤ 'f')

instance (c : Char) : Decidable (IsSmallHexDigit c) := by unfold IsSmallHexDigit; infer_instance

theorem isSmallHexDigit_toLower (h : isHexDigit c = true) : IsSmallHexDigit c.toLower := by
  have hascii : ∀ n < 0x80, isHexDigit (Char.ofNat n) = true →
      IsSmallHexDigit (Char.ofNat n).toLower := by
    decide +kernel
  have hsmall : c.toNat < 0x80 := (toNat_of_isAddressChar (by simp [isAddressChar, h])).1
  have hc := hascii c.toNat hsmall
  rw [Char.ofNat_toNat] at hc
  exact hc h

/-- The normal form of an accepted address is `0x` and forty hexadecimal digits in lower case. -/
theorem normalizeAddress_form (h : checkAddress a = .ok ()) :
    ∃ digits : List Char, normalizeAddress a = String.ofList ('0' :: 'x' :: digits) ∧
      digits.length = 40 ∧ ∀ d ∈ digits, IsSmallHexDigit d := by
  obtain ⟨x, digits, hcs, hx, hlength, hdigits⟩ := isAddressForm_iff.1 (checkAddress_eq_ok_iff.1 h)
  have hzero : ('0' : Char).toLower = '0' ∧ x.toLower = 'x' := by
    rcases hx with rfl | rfl <;> decide
  refine ⟨digits.map Char.toLower, ?_, by simp [hlength], ?_⟩
  · rw [← String.toList_inj, toList_normalizeAddress_of_ok h, hcs]
    simp [hzero]
  · rw [List.forall_mem_map]
    exact fun d hd => isSmallHexDigit_toLower (hdigits d hd)

/-- The pieces of a comma-separated list that are not blank, as they are written. -/
def segments (raw : String) : List String :=
  ((splitAt ',' raw.toList).map String.ofList).filter fun piece => trim piece ≠ ""

theorem addressPieces_eq (raw : String) :
    addressPieces raw = (segments raw).map normalizeAddress := by
  rw [addressPieces, segments]
  induction splitAt ',' raw.toList with
  | nil => rfl
  | cons piece pieces ih =>
    by_cases hblank : trim (String.ofList piece) = "" <;> simp_all [normalizeAddress]

theorem forM_eq_ok_iff {α ε : Type} {f : α → Except ε PUnit} {xs : List α} :
    xs.forM f = .ok () ↔ ∀ x ∈ xs, f x = .ok () := by
  induction xs with
  | nil => simp [pure, Except.pure]
  | cons x xs ih =>
    have hstep : (x :: xs).forM f = (f x >>= fun _ => xs.forM f) := rfl
    rw [hstep, List.forall_mem_cons, ← ih]
    cases f x <;> simp [bind, Except.bind]

/-- A list of addresses is accepted exactly if it has pieces that are not blank and each of these is
accepted as it is written; it gives their normal forms in order. -/
theorem parseAddressList_eq_ok_iff {owners : List String} :
    parseAddressList raw = .ok owners ↔ segments raw ≠ [] ∧
      (∀ a ∈ segments raw, checkAddress a = .ok ()) ∧
      owners = (segments raw).map normalizeAddress := by
  have hchecks : (∀ a ∈ (segments raw).map normalizeAddress, checkAddress a = .ok ()) ↔
      ∀ a ∈ segments raw, checkAddress a = .ok () := by
    simp only [List.forall_mem_map, checkAddress_normalizeAddress]
  rw [← hchecks, ← forM_eq_ok_iff, parseAddressList, addressPieces_eq, eq_comm (a := owners)]
  by_cases hnil : segments raw = []
  · simp [hnil, throw, throwThe, MonadExceptOf.throw, bind, Except.bind]
  · cases hforM : ((segments raw).map normalizeAddress).forM checkAddress <;>
      simp [hnil, bind, Except.bind, pure, Except.pure]

theorem splitAt_of_not_mem {sep : Char} (h : sep ∉ cs) : splitAt sep cs = [cs] := by
  induction cs with
  | nil => rfl
  | cons c cs ih =>
    rw [List.mem_cons, not_or] at h
    rw [splitAt, if_neg (Ne.symm h.1), ih h.2]

theorem segments_of_ok (h : checkAddress a = .ok ()) : segments a = [a] := by
  have hform := checkAddress_eq_ok_iff.1 h
  have hcomma : ',' ∉ a.toList := by
    intro hmem
    rcases isBlank_or_mem_trimChars hmem with hblank | hinner
    · exact absurd hblank (by decide)
    · exact absurd (isAddressChar_of_isAddressForm hform ',' hinner) (by decide)
  have hne : trim a ≠ "" := by
    intro hempty
    rw [← toList_trim, hempty] at hform
    cases hform
  rw [segments, splitAt_of_not_mem hcomma]
  simp [hne]

theorem parseAddressList_of_ok (h : checkAddress a = .ok ()) :
    parseAddressList a = .ok [normalizeAddress a] := by
  rw [parseAddressList_eq_ok_iff, segments_of_ok h]
  simp [h]

end AddressLedger
