import AddressLedger.Text.Lower

/-!
# Lower case is stable

Lower-casing a text twice is lower-casing it once: no character that it yields is a capital. For the
runs of the case table this is seen from their ends and their parity, run against run.
-/
namespace AddressLedger.Text

def CaseRun.image (r : CaseRun) (n : Nat) : Nat := (n + r.shift).toNat

/-- What the first run yields ends before the second, begins after it, or falls in its gaps. -/
def CaseRun.avoids (r q : CaseRun) : Bool :=
  Nat.blt (r.image r.last) q.first || Nat.blt q.last (r.image r.first) ||
    (q.stride == 2 && (r.stride == 2 || r.first == r.last) &&
      (r.image r.first + q.first) % 2 == 1)

theorem capitals_avoid : (capitals.all fun r => capitals.all r.avoids) = true := by decide +kernel

/-- A run yields code points that are letters, and small ones where they are ASCII; the two
characters with a mapping of their own are not among them. -/
def CaseRun.IsPlain (r : CaseRun) : Prop :=
  0x61 ≤ r.first + r.shift ∧ (r.last + r.shift ≤ 0x7A ∨ 0x80 ≤ r.first + r.shift) ∧
    (r.last + r.shift < 0x130 ∨ 0x130 < r.first + r.shift) ∧
    (r.last + r.shift < 0x3A3 ∨ 0x3A3 < r.first + r.shift) ∧
    (r.last + r.shift < 0xD800 ∨ (0xDFFF < r.first + r.shift ∧ r.last + r.shift < 0x110000))

instance (r : CaseRun) : Decidable r.IsPlain := by unfold CaseRun.IsPlain; infer_instance

theorem capitals_isPlain : ∀ r ∈ capitals, r.IsPlain := by decide +kernel

theorem CaseRun.covers_iff {r : CaseRun} {n : Nat} :
    r.covers n = true ↔ r.first ≤ n ∧ n ≤ r.last ∧ (n - r.first) % r.stride = 0 := by
  simp [covers, and_assoc]

/-- What a run yields is not covered by a run that it avoids. -/
theorem CaseRun.not_covers_image {r q : CaseRun} (plain : r.IsPlain) (h : r.avoids q = true)
    {n : Nat} (hn : r.covers n = true) : q.covers (r.image n) = false := by
  obtain ⟨low, high, step⟩ := covers_iff.1 hn
  rcases plain with ⟨start, -⟩
  simp only [avoids, image, Bool.or_eq_true, Bool.and_eq_true, Nat.blt_eq, beq_iff_eq] at h
  rw [Bool.eq_false_iff]
  intro hq
  rcases covers_iff.1 hq with ⟨qlow, qhigh, qstep⟩
  simp only [image] at qlow qhigh qstep
  obtain (h | h) | ⟨⟨stride, gap⟩, odd⟩ := h
  · omega
  · omega
  · rw [stride] at qstep
    obtain gap | gap := gap
    · rw [gap] at step
      omega
    · omega

theorem toNat_ofNat_image {r : CaseRun} (plain : r.IsPlain) {n : Nat} (hn : r.covers n = true) :
    (Char.ofNat (r.image n)).toNat = r.image n := by
  rcases CaseRun.covers_iff.1 hn with ⟨low, high, -⟩
  obtain ⟨start, -, -, -, valid⟩ := plain
  have hv : (r.image n).isValidChar := by
    simp only [Nat.isValidChar, CaseRun.image]
    omega
  rw [Char.ofNat, dif_pos hv]
  rfl

def IsSmall (c : Char) : Prop := c ≠ 'Σ' ∧ lowerChar c = [c]

theorem isSmall_of_ascii : ∀ n < 0x80, IsSmall (Char.ofNat n).toLower := by
  unfold IsSmall
  decide +kernel

theorem toLower_of_ascii : ∀ n < 0x80, 0x61 ≤ n → (Char.ofNat n).toLower = Char.ofNat n := by
  decide +kernel

theorem isSmall_image {r : CaseRun} (hr : r ∈ capitals) {n : Nat} (hn : r.covers n = true) :
    IsSmall (Char.ofNat (r.image n)) := by
  have plain := capitals_isPlain r hr
  have value := toNat_ofNat_image plain hn
  have uncovered : capitals.find? (fun q => q.covers (r.image n)) = none := by
    rw [List.find?_eq_none]
    intro q hq
    have h := List.all_eq_true.1 (List.all_eq_true.1 capitals_avoid r hr) q hq
    simp [CaseRun.not_covers_image plain h hn]
  rcases CaseRun.covers_iff.1 hn with ⟨low, high, -⟩
  rcases plain with ⟨start, ascii, dotted, sigma, -⟩
  have image : r.image n = (n + r.shift).toNat := rfl
  generalize r.image n = m at value uncovered image
  refine ⟨fun e => ?_, ?_⟩
  · have : m = 0x3A3 := value ▸ e ▸ rfl
    omega
  · rw [lowerChar, value]
    split
    · rename_i small
      rw [toLower_of_ascii m small (by omega)]
    · rw [if_neg (by omega), uncovered]

/-- Lower-casing yields small characters only. -/
theorem isSmall_of_mem_lowerChar {c d : Char} (hc : c ≠ 'Σ') (hd : d ∈ lowerChar c) :
    IsSmall d := by
  rw [lowerChar] at hd
  split at hd
  · rename_i small
    have h := isSmall_of_ascii c.toNat small
    rw [Char.ofNat_toNat] at h
    rwa [List.mem_singleton.1 hd]
  · split at hd
    · have hi : IsSmall 'i' ∧ IsSmall '\u0307' := by
        unfold IsSmall
        decide +kernel
      rw [List.mem_cons, List.mem_singleton] at hd
      rcases hd with rfl | rfl
      · exact hi.1
      · exact hi.2
    · split at hd
      · rename_i r hr
        rw [List.mem_singleton.1 hd]
        exact isSmall_image (List.mem_of_find?_eq_some hr) (by simpa using List.find?_some hr)
      · rename_i hnone
        rw [List.mem_singleton.1 hd]
        refine ⟨hc, ?_⟩
        rw [lowerChar, if_neg ‹_›, if_neg ‹_›, hnone]

theorem isSmall_lowerSigma (before after : List Char) : IsSmall (lowerSigma before after) := by
  have : IsSmall 'ς' ∧ IsSmall 'σ' := by
    unfold IsSmall
    decide +kernel
  unfold lowerSigma
  split
  · exact this.1
  · exact this.2

theorem isSmall_of_mem_lowerAfter {d : Char} {before cs : List Char}
    (h : d ∈ lowerAfter before cs) : IsSmall d := by
  induction cs generalizing before with
  | nil => simp [lowerAfter] at h
  | cons c rest ih =>
    rw [lowerAfter, List.mem_append] at h
    obtain h | h := h
    · split at h
      · rw [List.mem_singleton.1 h]
        exact isSmall_lowerSigma before rest
      · exact isSmall_of_mem_lowerChar ‹_› h
    · exact ih h

theorem lowerAfter_eq_self {before cs : List Char} (h : ∀ c ∈ cs, IsSmall c) :
    lowerAfter before cs = cs := by
  induction cs generalizing before with
  | nil => rfl
  | cons c rest ih =>
    rcases h c List.mem_cons_self with ⟨hc, hsmall⟩
    rw [lowerAfter, if_neg hc, hsmall, ih fun d hd => h d (List.mem_cons_of_mem c hd)]
    rfl

/-- Lower-casing is idempotent, final sigmas included. -/
@[simp] theorem lower_lower (s : String) : lower (lower s) = lower s := by
  have h : lowerAfter [] (lower s).toList = (lower s).toList :=
    lowerAfter_eq_self fun c hc => by
      rw [toList_lower] at hc
      exact isSmall_of_mem_lowerAfter hc
  rw [lower, h, String.ofList_toList]

end AddressLedger.Text
