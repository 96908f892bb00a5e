import AddressLedger.Json.Writer
import AddressLedger.Proofs.Number.Rounding

/-!
# Numbers read back

A number is read in the same way whatever follows it, unless that could be a part of it. Whole
numbers and finite doubles are written so that they are read back.
-/
namespace AddressLedger.Json
open Number Text

variable {cs ds after rest : List Char} {n : Numeral} {x : Float}

def EndsNumber (rest : List Char) : Prop :=
  ∀ c ∈ rest.head?, c.isDigit = false ∧ c ≠ '.' ∧ c ≠ 'e' ∧ c ≠ 'E'

theorem spanDigits_append (hrest : ∀ c ∈ rest.head?, c.isDigit = false) (cs : List Char) :
    spanDigits (cs ++ rest) = ((spanDigits cs).1, (spanDigits cs).2 ++ rest) := by
  induction cs with
  | nil =>
    cases rest with
    | nil => rfl
    | cons c rest => simp [spanDigits, hrest c rfl]
  | cons c cs ih =>
    simp only [spanDigits, Prod.mk.injEq] at ih
    by_cases hc : c.isDigit = true
    · simp [spanDigits, hc, ih]
    · simp [spanDigits, hc]

theorem spanDigits_of_all (h : ∀ c ∈ ds, c.isDigit = true)
    (hrest : ∀ c ∈ rest.head?, c.isDigit = false) : spanDigits (ds ++ rest) = (ds, rest) := by
  have hds : spanDigits ds = (ds, []) := by
    simp only [spanDigits, List.takeWhile_eq_self_iff.2 h, List.dropWhile_eq_nil_iff.2 h]
  rw [spanDigits_append hrest, hds, List.nil_append]

theorem scanFraction_point (cs : List Char) :
    scanFraction ('.' :: cs) =
      if (spanDigits cs).1.isEmpty then none else some (spanDigits cs) := rfl

theorem scanFraction_of_ne (h : ∀ c ∈ cs.head?, c ≠ '.') :
    scanFraction cs = some ([], cs) := by
  rw [scanFraction.eq_def]
  split
  · exact absurd rfl (h '.' rfl)
  · rfl

theorem scanFraction_append (hrest : EndsNumber rest) (h : scanFraction cs = some (ds, after)) :
    scanFraction (cs ++ rest) = some (ds, after ++ rest) := by
  by_cases hpoint : ∀ c ∈ cs.head?, c ≠ '.'
  · rw [scanFraction_of_ne hpoint] at h
    rcases Prod.mk.inj (Option.some.inj h) with ⟨rfl, rfl⟩
    apply scanFraction_of_ne
    intro c hc
    cases cs with
    | nil => exact (hrest c hc).2.1
    | cons first cs => exact hpoint c hc
  · obtain ⟨cs, rfl⟩ : ∃ tail, cs = '.' :: tail := by
      cases cs with
      | nil => simp at hpoint
      | cons first cs => exact ⟨cs, by simpa using hpoint⟩
    rw [scanFraction_point] at h
    rw [List.cons_append, scanFraction_point, spanDigits_append fun c hc => (hrest c hc).1]
    split at h
    · cases h
    · rename_i hdigits
      rw [if_neg hdigits]
      rw [Option.some.inj h]

theorem scanExponent_mark {c : Char} (hc : c = 'e' ∨ c = 'E')
    (hdigits : spanDigits (splitSign cs).2 = (ds, after)) :
    scanExponent (c :: cs) =
      if ds.isEmpty then none
      else some (some (if (splitSign cs).1 then -Int.ofNat (ofDigits ds)
        else Int.ofNat (ofDigits ds)), after) := by
  rcases Prod.mk.inj hdigits with ⟨rfl, rfl⟩
  rcases hc with rfl | rfl <;> rfl

theorem scanExponent_of_ne (h : ∀ c ∈ cs.head?, c ≠ 'e' ∧ c ≠ 'E') :
    scanExponent cs = some (none, cs) := by
  cases cs with
  | nil => rfl
  | cons c cs => simp [scanExponent, h c rfl]

theorem splitSign_of_ne (h : ∀ c ∈ cs.head?, c ≠ '-' ∧ c ≠ '+') :
    splitSign cs = (false, cs) := by
  rw [splitSign.eq_def]
  split
  · exact absurd rfl (h '-' rfl).1
  · exact absurd rfl (h '+' rfl).2
  · rfl

theorem splitSign_append (h : cs ≠ []) (rest : List Char) :
    splitSign (cs ++ rest) = ((splitSign cs).1, (splitSign cs).2 ++ rest) := by
  cases cs with
  | nil => exact absurd rfl h
  | cons c cs =>
    by_cases hminus : c = '-'
    · subst hminus
      rfl
    · by_cases hplus : c = '+'
      · subst hplus
        rfl
      · rw [List.cons_append, splitSign_of_ne (by simp [hminus, hplus]),
          splitSign_of_ne (by simp [hminus, hplus])]
        rfl

theorem scanExponent_append {e : Option Int} (hrest : EndsNumber rest)
    (h : scanExponent cs = some (e, after)) :
    scanExponent (cs ++ rest) = some (e, after ++ rest) := by
  by_cases hmark : ∀ c ∈ cs.head?, c ≠ 'e' ∧ c ≠ 'E'
  · rw [scanExponent_of_ne hmark] at h
    rcases Prod.mk.inj (Option.some.inj h) with ⟨rfl, rfl⟩
    apply scanExponent_of_ne
    intro c hc
    cases cs with
    | nil => exact (hrest c hc).2.2
    | cons first cs => exact hmark c hc
  · obtain ⟨c, hc, cs, rfl⟩ : ∃ c, (c = 'e' ∨ c = 'E') ∧ ∃ tail, cs = c :: tail := by
      cases cs with
      | nil => simp at hmark
      | cons c cs =>
        refine ⟨c, ?_, cs, rfl⟩
        simp only [List.head?_cons, Option.mem_def, Option.some.injEq, forall_eq'] at hmark
        tauto
    rw [scanExponent_mark hc (Prod.mk.eta (p := spanDigits (splitSign cs).2)).symm] at h
    have hne : cs ≠ [] := by
      rintro rfl
      cases h
    have hdigits : spanDigits (splitSign (cs ++ rest)).2 =
        ((spanDigits (splitSign cs).2).1, (spanDigits (splitSign cs).2).2 ++ rest) := by
      rw [splitSign_append hne, spanDigits_append fun c hc => (hrest c hc).1]
    rw [List.cons_append, scanExponent_mark hc hdigits, splitSign_append hne]
    split at h
    · cases h
    · rename_i hdigits
      rcases Prod.mk.inj (Option.some.inj h) with ⟨rfl, rfl⟩
      rw [if_neg hdigits]

def splitMinus : List Char → Bool × List Char
  | '-' :: cs => (true, cs)
  | cs => (false, cs)

def scanMagnitude (negative : Bool) (cs : List Char) : Option (Numeral × List Char) :=
  if isWholePart (spanDigits cs).1 then
    (scanFraction (spanDigits cs).2).bind fun fraction =>
      (scanExponent fraction.2).map fun exponent =>
        (⟨⟨negative, ofDigits ((spanDigits cs).1 ++ fraction.1),
          exponent.1.getD 0 - Int.ofNat fraction.1.length⟩,
          fraction.1.isEmpty && exponent.1.isNone⟩, exponent.2)
  else none

theorem scanNumber_eq (cs : List Char) :
    scanNumber cs = scanMagnitude (splitMinus cs).1 (splitMinus cs).2 := by
  rw [scanNumber.eq_def]
  split
  rename_i negative tail hsign
  have hminus : splitMinus cs = (negative, tail) := hsign
  rw [hminus, scanMagnitude]
  cases hwhole : isWholePart (spanDigits tail).1 with
  | false => simp [hwhole]
  | true =>
    simp only [hwhole, Bool.not_true, Bool.false_eq_true, if_false, if_true]
    cases scanFraction (spanDigits tail).2 with
    | none => rfl
    | some fraction => cases hexponent : scanExponent fraction.2 <;> simp [hexponent]

theorem splitMinus_of_ne (h : ∀ c ∈ cs.head?, c ≠ '-') : splitMinus cs = (false, cs) := by
  rw [splitMinus.eq_def]
  split
  · exact absurd rfl (h '-' rfl)
  · rfl

theorem scanMagnitude_append {negative : Bool} (hrest : EndsNumber rest)
    (h : scanMagnitude negative cs = some (n, after)) :
    scanMagnitude negative (cs ++ rest) = some (n, after ++ rest) := by
  rw [scanMagnitude] at h
  split at h
  · rename_i hwhole
    rcases Option.bind_eq_some_iff.1 h with ⟨⟨fraction, after₁⟩, hfraction, h⟩
    rcases Option.map_eq_some_iff.1 h with ⟨⟨exponent, after₂⟩, hexponent, h⟩
    rcases Prod.mk.inj h with ⟨rfl, rfl⟩
    rw [scanMagnitude, spanDigits_append fun c hc => (hrest c hc).1, if_pos hwhole,
      scanFraction_append hrest hfraction, Option.bind_some, scanExponent_append hrest hexponent]
    rfl
  · cases h

/-- A number is read in the same way before a text that cannot go on with it. -/
theorem scanNumber_append (hrest : EndsNumber rest) (h : scanNumber cs = some (n, after)) :
    scanNumber (cs ++ rest) = some (n, after ++ rest) := by
  have hsign : splitMinus (cs ++ rest) = ((splitMinus cs).1, (splitMinus cs).2 ++ rest) := by
    cases cs with
    | nil => cases h
    | cons c cs =>
      by_cases hc : c = '-'
      · subst hc
        rfl
      · rw [splitMinus_of_ne (by simpa using hc), splitMinus_of_ne (by simpa using hc)]
  rw [scanNumber_eq] at h
  rw [scanNumber_eq, hsign]
  exact scanMagnitude_append hrest h

theorem ne_of_test {test : Char → Bool} {c d : Char} (hc : test c = true) (hd : test d = false) :
    c ≠ d := by
  rintro rfl
  rw [hc] at hd
  cases hd

theorem isDigit_of_mem_head?_digitsOf {m : Nat} {c : Char} (hc : c ∈ (digitsOf m).head?) :
    c.isDigit = true :=
  isDigit_of_mem_digitsOf (List.mem_of_mem_head? hc)

theorem isWholePart_digitsOf (m : Nat) : isWholePart (digitsOf m) = true := by
  rcases Nat.eq_zero_or_pos m with rfl | hm
  · rfl
  · have hhead := head?_digitsOf_ne_zero hm
    cases hdigits : digitsOf m with
    | nil => exact absurd hdigits (digitsOf_ne_nil m)
    | cons c cs =>
      rw [hdigits] at hhead
      have hc : c ≠ '0' := by simpa using hhead
      simp [isWholePart, hc]

theorem head?_append_digitsOf (m : Nat) (tail : List Char) :
    (digitsOf m ++ tail).head? = (digitsOf m).head? := by
  cases hdigits : digitsOf m with
  | nil => exact absurd hdigits (digitsOf_ne_nil m)
  | cons c cs => rfl

theorem scanNumber_digits (negative : Bool) (m : Nat) {tail : List Char}
    (htail : ∀ c ∈ tail.head?, c.isDigit = false) :
    scanNumber ((if negative then ['-'] else []) ++ (digitsOf m ++ tail)) =
      (scanFraction tail).bind fun fraction =>
        (scanExponent fraction.2).map fun exponent =>
          (⟨⟨negative, ofDigits (digitsOf m ++ fraction.1),
            exponent.1.getD 0 - Int.ofNat fraction.1.length⟩,
            fraction.1.isEmpty && exponent.1.isNone⟩, exponent.2) := by
  have hsign : splitMinus ((if negative then ['-'] else []) ++ (digitsOf m ++ tail)) =
      (negative, digitsOf m ++ tail) := by
    cases negative with
    | true => rfl
    | false =>
      apply splitMinus_of_ne
      intro c hc
      rw [if_neg (by decide), List.nil_append, head?_append_digitsOf] at hc
      exact ne_of_test (isDigit_of_mem_head?_digitsOf hc) (by decide)
  rw [scanNumber_eq, hsign, scanMagnitude]
  simp only [spanDigits_of_all (fun c hc => isDigit_of_mem_digitsOf hc) htail,
    isWholePart_digitsOf, if_true]

/-- A whole number as it is written. -/
def Numeral.ofInt (n : Int) : Numeral := ⟨⟨n < 0, n.natAbs, 0⟩, true⟩

theorem renderInt_eq (n : Int) :
    renderInt n = (if decide (n < 0) then ['-'] else []) ++ digitsOf n.natAbs := by
  by_cases h : n < 0 <;> simp [renderInt, h]

theorem scanNumber_renderInt (n : Int) : scanNumber (renderInt n) = some (Numeral.ofInt n, []) := by
  rw [renderInt_eq, ← List.append_nil (digitsOf n.natAbs), scanNumber_digits _ _ (by simp)]
  simp [scanFraction, scanExponent, Numeral.ofInt, ofDigits_digitsOf]

/-- The whole numbers that fit 64 bits, with a sign or without. -/
def IsWord (n : Int) : Prop := -2 ^ 63 ≤ n ∧ n < 2 ^ 64

theorem integer?_ofInt {n : Int} (h : IsWord n) : (Numeral.ofInt n).integer? = some n := by
  rcases h with ⟨hlow, hhigh⟩
  by_cases hn : n < 0
  · have hfits : 0 < n.natAbs ∧ n.natAbs ≤ 2 ^ 63 := by omega
    simp only [Numeral.integer?, Numeral.ofInt, Nat.pow_eq, decide_eq_true hn, if_pos hfits]
    simp only [Int.ofNat_eq_natCast, Bool.not_true, Bool.false_eq_true, if_false, if_true]
    congr 1
    omega
  · have hfits : n.natAbs < 2 ^ 64 := by omega
    simp only [Numeral.integer?, Numeral.ofInt, Nat.pow_eq, decide_eq_false hn, if_pos hfits]
    simp only [Int.ofNat_eq_natCast, Bool.not_true, Bool.false_eq_true, if_false]
    congr 1
    omega

theorem isWord_of_integer? {m : Numeral} {n : Int} (h : m.integer? = some n) : IsWord n := by
  simp only [Numeral.integer?, Nat.pow_eq, Int.ofNat_eq_natCast] at h
  split at h
  · cases h
  · split at h
    · split at h
      · obtain rfl := Option.some.inj h
        constructor <;> omega
      · cases h
    · split at h
      · obtain rfl := Option.some.inj h
        constructor <;> omega
      · cases h

theorem splitSign_renderInt (n : Int) :
    splitSign (renderInt n) = (decide (n < 0), digitsOf n.natAbs) := by
  by_cases hn : n < 0
  · simp [renderInt, hn, splitSign]
  · have hne : ∀ c ∈ (digitsOf n.natAbs).head?, c ≠ '-' ∧ c ≠ '+' := by
      intro c hc
      have hdigit := isDigit_of_mem_head?_digitsOf hc
      exact ⟨ne_of_test hdigit (by decide), ne_of_test hdigit (by decide)⟩
    simp [renderInt, hn, splitSign_of_ne hne]

theorem scanExponent_renderInt (n : Int) :
    scanExponent ('e' :: renderInt n) = some (some n, []) := by
  have hdigits : spanDigits (splitSign (renderInt n)).2 = (digitsOf n.natAbs, []) := by
    rw [splitSign_renderInt, ← List.append_nil (digitsOf n.natAbs),
      spanDigits_of_all (fun c hc => isDigit_of_mem_digitsOf hc) (by simp), List.append_nil]
  have hvalue : (if decide (n < 0) then -Int.ofNat n.natAbs else Int.ofNat n.natAbs) = n := by
    rw [Int.ofNat_eq_natCast]
    split
    · rename_i hn
      have hn' := of_decide_eq_true hn
      omega
    · rename_i hn
      have hn' : ¬ n < 0 := fun h => hn (decide_eq_true h)
      omega
  rw [scanExponent_mark (.inl rfl) hdigits, splitSign_renderInt]
  simp only [ofDigits_digitsOf, hvalue, List.isEmpty_iff, digitsOf_ne_nil, if_false]

theorem scanNumber_renderExact (d : BinaryNumber) :
    scanNumber (renderExact d) = some (⟨d.toDecimal, false⟩, []) := by
  simp only [renderExact, List.append_assoc]
  rw [scanNumber_digits _ _ (by simp), scanFraction_of_ne (by simp), Option.bind_some,
    scanExponent_renderInt]
  simp [ofDigits_digitsOf]

/-- The numeral by which a finite double is written. -/
theorem exists_scanNumber_renderFloat (h : isFinite x = true) :
    ∃ n, scanNumber (renderFloat x) = some (n, []) ∧ n.isWhole = false ∧ n.decimal.toFloat = x := by
  obtain ⟨d, hd⟩ := exists_binary? h
  simp only [renderFloat, hd]
  cases hfound : (d.candidates.map renderDecimal).find? (readsBackAs x) with
  | none => exact ⟨_, scanNumber_renderExact d, rfl, toFloat_toDecimal hd⟩
  | some cs =>
    have hreads := List.find?_some hfound
    rw [readsBackAs] at hreads
    split at hreads
    · rename_i n hscan
      simp only [Bool.and_eq_true, Bool.not_eq_true', beq_iff_eq] at hreads
      exact ⟨n, hscan, hreads.1, Float.toBits_inj.1 hreads.2⟩
    · cases hreads

end AddressLedger.Json
