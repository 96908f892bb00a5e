import AddressLedger.Text.Utf8
import Mathlib.Data.Char
import Mathlib.Tactic.SplitIfs

/-!
# The order of octets

Two texts compare by their octets as they do by their characters: of two characters, the one with the
greater code point has the greater octet where their octets first differ, and neither begins like
the other.
-/
namespace AddressLedger.Text

variable {c d : Char} {cs ds : List Char} {bs bs' : List UInt8}

theorem utf8_cons (c : Char) (cs : List Char) :
    utf8 (c :: cs) = String.utf8EncodeChar c ++ utf8 cs := rfl

theorem cons_lt_cons_ofNat_iff {m n : Nat} (hm : m < 256) (hn : n < 256) :
    UInt8.ofNat m :: bs < UInt8.ofNat n :: bs' ↔ m < n ∨ m = n ∧ bs < bs' := by
  rw [List.cons_lt_cons_iff, UInt8.lt_iff_toNat_lt, ← UInt8.toNat_inj, UInt8.toNat_ofNat',
    UInt8.toNat_ofNat', Nat.mod_eq_of_lt hm, Nat.mod_eq_of_lt hn]

theorem digits64_of_lt {m n : Nat} (h : m < n) :
    m / 262144 < n / 262144 ∨ m / 262144 = n / 262144 ∧
      (m / 4096 % 64 < n / 4096 % 64 ∨ m / 4096 % 64 = n / 4096 % 64 ∧
        (m / 64 % 64 < n / 64 % 64 ∨ m / 64 % 64 = n / 64 % 64 ∧ m % 64 < n % 64)) := by
  have hstep : ∀ {a b : Nat}, a < b → a / 64 < b / 64 ∨ a / 64 = b / 64 ∧ a % 64 < b % 64 := by
    omega
  have hshift : ∀ k : Nat, k / 4096 = k / 64 / 64 ∧ k / 262144 = k / 64 / 64 / 64 := by omega
  rw [(hshift m).1, (hshift n).1, (hshift m).2, (hshift n).2]
  rcases hstep h with h1 | ⟨h1, hlast⟩
  · rcases hstep h1 with h2 | ⟨h2, hthird⟩
    · rcases hstep h2 with h3 | ⟨h3, hsecond⟩
      · exact .inl h3
      · exact .inr ⟨h3, .inl hsecond⟩
    · simp [h2, hthird]
  · simp [h1, hlast]

/-- The smaller of two characters has the smaller octets, whatever follows. -/
theorem utf8EncodeChar_append_lt (h : c < d) (bs bs' : List UInt8) :
    String.utf8EncodeChar c ++ bs < String.utf8EncodeChar d ++ bs' := by
  have hlt : c.val.toNat < d.val.toNat := h
  have hbound : d.val.toNat < 0x110000 := by
    rcases d.valid with hd | hd <;> omega
  unfold String.utf8EncodeChar
  generalize c.val.toNat = m at *
  generalize d.val.toNat = n at *
  have hdigits := digits64_of_lt hlt
  have hm : m / 262144 % 8 = m / 262144 := Nat.mod_eq_of_lt (by omega)
  have hn : n / 262144 % 8 = n / 262144 := Nat.mod_eq_of_lt (by omega)
  -- One case for each pair of lengths; the first octet tells two lengths apart.
  dsimp only
  split_ifs <;>
    simp (disch := omega) only [List.cons_append, List.nil_append, cons_lt_cons_ofNat_iff, hm,
      hn] <;>
    omega

theorem utf8_lt_utf8_of_lt (h : cs < ds) : utf8 cs < utf8 ds := by
  induction h with
  | @nil d ds =>
    rw [utf8_cons]
    obtain ⟨b, bs, hb⟩ := List.exists_cons_of_ne_nil (String.utf8EncodeChar_ne_nil (c := d))
    rw [hb]
    exact List.nil_lt_cons _ _
  | rel hcd => exact utf8EncodeChar_append_lt hcd _ _
  | cons _ ih => exact List.append_left_lt ih

/-- Texts compare by their octets as they do by their characters. -/
theorem utf8_lt_utf8_iff : utf8 cs < utf8 ds ↔ cs < ds := by
  refine ⟨fun h => ?_, utf8_lt_utf8_of_lt⟩
  by_contra hnot
  rcases List.le_iff_lt_or_eq.mp (List.not_lt.mp hnot) with hgt | rfl
  · exact List.lt_asymm h (utf8_lt_utf8_of_lt hgt)
  · exact List.lt_irrefl _ h

end AddressLedger.Text
