import CrossDoc.Text

/-!
# Decimal numbers

A number is written in decimal digits, a negative one with a sign.  Reading the
digits gives the number back.
-/

namespace CrossDoc.Text

theorem digitsValue_ofNat (n : Nat) : digitsValue (ofNat n) = n := by
  have hstep : (fun (n : Nat) (c : Char) => n * 10 + (c.toNat - '0'.toNat)) =
      fun n c => 10 * n + (c.toNat - '0'.toNat) := by
    funext n c
    rw [Nat.mul_comm]
  rw [digitsValue, hstep]
  exact Nat.ofDigitChars_ten_toDigits

theorem isDigit_of_mem_ofNat {n : Nat} {c : Char} (h : c ∈ ofNat n) : c.isDigit = true :=
  Nat.isDigit_of_mem_toDigits (by decide) (by decide) h

theorem exists_digit_ofNat (n : Nat) : ∃ d ds, ofNat n = d :: ds ∧ d.isDigit = true := by
  cases h : ofNat n with
  | nil => exact absurd h Nat.toDigits_ne_nil
  | cons d ds => exact ⟨d, ds, rfl, isDigit_of_mem_ofNat (h ▸ List.mem_cons_self)⟩

/-- Decimal digits are read as what they write, with a sign or without one. -/
theorem toInt?_ofInt (n : Int) : toInt? (ofInt n) = some n := by
  have hunsigned : ∀ m : Nat,
      (!(ofNat m).isEmpty && (ofNat m).all Char.isDigit) = true := by
    intro m
    obtain ⟨d, ds, hd, -⟩ := exists_digit_ofNat m
    rw [Bool.and_eq_true, List.all_eq_true]
    exact ⟨by rw [hd]; rfl, fun c hc => isDigit_of_mem_ofNat hc⟩
  cases n with
  | ofNat m =>
      obtain ⟨d, ds, hd, hdigit⟩ := exists_digit_ofNat m
      have hall := hunsigned m
      have hvalue := digitsValue_ofNat m
      rw [ofInt]
      unfold toInt?
      split
      · next h =>
        rw [hd] at h
        obtain ⟨rfl, -⟩ := List.cons.inj h
        exact absurd hdigit (by decide)
      · next h =>
        rw [hd] at h
        obtain ⟨rfl, -⟩ := List.cons.inj h
        exact absurd hdigit (by decide)
      · dsimp only
        rw [if_pos hall, hvalue]
        rfl
  | negSucc m =>
      rw [ofInt, toInt?]
      dsimp only
      rw [if_pos (hunsigned (m + 1)), digitsValue_ofNat]
      rfl

theorem le_of_mem_ofInt (n : Int) : ∀ c ∈ ofInt n, 32 ≤ c.toNat := by
  have hdigits : ∀ (m : Nat), ∀ c ∈ ofNat m, 32 ≤ c.toNat := by
    intro m c hc
    have hdigit := isDigit_of_mem_ofNat hc
    rw [Char.isDigit, Bool.and_eq_true, decide_eq_true_eq] at hdigit
    exact Nat.le_trans (by decide) (UInt32.le_iff_toNat_le.mp hdigit.1)
  cases n with
  | ofNat m => exact hdigits m
  | negSucc m => exact List.forall_mem_cons.mpr ⟨by decide, hdigits (m + 1)⟩

end CrossDoc.Text
