import RustKv.Text
import Mathlib.Tactic.Ring

namespace RustKv.Decimal

open Text

def digit (d : Nat) : UInt8 := (48 + d).toUInt8

def digitValue (b : UInt8) : Option Nat := if 48 ≤ b && b ≤ 57 then some (b.toNat - 48) else none

def digitsAux : Nat → Nat → Bytes → Bytes
  | 0, _, acc => acc
  | fuel + 1, n, acc =>
      if n < 10 then digit n :: acc else digitsAux fuel (n / 10) (digit (n % 10) :: acc)

/-- The canonical decimal of a natural number, as itoa and Display print it. -/
def decimal (n : Nat) : Bytes := digitsAux (n + 1) n []

def decimalInt (i : Int) : Bytes :=
  if i < 0 then 45 :: decimal i.natAbs else decimal i.natAbs

inductive IntErrorKind
  | empty
  | invalidDigit
  | posOverflow
  | negOverflow
  deriving DecidableEq, Repr

def IntErrorKind.text : IntErrorKind → String
  | .empty => "cannot parse integer from empty string"
  | .invalidDigit => "invalid digit found in string"
  | .posOverflow => "number too large to fit in target type"
  | .negOverflow => "number too small to fit in target type"

/-- Accumulate digits from the left; the first bad digit or the first value
above the limit ends the scan. -/
def parseDigits (limit : Nat) (overflow : IntErrorKind) : Nat → Bytes → Except IntErrorKind Nat
  | acc, [] => .ok acc
  | acc, b :: bs =>
      match digitValue b with
      | none => .error .invalidDigit
      | some d =>
          if acc * 10 + d ≤ limit then parseDigits limit overflow (acc * 10 + d) bs
          else .error overflow

/-- from_str_radix of an unsigned type with the given maximum: one optional
plus sign, then at least one digit. -/
def parseUnsigned (limit : Nat) : Bytes → Except IntErrorKind Nat
  | [] => .error .empty
  | [b] => if b = 43 || b = 45 then .error .invalidDigit else parseDigits limit .posOverflow 0 [b]
  | b :: bs =>
      if b = 43 then parseDigits limit .posOverflow 0 bs
      else parseDigits limit .posOverflow 0 (b :: bs)

def parseI64 : Bytes → Except IntErrorKind Int
  | [] => .error .empty
  | [b] =>
      if b = 43 || b = 45 then .error .invalidDigit
      else (parseDigits (2 ^ 63 - 1) .posOverflow 0 [b]).map Int.ofNat
  | b :: bs =>
      if b = 43 then (parseDigits (2 ^ 63 - 1) .posOverflow 0 bs).map Int.ofNat
      else if b = 45 then (parseDigits (2 ^ 63) .negOverflow 0 bs).map (fun n => -Int.ofNat n)
      else (parseDigits (2 ^ 63 - 1) .posOverflow 0 (b :: bs)).map Int.ofNat

def parseUsize : Bytes → Except IntErrorKind Nat := parseUnsigned (2 ^ 64 - 1)

def parseU64 : Bytes → Except IntErrorKind Nat := parseUnsigned (2 ^ 64 - 1)

theorem digit_toNat {d : Nat} (h : d < 10) : (digit d).toNat = 48 + d := by
  simp only [digit, UInt8.toNat_ofNat', Nat.toUInt8_eq]
  omega

theorem digitValue_digit {d : Nat} (h : d < 10) : digitValue (digit d) = some d := by
  have ht := digit_toNat h
  have hb : 48 ≤ digit d ∧ digit d ≤ 57 := by
    simp only [UInt8.le_iff_toNat_le, ht, UInt8.reduceToNat]
    omega
  simp only [digitValue, decide_eq_true hb.1, decide_eq_true hb.2, Bool.and_self, if_true, ht,
    Nat.add_sub_cancel_left]

theorem parseDigits_digitsAux (limit : Nat) (e : IntErrorKind) (fuel n : Nat) (acc : Bytes)
    (hf : n < fuel) (hn : n ≤ limit) :
    parseDigits limit e 0 (digitsAux fuel n acc) = parseDigits limit e n acc := by
  induction fuel generalizing n acc with
  | zero => omega
  | succ fuel ih =>
      rw [digitsAux]
      by_cases h : n < 10
      · rw [if_pos h, parseDigits, digitValue_digit h]
        simp [hn]
      · have hm : n / 10 * 10 + n % 10 = n := Nat.div_add_mod' n 10
        rw [if_neg h, ih (n / 10) _ (by omega) (by omega), parseDigits,
          digitValue_digit (Nat.mod_lt n (by decide))]
        simp only [hm, if_pos hn]

theorem parseDigits_decimal (limit : Nat) (e : IntErrorKind) (n : Nat) (hn : n ≤ limit) :
    parseDigits limit e 0 (decimal n) = .ok n := by
  rw [decimal, parseDigits_digitsAux limit e (n + 1) n [] (by omega) hn]
  rfl

theorem digitsAux_digits (fuel n : Nat) (acc : Bytes)
    (hacc : ∀ b ∈ acc, ∃ d, d < 10 ∧ b = digit d) :
    ∀ b ∈ digitsAux fuel n acc, ∃ d, d < 10 ∧ b = digit d := by
  induction fuel generalizing n acc with
  | zero => exact hacc
  | succ fuel ih =>
      rw [digitsAux]
      split
      · next h =>
          intro b hb
          rcases List.mem_cons.mp hb with rfl | hb
          · exact ⟨n, h, rfl⟩
          · exact hacc b hb
      · apply ih
        intro b hb
        rcases List.mem_cons.mp hb with rfl | hb
        · exact ⟨n % 10, Nat.mod_lt n (by decide), rfl⟩
        · exact hacc b hb

theorem decimal_digits (n : Nat) : ∀ b ∈ decimal n, ∃ d, d < 10 ∧ b = digit d :=
  digitsAux_digits (n + 1) n [] (by simp)

theorem digitsAux_ne_nil (fuel n : Nat) (acc : Bytes) (hf : n < fuel) :
    digitsAux fuel n acc ≠ [] := by
  induction fuel generalizing n acc with
  | zero => omega
  | succ fuel ih =>
      rw [digitsAux]
      split
      · simp
      · exact ih _ _ (by omega)

theorem decimal_ne_nil (n : Nat) : decimal n ≠ [] := digitsAux_ne_nil (n + 1) n [] (by omega)

theorem decimal_bounds (n : Nat) : ∀ b ∈ decimal n, 48 ≤ b ∧ b ≤ 57 := by
  intro b hb
  obtain ⟨d, hd, rfl⟩ := decimal_digits n b hb
  have ht := digit_toNat hd
  simp only [UInt8.le_iff_toNat_le, ht, UInt8.reduceToNat]
  omega

theorem decimal_not_mem (n : Nat) {b : UInt8} (hb : b < 48) : b ∉ decimal n := by
  intro h
  exact absurd (decimal_bounds n b h).1 (not_le.mpr hb)

theorem digitsAux_length (fuel n k : Nat) (acc : Bytes) (hn : n < 10 ^ (k + 1)) :
    (digitsAux fuel n acc).length ≤ acc.length + k + 1 := by
  induction fuel generalizing n k acc with
  | zero => simp only [digitsAux]; omega
  | succ fuel ih =>
      rw [digitsAux]
      split
      · simp only [List.length_cons]; omega
      · cases k with
        | zero => omega
        | succ k =>
            have hd : n / 10 < 10 ^ (k + 1) := by
              rw [Nat.div_lt_iff_lt_mul (by decide), ← Nat.pow_succ]
              exact hn
            have := ih (n / 10) k (digit (n % 10) :: acc) hd
            simp only [List.length_cons] at this
            omega

theorem decimal_length_le {n : Nat} (hn : n < 2 ^ 64) : (decimal n).length ≤ 20 := by
  have := digitsAux_length (n + 1) n 19 [] (lt_trans hn (by decide))
  simpa [decimal] using this

theorem digitsAux_append (fuel n : Nat) (acc : Bytes) :
    digitsAux fuel n acc = digitsAux fuel n [] ++ acc := by
  induction fuel generalizing n acc with
  | zero => rfl
  | succ fuel ih =>
      rw [digitsAux, digitsAux]
      split
      · rfl
      · rw [ih, ih (n / 10) [digit (n % 10)], List.append_assoc]
        rfl

theorem digitsAux_fuel {fuel fuel' n : Nat} (acc : Bytes) (h : n < fuel) (h' : n < fuel') :
    digitsAux fuel n acc = digitsAux fuel' n acc := by
  induction fuel generalizing fuel' n acc with
  | zero => omega
  | succ fuel ih =>
      cases fuel' with
      | zero => omega
      | succ fuel' =>
          rw [digitsAux, digitsAux]
          split
          · rfl
          · exact ih _ (by omega) (by omega)

/-- Another digit behind a number that is not zero. -/
theorem decimal_step {n d : Nat} (hn : 0 < n) (hd : d < 10) :
    decimal (n * 10 + d) = decimal n ++ [digit d] := by
  have hdiv : (n * 10 + d) / 10 = n := by omega
  have hmod : (n * 10 + d) % 10 = d := by omega
  rw [decimal, digitsAux, if_neg (by omega), hdiv, hmod, digitsAux_append, decimal]
  rw [digitsAux_fuel [] (show n < n * 10 + d by omega) (Nat.lt_succ_self n)]

theorem parseUnsigned_decimal {limit n : Nat} (hn : n ≤ limit) :
    parseUnsigned limit (decimal n) = .ok n := by
  have hp := parseDigits_decimal limit .posOverflow n hn
  have h43 : (43 : UInt8) ∉ decimal n := decimal_not_mem n (by decide)
  have h45 : (45 : UInt8) ∉ decimal n := decimal_not_mem n (by decide)
  match hd : decimal n with
  | [] => exact absurd hd (decimal_ne_nil n)
  | [b] =>
      rw [hd] at hp h43 h45
      simp only [List.mem_singleton] at h43 h45
      simp only [parseUnsigned, Ne.symm h43, Ne.symm h45, decide_false, Bool.or_self,
        Bool.false_eq_true, if_false, hp]
  | b :: c :: bs =>
      rw [hd] at hp h43
      simp only [List.mem_cons, not_or] at h43
      simp only [parseUnsigned, Ne.symm h43.1, if_false, hp]

theorem parseI64_digits (n : Nat) :
    parseI64 (decimal n) = (parseDigits (2 ^ 63 - 1) .posOverflow 0 (decimal n)).map Int.ofNat := by
  have h43 : (43 : UInt8) ∉ decimal n := decimal_not_mem n (by decide)
  have h45 : (45 : UInt8) ∉ decimal n := decimal_not_mem n (by decide)
  match hd : decimal n with
  | [] => exact absurd hd (decimal_ne_nil n)
  | [b] =>
      rw [hd] at h43 h45
      simp only [List.mem_singleton] at h43 h45
      simp only [parseI64, Ne.symm h43, Ne.symm h45, decide_false, Bool.or_self,
        Bool.false_eq_true, if_false]
  | b :: c :: bs =>
      rw [hd] at h43 h45
      simp only [List.mem_cons, not_or] at h43 h45
      simp only [parseI64, Ne.symm h43.1, Ne.symm h45.1, if_false]

theorem parseI64_decimal {n : Nat} (hn : n ≤ 2 ^ 63 - 1) : parseI64 (decimal n) = .ok (n : Int) := by
  rw [parseI64_digits, parseDigits_decimal _ _ n hn]
  rfl

theorem parseDigits_mono {limit limit' : Nat} (hl : limit ≤ limit') {e : IntErrorKind} {acc : Nat}
    {b : Bytes} {n : Nat} (h : parseDigits limit e acc b = .ok n) :
    parseDigits limit' e acc b = .ok n := by
  induction b generalizing acc with
  | nil => exact h
  | cons x b ih =>
      rw [parseDigits] at h ⊢
      cases hx : digitValue x with
      | none => simp [hx] at h
      | some d =>
          simp only [hx] at h ⊢
          split at h
          · next hle =>
            rw [if_pos (le_trans hle hl)]
            exact ih h
          · cases h

theorem parseDigits_le (limit : Nat) (e : IntErrorKind) (acc : Nat) (b : Bytes) (n : Nat)
    (ha : acc ≤ limit) (h : parseDigits limit e acc b = .ok n) : n ≤ limit := by
  induction b generalizing acc with
  | nil =>
      simp only [parseDigits, Except.ok.injEq] at h
      omega
  | cons x b ih =>
      rw [parseDigits] at h
      cases hx : digitValue x with
      | none => simp [hx] at h
      | some d =>
          simp only [hx] at h
          split at h
          · next hle => exact ih _ hle h
          · cases h

theorem parseI64_overflow {n : Nat} (hn : 2 ^ 63 ≤ n) : ∃ e, parseI64 (decimal n) = .error e := by
  rw [parseI64_digits]
  cases hp : parseDigits (2 ^ 63 - 1) .posOverflow 0 (decimal n) with
  | error e => exact ⟨e, rfl⟩
  | ok v =>
      have hv := parseDigits_mono (show 2 ^ 63 - 1 ≤ n by omega) hp
      rw [parseDigits_decimal n .posOverflow n (le_refl n)] at hv
      cases hv
      have := parseDigits_le _ _ 0 _ _ (by omega) hp
      omega

theorem parseUnsigned_le {limit : Nat} {b : Bytes} {n : Nat} (h : parseUnsigned limit b = .ok n) :
    n ≤ limit := by
  unfold parseUnsigned at h
  split at h
  · cases h
  · split at h
    · cases h
    · exact parseDigits_le _ _ 0 _ _ (by omega) h
  · split at h
    · exact parseDigits_le _ _ 0 _ _ (by omega) h
    · exact parseDigits_le _ _ 0 _ _ (by omega) h

theorem parseI64_bound {b : Bytes} {i : Int} (h : parseI64 b = .ok i) : i < 2 ^ 63 := by
  have hmap {limit : Nat} {e : IntErrorKind} {b : Bytes} {f : Nat → Int}
      (h : (parseDigits limit e 0 b).map f = .ok i) : ∃ n, n ≤ limit ∧ f n = i := by
    cases hp : parseDigits limit e 0 b with
    | error e => simp [hp, Except.map] at h
    | ok n =>
        simp only [hp, Except.map, Except.ok.injEq] at h
        exact ⟨n, parseDigits_le limit e 0 b n (by omega) hp, h⟩
  unfold parseI64 at h
  split at h
  · cases h
  · split at h
    · cases h
    · obtain ⟨n, hn, rfl⟩ := hmap h
      simp only [Int.ofNat_eq_natCast]
      omega
  · split at h
    · obtain ⟨n, hn, rfl⟩ := hmap h
      simp only [Int.ofNat_eq_natCast]
      omega
    · split at h
      · obtain ⟨n, hn, rfl⟩ := hmap h
        simp only [Int.ofNat_eq_natCast]
        omega
      · obtain ⟨n, hn, rfl⟩ := hmap h
        simp only [Int.ofNat_eq_natCast]
        omega

end RustKv.Decimal
