import Mathlib

/-!
# Ones'-complement sums

The Internet checksum (RFC 1071) adds `w`-bit words in ones'-complement arithmetic: a carry out of
the top bit comes back in at the bottom (`onesAdd`), and `onesSum` adds a list of words so, one
after the other. The sum can also be taken with the carries deferred: add the words as numbers,
then fold the bits above `w` back in until none is left. Both give `norm w x` of the plain sum `x`:
the number in `1 … 2 ^ w - 1` congruent to `x` modulo `2 ^ w - 1`, or `0` for `0`. `onesSum_eq_norm`
says it of the first, and `norm_fold`, that one fold keeps `norm`, of the second. A sum to which the
complement of its `norm` is added has the all-ones word as its `norm` (`norm_add_compl`): this is
why a checksum verifies.

`beWords` reads a byte string as the 16-bit words of the checksum, in network byte order, an odd
last byte being the high byte of a word whose low byte is zero.
-/

namespace OnesComplement

/-- Ones'-complement addition of two `w`-bit words. -/
def onesAdd (w a b : ℕ) : ℕ := if a + b < 2 ^ w then a + b else a + b - 2 ^ w + 1

/-- The ones'-complement sum of a list of words. -/
def onesSum (w : ℕ) (ws : List ℕ) : ℕ := ws.foldl (onesAdd w) 0

/-- The value of a sum in ones'-complement arithmetic: `0` for `0`, else its residue modulo
`2 ^ w - 1`, taken in `1 … 2 ^ w - 1`. -/
def norm (w x : ℕ) : ℕ := if x = 0 then 0 else (x - 1) % (2 ^ w - 1) + 1

section Norm

variable {w x y : ℕ}

@[simp]
theorem norm_zero : norm w 0 = 0 := rfl

theorem norm_eq_zero_iff : norm w x = 0 ↔ x = 0 := by
  unfold norm
  split_ifs <;> simp_all

theorem norm_of_lt (h : x < 2 ^ w) : norm w x = x := by
  unfold norm
  split_ifs with hx
  · exact hx.symm
  · rw [Nat.mod_eq_of_lt (by omega)]
    omega

theorem norm_le (hw : 0 < w) : norm w x ≤ 2 ^ w - 1 := by
  have hpos : 0 < 2 ^ w - 1 := by
    have := Nat.one_lt_two_pow hw.ne'
    omega
  unfold norm
  split_ifs
  · exact Nat.zero_le _
  · have := Nat.mod_lt (x - 1) hpos
    omega

theorem norm_modEq : norm w x ≡ x [MOD 2 ^ w - 1] := by
  unfold norm
  split_ifs with hx
  · rw [hx]
  · have := (Nat.mod_modEq (x - 1) (2 ^ w - 1)).add_right 1
    rwa [Nat.sub_add_cancel (Nat.pos_of_ne_zero hx)] at this

/-- Two numbers, both zero or both not, with one residue have one `norm`. -/
theorem norm_congr (hxy : x ≡ y [MOD 2 ^ w - 1]) (h0 : x = 0 ↔ y = 0) : norm w x = norm w y := by
  unfold norm
  by_cases hx : x = 0
  · simp [hx, h0.1 hx]
  · have hy : y ≠ 0 := fun hy => hx (h0.2 hy)
    simp only [hx, hy, if_false]
    have hxy' : x - 1 + 1 ≡ y - 1 + 1 [MOD 2 ^ w - 1] := by
      rwa [Nat.sub_add_cancel (Nat.pos_of_ne_zero hx), Nat.sub_add_cancel (Nat.pos_of_ne_zero hy)]
    rw [Nat.ModEq.add_right_cancel' 1 hxy']

/-- A summand may be replaced by its `norm`. -/
theorem norm_norm_add : norm w (norm w x + y) = norm w (x + y) :=
  norm_congr (norm_modEq.add_right y) (by simp [norm_eq_zero_iff])

/-- One fold of the carries: the bits above `w` are added back at the bottom. -/
theorem norm_fold (h : 2 ^ w ≤ x) : norm w (x % 2 ^ w + x / 2 ^ w) = norm w x := by
  -- `2 ^ w` is `1` modulo `2 ^ w - 1`, so the carry weighs what it weighed above bit `w`
  have hone : 2 ^ w ≡ 1 [MOD 2 ^ w - 1] :=
    ((Nat.modEq_iff_dvd' (Nat.one_le_two_pow)).mpr dvd_rfl).symm
  have hmod : x % 2 ^ w + x / 2 ^ w ≡ x [MOD 2 ^ w - 1] := by
    have hsplit := (hone.mul_right (x / 2 ^ w)).add_left (x % 2 ^ w)
    rw [one_mul, Nat.mod_add_div] at hsplit
    exact hsplit.symm
  have hq : 0 < x / 2 ^ w := Nat.div_pos h (Nat.two_pow_pos w)
  exact norm_congr hmod (by omega)

end Norm

section Sum

variable {w : ℕ} (hw : 0 < w)
include hw

/-- Ones'-complement addition of two words is the `norm` of their plain sum. -/
theorem onesAdd_eq_norm {a b : ℕ} (ha : a < 2 ^ w) (hb : b < 2 ^ w) :
    onesAdd w a b = norm w (a + b) := by
  unfold onesAdd
  split_ifs with hab
  · exact (norm_of_lt hab).symm
  · -- one carry, and the folded sum is a word again
    have hq : (a + b) / 2 ^ w = 1 := by
      rw [Nat.div_eq_iff (Nat.two_pow_pos w)]
      constructor <;> omega
    have hr : (a + b) % 2 ^ w = a + b - 2 ^ w := by
      rw [Nat.mod_eq_sub_mod (by omega), Nat.mod_eq_of_lt (by omega)]
    rw [← norm_fold (by omega), hq, hr, norm_of_lt]
    have := Nat.one_lt_two_pow hw.ne'
    omega

theorem foldl_onesAdd (s : ℕ) {ws : List ℕ} (hws : ∀ a ∈ ws, a < 2 ^ w) :
    ws.foldl (onesAdd w) (norm w s) = norm w (s + ws.sum) := by
  induction ws generalizing s with
  | nil => simp
  | cons a ws ih =>
    have hs : norm w s < 2 ^ w := by
      have := norm_le (x := s) hw
      have := Nat.one_le_two_pow (n := w)
      omega
    rw [List.foldl_cons, onesAdd_eq_norm hw hs (hws a (by simp)), norm_norm_add,
      ih (s + a) (fun b hb => hws b (by simp [hb])), List.sum_cons, Nat.add_assoc]

/-- The ones'-complement sum of words is the `norm` of their plain sum: the carries may be
deferred. -/
theorem onesSum_eq_norm {ws : List ℕ} (hws : ∀ a ∈ ws, a < 2 ^ w) :
    onesSum w ws = norm w ws.sum := by
  have := foldl_onesAdd hw 0 hws
  rwa [norm_zero, Nat.zero_add] at this

/-- Adding to a sum the complement of its `norm` gives the all-ones word. -/
theorem norm_add_compl (x : ℕ) : norm w (x + (2 ^ w - 1 - norm w x)) = 2 ^ w - 1 := by
  have hle := norm_le (x := x) hw
  calc norm w (x + (2 ^ w - 1 - norm w x))
      = norm w (norm w x + (2 ^ w - 1 - norm w x)) := norm_norm_add.symm
    _ = norm w (2 ^ w - 1) := by rw [Nat.add_sub_cancel' hle]
    _ = 2 ^ w - 1 := norm_of_lt (Nat.sub_lt (Nat.two_pow_pos w) Nat.one_pos)

end Sum

/-! ## Words of a byte string -/

/-- The 16-bit words of a byte string, in network byte order. -/
def beWords : List UInt8 → List ℕ
  | a :: b :: rest => (a.toNat * 256 + b.toNat) :: beWords rest
  | [a] => [a.toNat * 256]
  | [] => []

/-- A 16-bit value in network byte order. -/
def be16 (v : UInt16) : List UInt8 := [(v >>> 8).toUInt8, v.toUInt8]

/-- A 32-bit value in network byte order. -/
def be32 (v : UInt32) : List UInt8 :=
  [(v >>> 24).toUInt8, (v >>> 16).toUInt8, (v >>> 8).toUInt8, v.toUInt8]

@[simp]
theorem length_be16 (v : UInt16) : (be16 v).length = 2 := rfl

@[simp]
theorem length_be32 (v : UInt32) : (be32 v).length = 4 := rfl

theorem beWords_append {l₁ : List UInt8} (l₂ : List UInt8) (h : Even l₁.length) :
    beWords (l₁ ++ l₂) = beWords l₁ ++ beWords l₂ := by
  induction l₁ using beWords.induct with
  | case1 a b rest ih =>
    have hrest : Even rest.length := by
      simpa [Nat.even_add_one, parity_simps] using h
    simp [beWords, ih hrest]
  | case2 a => simp at h
  | case3 => simp [beWords]

theorem beWords_lt : ∀ {l : List UInt8}, ∀ x ∈ beWords l, x < 2 ^ 16
  | a :: b :: rest, x, hx => by
    simp only [beWords, List.mem_cons] at hx
    rcases hx with rfl | hx
    · have := a.toNat_lt
      have := b.toNat_lt
      omega
    · exact beWords_lt x hx
  | [a], x, hx => by
    simp only [beWords, List.mem_singleton] at hx
    have := a.toNat_lt
    omega
  | [], x, hx => by simp [beWords] at hx

theorem length_beWords : ∀ l : List UInt8, (beWords l).length = (l.length + 1) / 2
  | _ :: _ :: rest => by simp [beWords, length_beWords rest]; omega
  | [_] => by simp [beWords]
  | [] => rfl

/-- The plain sum of the words of `l`: at most one word of all ones for each word. -/
theorem sum_beWords_le (l : List UInt8) : (beWords l).sum ≤ (l.length + 1) / 2 * 0xFFFF := by
  rw [← length_beWords]
  exact List.sum_le_card_nsmul _ _ fun x hx => Nat.le_of_lt_succ (beWords_lt x hx)

/-- The two bytes of a 16-bit value in network byte order make it up again. -/
@[simp]
theorem toNat_be16_bytes (v : UInt16) :
    (v >>> 8).toUInt8.toNat * 256 + v.toUInt8.toNat = v.toNat := by
  have := v.toNat_lt
  simp [UInt16.toNat_toUInt8, UInt16.toNat_shiftRight]
  omega

@[simp]
theorem beWords_be16 (v : UInt16) : beWords (be16 v) = [v.toNat] := by
  simp only [be16, beWords, toNat_be16_bytes]

@[simp]
theorem beWords_be32 (v : UInt32) : beWords (be32 v) = [v.toNat / 2 ^ 16, v.toNat % 2 ^ 16] := by
  simp only [be32, beWords, List.cons.injEq, and_true]
  have := v.toNat_lt
  simp [UInt32.toNat_toUInt8, UInt32.toNat_shiftRight]
  omega

@[simp]
theorem beWords_be16_append (v : UInt16) (l : List UInt8) :
    beWords (be16 v ++ l) = v.toNat :: beWords l := by
  rw [beWords_append l (by simp), beWords_be16, List.singleton_append]

@[simp]
theorem beWords_be32_append (v : UInt32) (l : List UInt8) :
    beWords (be32 v ++ l) = v.toNat / 2 ^ 16 :: v.toNat % 2 ^ 16 :: beWords l := by
  rw [beWords_append l ⟨2, rfl⟩, beWords_be32]
  rfl

end OnesComplement
