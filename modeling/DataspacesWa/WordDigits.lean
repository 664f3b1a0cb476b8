import Mathlib

/-!
# Digits of a word

A word is cut into digits of `n` bits, the most significant one first. The sum
without carry of each digit and the ones before it is undone by adding to each
digit the one before it; a loop that doubles the distance computes it.
-/
namespace WordDigits

variable {w n : Nat}

/-- The `m` lowest digits. -/
def digits (n : Nat) (x : BitVec w) : Nat → List (BitVec n)
  | 0 => []
  | m + 1 => x.extractLsb' (n * m) n :: digits n x m

def pack (w : Nat) (ds : List (BitVec n)) : BitVec w := ds.foldl (fun acc d => acc <<< n ||| d.setWidth w) 0

/-- Each digit and the ones before it, from `c` on. -/
def sums : BitVec n → List (BitVec n) → List (BitVec n)
  | _, [] => []
  | c, d :: ds => (c ^^^ d) :: sums (c ^^^ d) ds

/-- `x ^ (x >> d)` -/
def shiftXor (d : Nat) (x : BitVec w) : BitVec w := x ^^^ x >>> d

/-- `for (; d < stop; d *= 2) x ^= x >> d`, for `d` not 0. -/
def scan (stop d : Nat) (x : BitVec w) : BitVec w :=
  if 0 < d ∧ d < stop then scan stop (2 * d) (shiftXor d x) else x
termination_by stop - d

/-- Every `n`-th bit is set, `m` in all. -/
def repunit (n : Nat) : Nat → Nat
  | 0 => 0
  | m + 1 => 2 ^ (n * m) + repunit n m

/-! ## Words below a power of two -/

theorem getLsbD_of_lt {x : BitVec w} {N p : Nat} (hx : x.toNat < 2 ^ N) (hp : N ≤ p) : x.getLsbD p = false :=
  Nat.testBit_lt_two_pow (lt_of_lt_of_le hx (Nat.pow_le_pow_right (by decide) hp))

theorem lt_of_getLsbD {x : BitVec w} {N : Nat} (h : ∀ p, N ≤ p → x.getLsbD p = false) : x.toNat < 2 ^ N :=
  Nat.lt_pow_two_of_testBit _ h

theorem getLsbD_add_one (x : BitVec w) {i : Nat} (hi : i < w) :
    (x + 1#w).getLsbD i = (x.getLsbD i ^^ decide (∀ j, j < i → x.getLsbD j = true)) := by
  rw [BitVec.getLsbD_add hi]
  cases i with
  | zero => simp [hi]
  | succ i =>
    rw [BitVec.carry_succ_one i x (by omega)]
    simp

/-! ## Digits -/

@[simp] theorem length_digits (x : BitVec w) (m : Nat) : (digits n x m).length = m := by
  induction m with
  | zero => rfl
  | succ m ih => rw [digits, List.length_cons, ih]

/-- The digit of place `k` is `k` digits before the end. -/
theorem digits_append (x : BitVec w) (j m : Nat) : digits n x (j + m) = digits n (x >>> (n * m)) j ++ digits n x m := by
  induction j with
  | zero => simp [digits]
  | succ j ih =>
    rw [Nat.succ_add, digits, ih, digits, List.cons_append]
    congr 1
    apply BitVec.eq_of_getLsbD_eq
    intro i hi
    rw [BitVec.getLsbD_extractLsb', BitVec.getLsbD_extractLsb', BitVec.getLsbD_ushiftRight, Nat.mul_add]
    congr 2
    omega

theorem digits_congr {x y : BitVec w} {m : Nat} (h : ∀ p, p < n * m → x.getLsbD p = y.getLsbD p) :
    digits n x m = digits n y m := by
  induction m with
  | zero => rfl
  | succ m ih =>
    rw [digits, digits, ih (by intro p hp; exact h p (by rw [Nat.mul_succ]; omega))]
    congr 1
    apply BitVec.eq_of_getLsbD_eq
    intro i hi
    rw [BitVec.getLsbD_extractLsb', BitVec.getLsbD_extractLsb', h _ (by rw [Nat.mul_succ]; omega)]

/-- A word is known by its digits. -/
theorem digits_injective {x y : BitVec w} {m : Nat} (hx : x.toNat < 2 ^ (n * m)) (hy : y.toNat < 2 ^ (n * m))
    (h : digits n x m = digits n y m) : x = y := by
  have hbits : ∀ p, p < n * m → x.getLsbD p = y.getLsbD p := by
    clear hx hy
    induction m with
    | zero =>
      intro p hp
      omega
    | succ m ih =>
      intro p hp
      rw [digits, digits, List.cons.injEq] at h
      by_cases hlt : p < n * m
      · exact ih h.2 p hlt
      · rw [Nat.mul_succ] at hp
        have hdigit := congrArg (fun d => BitVec.getLsbD d (p - n * m)) h.1
        rwa [BitVec.getLsbD_extractLsb', BitVec.getLsbD_extractLsb', decide_eq_true (by omega), Bool.true_and,
          Bool.true_and, show n * m + (p - n * m) = p by omega] at hdigit
  apply BitVec.eq_of_getLsbD_eq
  intro p _
  by_cases hp : p < n * m
  · exact hbits p hp
  · rw [getLsbD_of_lt hx (by omega), getLsbD_of_lt hy (by omega)]

/-- Adding one makes the lowest digit that is not all ones grow, and the ones below it zero. -/
theorem digits_add_one (hn : 0 < n) (x : BitVec w) (m : Nat) (hm : n * m ≤ w) :
    ((∀ p, p < n * m → x.getLsbD p = true) ∧ digits n x m = List.replicate m (BitVec.allOnes n) ∧
        digits n (x + 1#w) m = List.replicate m 0) ∨
      ∃ as a t, (¬∀ p, p < n * m → x.getLsbD p = true) ∧ a ≠ BitVec.allOnes n ∧
        digits n x m = as ++ a :: List.replicate t (BitVec.allOnes n) ∧
        digits n (x + 1#w) m = as ++ (a + 1#n) :: List.replicate t 0 := by
  induction m with
  | zero => exact Or.inl ⟨by intro p hp; omega, rfl, rfl⟩
  | succ m ih =>
    rw [Nat.mul_succ] at hm ⊢
    have hbit : ∀ i, i < n → (x + 1#w).getLsbD (n * m + i) =
        (x.getLsbD (n * m + i) ^^ decide (∀ j, j < n * m + i → x.getLsbD j = true)) := by
      intro i hi
      exact getLsbD_add_one x (by omega)
    rcases ih (by omega) with ⟨hones, hx, hx1⟩ | ⟨as, a, t, hno, ha, hx, hx1⟩
    · have hdigit : (x + 1#w).extractLsb' (n * m) n = x.extractLsb' (n * m) n + 1#n := by
        apply BitVec.eq_of_getLsbD_eq
        intro i hi
        rw [getLsbD_add_one _ hi, BitVec.getLsbD_extractLsb', BitVec.getLsbD_extractLsb', decide_eq_true hi,
          Bool.true_and, Bool.true_and, hbit i hi]
        congr 1
        rw [decide_eq_decide]
        constructor
        · intro h j hj
          rw [BitVec.getLsbD_extractLsb', decide_eq_true (by omega), Bool.true_and]
          exact h _ (by omega)
        · intro h j hj
          by_cases hlow : j < n * m
          · exact hones j hlow
          · have := h (j - n * m) (by omega)
            rwa [BitVec.getLsbD_extractLsb', decide_eq_true (by omega), Bool.true_and,
              show n * m + (j - n * m) = j by omega] at this
      rw [digits, digits, hx, hx1, hdigit]
      by_cases htop : x.extractLsb' (n * m) n = BitVec.allOnes n
      · refine Or.inl ⟨?_, by rw [htop, List.replicate_succ], ?_⟩
        · intro p hp
          by_cases hlow : p < n * m
          · exact hones p hlow
          · have := congrArg (fun d => BitVec.getLsbD d (p - n * m)) htop
            rwa [BitVec.getLsbD_extractLsb', BitVec.getLsbD_allOnes, decide_eq_true (by omega), Bool.true_and,
              show n * m + (p - n * m) = p by omega] at this
        · rw [htop, List.replicate_succ]
          congr 1
          rw [← BitVec.neg_one_eq_allOnes]
          exact neg_add_cancel (1#n)
      · refine Or.inr ⟨[], _, m, ?_, htop, rfl, rfl⟩
        intro hall
        apply htop
        apply BitVec.eq_of_getLsbD_eq
        intro i hi
        rw [BitVec.getLsbD_extractLsb', BitVec.getLsbD_allOnes, decide_eq_true hi, hall _ (by omega)]
        rfl
    · have hdigit : (x + 1#w).extractLsb' (n * m) n = x.extractLsb' (n * m) n := by
        apply BitVec.eq_of_getLsbD_eq
        intro i hi
        have hno' : ¬∀ j, j < n * m + i → x.getLsbD j = true := by
          intro h
          exact hno fun p hp => h p (by omega)
        rw [BitVec.getLsbD_extractLsb', BitVec.getLsbD_extractLsb', hbit i hi, decide_eq_false hno', Bool.xor_false]
      refine Or.inr ⟨x.extractLsb' (n * m) n :: as, a, t, ?_, ha, ?_, ?_⟩
      · intro h
        exact hno fun p hp => h p (by omega)
      · rw [digits, hx, List.cons_append]
      · rw [digits, hx1, hdigit, List.cons_append]

theorem pack_append (ds : List (BitVec n)) (d : BitVec n) : pack w (ds ++ [d]) = pack w ds <<< n ||| d.setWidth w := by
  simp [pack]

theorem getLsbD_pack_concat (ds : List (BitVec n)) (d : BitVec n) (p : Nat) :
    (pack w (ds ++ [d])).getLsbD p =
      (decide (p < w) && if p < n then d.getLsbD p else (pack w ds).getLsbD (p - n)) := by
  rw [pack_append, BitVec.getLsbD_or, BitVec.getLsbD_shiftLeft, BitVec.getLsbD_setWidth]
  by_cases hp : p < n
  · simp [hp]
  · simp [hp, BitVec.getLsbD_of_ge d p (by omega)]

theorem pack_lt (ds : List (BitVec n)) : (pack w ds).toNat < 2 ^ (n * ds.length) := by
  apply lt_of_getLsbD
  induction ds using List.reverseRecOn with
  | nil => simp [pack]
  | append_singleton ds d ih =>
    intro p hp
    rw [List.length_append, List.length_singleton, Nat.mul_succ] at hp
    rw [getLsbD_pack_concat, if_neg (by omega), ih _ (by omega), Bool.and_false]

theorem digits_pack (ds : List (BitVec n)) (hw : n * ds.length ≤ w) : digits n (pack w ds) ds.length = ds := by
  induction ds using List.reverseRecOn with
  | nil => rfl
  | append_singleton ds d ih =>
    rw [List.length_append, List.length_singleton, Nat.mul_succ] at hw
    rw [List.length_append, List.length_singleton, digits_append, Nat.mul_one]
    congr 1
    · refine Eq.trans (digits_congr ?_) (ih (by omega))
      intro p hp
      rw [BitVec.getLsbD_ushiftRight, getLsbD_pack_concat, decide_eq_true (by omega), Bool.true_and, if_neg (by omega)]
      congr 1
      omega
    · rw [digits, digits]
      congr 1
      apply BitVec.eq_of_getLsbD_eq
      intro i hi
      rw [BitVec.getLsbD_extractLsb', getLsbD_pack_concat, decide_eq_true hi, Nat.mul_zero, Nat.zero_add, if_pos hi,
        decide_eq_true (by omega), Bool.true_and, Bool.true_and]

theorem pack_digits {x : BitVec w} {m : Nat} (hw : n * m ≤ w) (hx : x.toNat < 2 ^ (n * m)) :
    pack w (digits n x m) = x := by
  have hlt := pack_lt (w := w) (digits n x m)
  have hdigits := digits_pack (w := w) (digits n x m) (by rwa [length_digits])
  rw [length_digits] at hlt hdigits
  exact digits_injective hlt hx hdigits

/-! ## Sums without carry -/

theorem shiftXor_double (d : Nat) (x : BitVec w) : shiftXor d (shiftXor d x) = shiftXor (2 * d) x := by
  apply BitVec.eq_of_getLsbD_eq
  intro p _
  simp only [shiftXor, BitVec.getLsbD_xor, BitVec.getLsbD_ushiftRight]
  rw [show d + (d + p) = 2 * d + p by omega]
  cases x.getLsbD p <;> cases x.getLsbD (d + p) <;> cases x.getLsbD (2 * d + p) <;> rfl

theorem shiftXor_lt {d N : Nat} {x : BitVec w} (hx : x.toNat < 2 ^ N) : (shiftXor d x).toNat < 2 ^ N := by
  apply lt_of_getLsbD
  intro p hp
  rw [shiftXor, BitVec.getLsbD_xor, BitVec.getLsbD_ushiftRight, getLsbD_of_lt hx hp, getLsbD_of_lt hx (by omega),
    Bool.xor_false]

theorem shiftXor_of_le {d N : Nat} {x : BitVec w} (hx : x.toNat < 2 ^ N) (hd : N ≤ d) : shiftXor d x = x := by
  apply BitVec.eq_of_getLsbD_eq
  intro p _
  rw [shiftXor, BitVec.getLsbD_xor, BitVec.getLsbD_ushiftRight, getLsbD_of_lt (p := d + p) hx (by omega), Bool.xor_false]

theorem scan_lt {stop d N : Nat} {x : BitVec w} (hx : x.toNat < 2 ^ N) : (scan stop d x).toNat < 2 ^ N := by
  induction d, x using scan.induct stop with
  | case1 d x h ih =>
    rw [scan, if_pos h]
    exact ih (shiftXor_lt hx)
  | case2 d x h =>
    rw [scan, if_neg h]
    exact hx

/-- Doubling the distance undoes one step, as two steps are one of twice the distance. -/
theorem scan_shiftXor {stop d : Nat} {x : BitVec w} (hd : 0 < d) (hx : x.toNat < 2 ^ stop) :
    scan stop d (shiftXor d x) = x := by
  induction hk : stop - d using Nat.strong_induction_on generalizing d with
  | h k ih =>
    by_cases hlt : d < stop
    · rw [scan, if_pos ⟨hd, hlt⟩, shiftXor_double]
      exact ih (stop - 2 * d) (by omega) (by omega) rfl
    · rw [scan, if_neg (by omega)]
      exact shiftXor_of_le hx (by omega)

theorem shiftXor_injective {d N : Nat} {x y : BitVec w} (hd : 0 < d) (hx : x.toNat < 2 ^ N) (hy : y.toNat < 2 ^ N)
    (h : shiftXor d x = shiftXor d y) : x = y := by
  rw [← scan_shiftXor hd hx, h, scan_shiftXor hd hy]

theorem shiftXor_scan {stop d : Nat} {x : BitVec w} (hd : 0 < d) (hx : x.toNat < 2 ^ stop) :
    shiftXor d (scan stop d x) = x := by
  induction hk : stop - d using Nat.strong_induction_on generalizing d x with
  | h k ih =>
    by_cases hlt : d < stop
    · rw [scan, if_pos ⟨hd, hlt⟩]
      have hscan := ih (stop - 2 * d) (by omega) (d := 2 * d) (by omega) (shiftXor_lt (d := d) hx) rfl
      rw [← shiftXor_double] at hscan
      exact shiftXor_injective hd (shiftXor_lt (scan_lt (shiftXor_lt hx))) hx hscan
    · rw [scan, if_neg (by omega)]
      exact shiftXor_of_le hx (by omega)

theorem digits_eq_sums (y : BitVec w) (m : Nat) :
    digits n y m = sums (y.extractLsb' (n * m) n) (digits n (shiftXor n y) m) := by
  induction m with
  | zero => rfl
  | succ m ih =>
    have hdigit : y.extractLsb' (n * (m + 1)) n ^^^ (shiftXor n y).extractLsb' (n * m) n = y.extractLsb' (n * m) n := by
      apply BitVec.eq_of_getLsbD_eq
      intro i hi
      simp only [BitVec.getLsbD_xor, BitVec.getLsbD_extractLsb', shiftXor, BitVec.getLsbD_ushiftRight, hi, decide_true,
        Bool.true_and]
      rw [show n + (n * m + i) = n * (m + 1) + i by rw [Nat.mul_succ]; omega]
      cases y.getLsbD (n * (m + 1) + i) <;> cases y.getLsbD (n * m + i) <;> rfl
    rw [digits, digits, sums, hdigit, ← ih]

/-- The digits after the loop are the sums of the digits before it. -/
theorem digits_scan {m : Nat} {x : BitVec w} (hn : 0 < n) (hx : x.toNat < 2 ^ (n * m)) :
    digits n (scan (n * m) n x) m = sums 0 (digits n x m) := by
  have htop : (scan (n * m) n x).extractLsb' (n * m) n = 0 := by
    apply BitVec.eq_of_getLsbD_eq
    intro i hi
    rw [BitVec.getLsbD_extractLsb', getLsbD_of_lt (scan_lt hx) (by omega), Bool.and_false]
    simp
  rw [digits_eq_sums, htop, shiftXor_scan hn hx]

/-! ## Every n-th bit -/

theorem repunit_mul (n m : Nat) : repunit n m * (2 ^ n - 1) = 2 ^ (n * m) - 1 := by
  induction m with
  | zero => simp [repunit]
  | succ m ih =>
    rw [repunit, Nat.add_mul, ih, Nat.mul_succ, Nat.pow_add, Nat.mul_sub, Nat.mul_one]
    have h1 : 2 ^ (n * m) ≤ 2 ^ (n * m) * 2 ^ n := Nat.le_mul_of_pos_right _ (by positivity)
    have h2 : 1 ≤ 2 ^ (n * m) := Nat.one_le_two_pow
    omega

theorem repunit_lt (hn : 0 < n) (m : Nat) : repunit n m < 2 ^ (n * m) := by
  have hmul := repunit_mul n m
  have htwo : 2 ≤ 2 ^ n := Nat.le_self_pow (by omega) 2
  have hle : repunit n m ≤ repunit n m * (2 ^ n - 1) := Nat.le_mul_of_pos_right _ (by omega)
  have : 0 < 2 ^ (n * m) := by positivity
  omega

theorem testBit_repunit (hn : 0 < n) (m p : Nat) : (repunit n m).testBit p = true ↔ ∃ k, k < m ∧ p = n * k := by
  induction m with
  | zero => simp [repunit]
  | succ m ih =>
    have hlt := repunit_lt hn m
    rw [repunit]
    have hor : 2 ^ (n * m) + repunit n m = 2 ^ (n * m) ||| repunit n m := by
      have := Nat.two_pow_add_eq_or_of_lt hlt 1
      rwa [Nat.mul_one] at this
    rw [hor, Nat.testBit_or, Bool.or_eq_true, ih, Nat.testBit_two_pow]
    constructor
    · intro h
      rcases h with h | ⟨k, hk, hp⟩
      · exact ⟨m, by omega, (of_decide_eq_true h).symm⟩
      · exact ⟨k, by omega, hp⟩
    · intro ⟨k, hk, hp⟩
      by_cases hkm : k = m
      · exact Or.inl (decide_eq_true (by rw [hp, hkm]))
      · exact Or.inr ⟨k, by omega, hp⟩

end WordDigits
