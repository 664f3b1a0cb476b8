import Mathlib

/-!
# Matrices of bits in a word

The rows of a matrix lie one after the other in a word, and its transpose lies
in another one. A word is also cut into blocks of rows, of which each place has
one block, one row of it and one column.
-/
namespace BitMatrix

variable {w : Nat}

/-- The words `f 0` to `f (k - 1)` over each other. -/
def orOver (k : Nat) (f : Nat → BitVec w) : BitVec w := (List.range k).foldl (fun acc d => acc ||| f d) 0

/-- `y` is the matrix of `m` rows of `n` bits whose columns are the `n` rows of `m` bits of `x`. -/
def IsTranspose (n m : Nat) (x y : BitVec w) : Prop :=
  ∀ p, y.getLsbD p = true ↔ ∃ d b, d < n ∧ b < m ∧ p = n * b + d ∧ x.getLsbD (m * d + b) = true

/-- Blocks of `B` places from the starts in `S` on, all below `m` and none over another. -/
structure Blocks (m B : Nat) (S : Nat → Prop) : Prop where
  fits : ∀ β, S β → β + B ≤ m
  apart : ∀ β β', S β → S β' → β < β' → β + B ≤ β'

/-- The starts after each block is cut in two. -/
def halves (S : Nat → Prop) (U β : Nat) : Prop := S β ∨ ∃ β', S β' ∧ β = β' + U

/-! ## Words over each other -/

theorem orOver_succ (k : Nat) (f : Nat → BitVec w) : orOver (k + 1) f = orOver k f ||| f k := by
  simp [orOver, List.range_succ]

theorem getLsbD_orOver (k : Nat) (f : Nat → BitVec w) (p : Nat) :
    (orOver k f).getLsbD p = true ↔ ∃ d, d < k ∧ (f d).getLsbD p = true := by
  induction k with
  | zero => simp [orOver]
  | succ k ih =>
    rw [orOver_succ, BitVec.getLsbD_or, Bool.or_eq_true, ih]
    constructor
    · intro h
      rcases h with ⟨d, hd, h⟩ | h
      · exact ⟨d, by omega, h⟩
      · exact ⟨k, by omega, h⟩
    · intro ⟨d, hd, h⟩
      by_cases hk : d = k
      · exact Or.inr (hk ▸ h)
      · exact Or.inl ⟨d, by omega, h⟩

/-! ## Places -/

theorem place_lt {n m d b : Nat} (hd : d < n) (hb : b < m) : n * b + d < n * m :=
  calc n * b + d < n * b + n := Nat.add_lt_add_left hd _
    _ = n * (b + 1) := (Nat.mul_succ n b).symm
    _ ≤ n * m := Nat.mul_le_mul_left n hb

theorem place_unique {n d d' b b' : Nat} (hd : d < n) (hd' : d' < n) (h : n * b + d = n * b' + d') :
    b = b' ∧ d = d' := by
  have hn : 0 < n := by omega
  have hb : (n * b + d) / n = b := by rw [Nat.mul_add_div hn, Nat.div_eq_of_lt hd, Nat.add_zero]
  have hb' : (n * b' + d') / n = b' := by rw [Nat.mul_add_div hn, Nat.div_eq_of_lt hd', Nat.add_zero]
  have hbb : b = b' := by rw [← hb, h, hb']
  exact ⟨hbb, by rw [hbb] at h; omega⟩

theorem IsTranspose.unique {n m : Nat} {x y y' : BitVec w} (h : IsTranspose n m x y) (h' : IsTranspose n m x y') :
    y = y' := by
  apply BitVec.eq_of_getLsbD_eq
  intro p _
  rw [Bool.eq_iff_iff, h p, h' p]

theorem IsTranspose.place {n m d b : Nat} {x y : BitVec w} (h : IsTranspose n m x y) (hd : d < n) (hb : b < m) :
    y.getLsbD (n * b + d) = x.getLsbD (m * d + b) := by
  rw [Bool.eq_iff_iff, h]
  constructor
  · intro ⟨d', b', hd', _, hp, hx⟩
    obtain ⟨rfl, rfl⟩ := place_unique hd hd' hp
    exact hx
  · intro hx
    exact ⟨d, b, hd, hb, rfl, hx⟩

/-- The transpose of the transpose is the matrix. -/
theorem IsTranspose.symm {n m : Nat} {x y : BitVec w} (h : IsTranspose n m x y) (hx : x.toNat < 2 ^ (n * m)) :
    IsTranspose m n y x := by
  intro p
  constructor
  · intro hp
    have hlt : p < n * m := by
      by_contra hge
      rw [BitVec.getLsbD, Nat.testBit_lt_two_pow (lt_of_lt_of_le hx (Nat.pow_le_pow_right (by decide) (not_lt.mp hge)))] at hp
      cases hp
    have hm : 0 < m := Nat.pos_of_ne_zero (by rintro rfl; omega)
    have hmod : p % m < m := Nat.mod_lt _ hm
    have hdiv : p / m < n := by rwa [Nat.div_lt_iff_lt_mul hm]
    refine ⟨p % m, p / m, hmod, hdiv, (Nat.div_add_mod p m).symm, ?_⟩
    rw [h.place hdiv hmod, Nat.div_add_mod]
    exact hp
  · intro ⟨b, d, hb, hd, hp, hy⟩
    rw [hp, ← h.place hd hb]
    exact hy

theorem IsTranspose.lt {n m : Nat} {x y : BitVec w} (h : IsTranspose n m x y) : y.toNat < 2 ^ (n * m) := by
  apply Nat.lt_pow_two_of_testBit
  intro p hp
  by_contra hbit
  obtain ⟨d, b, hd, hb, rfl, _⟩ := (h p).mp ((Bool.not_eq_false _).mp hbit)
  have := place_lt hd hb
  omega

/-! ## Blocks -/

section Blocks
variable {n m B U : Nat} {S : Nat → Prop}

theorem blocks_single (m : Nat) : Blocks m m (· = 0) := by
  constructor
  · intro β h
    omega
  · intro β β' h h'
    omega

/-- A place has one block, and one place in it. -/
theorem Blocks.unique (h : Blocks m B S) {β β' e e' : Nat} (hβ : S β) (hβ' : S β') (he : e < n * B) (he' : e' < n * B)
    (hp : n * β + e = n * β' + e') : β = β' ∧ e = e' := by
  have hno : ∀ β β' e e', S β → S β' → e < n * B → n * β + e = n * β' + e' → ¬ β < β' := by
    intro β β' e e' hβ hβ' he hp hlt
    have hle := Nat.mul_le_mul_left n (h.apart β β' hβ hβ' hlt)
    rw [Nat.mul_add] at hle
    omega
  have hββ : β = β' := le_antisymm (not_lt.mp (hno β' β e' e hβ' hβ he' hp.symm)) (not_lt.mp (hno β β' e e' hβ hβ' he hp))
  exact ⟨hββ, by rw [hββ] at hp; omega⟩

theorem Blocks.halves (h : Blocks m B S) (hU : 2 * U ≤ B) : Blocks m U (halves S U) := by
  constructor
  · intro β hβ
    rcases hβ with hβ | ⟨β', hβ', rfl⟩
    · have := h.fits β hβ
      omega
    · have := h.fits β' hβ'
      omega
  · intro β β' hβ hβ' hlt
    rcases hβ with hβ | ⟨γ, hγ, rfl⟩ <;> rcases hβ' with hβ' | ⟨γ', hγ', rfl⟩
    · have := h.apart β β' hβ hβ' hlt
      omega
    · by_cases hle : β ≤ γ'
      · omega
      · have := h.apart γ' β hγ' hβ (by omega)
        omega
    · have := h.apart γ β' hγ hβ' (by omega)
      omega
    · have := h.apart γ γ' hγ hγ' (by omega)
      omega

/-- The places of the halves are those of the blocks, less the last one of a block of odd size. -/
theorem exists_halves (U b : Nat) :
    (∃ β, BitMatrix.halves S U β ∧ β ≤ b ∧ b < β + U) ↔ ∃ β, S β ∧ β ≤ b ∧ b < β + 2 * U := by
  constructor
  · intro ⟨β, hβ, hle, hlt⟩
    rcases hβ with hβ | ⟨β', hβ', rfl⟩
    · exact ⟨β, hβ, hle, by omega⟩
    · exact ⟨β', hβ', by omega, by omega⟩
  · intro ⟨β, hβ, hle, hlt⟩
    by_cases hU : b < β + U
    · exact ⟨β, Or.inl hβ, hle, hU⟩
    · exact ⟨β + U, Or.inr ⟨β, hβ, rfl⟩, by omega, by omega⟩

end Blocks

/-! ## Masks -/

section Mask
variable {F : Nat → Prop} {U : Nat}

/-- The carries of a mask to which the ends of its fields are added. -/
theorem carry_mask {z e : BitVec w} (hU : 0 < U)
    (hz : ∀ q, q < w → (z.getLsbD q = true ↔ ∃ p, F p ∧ p ≤ q ∧ q < p + U))
    (he : ∀ q, q < w → (e.getLsbD q = true ↔ F q)) (q : Nat) (hq : q ≤ w) :
    BitVec.carry q z e false = true ↔ ∃ p, F p ∧ p < q ∧ q ≤ p + U := by
  induction q with
  | zero => simp
  | succ q ih =>
    rw [BitVec.carry_succ, Bool.atLeastTwo]
    simp only [Bool.or_eq_true, Bool.and_eq_true, hz q (by omega), he q (by omega), ih (by omega)]
    constructor
    · intro h
      rcases h with (⟨⟨p, hp, hle, hlt⟩, _⟩ | ⟨⟨p, hp, hle, hlt⟩, _⟩) | ⟨hq, _⟩
      · exact ⟨p, hp, by omega, by omega⟩
      · exact ⟨p, hp, by omega, by omega⟩
      · exact ⟨q, hq, by omega, by omega⟩
    · intro ⟨p, hp, hlt, hle⟩
      by_cases hpq : p = q
      · exact Or.inl (Or.inl ⟨⟨p, hp, by omega, by omega⟩, hpq ▸ hp⟩)
      · exact Or.inl (Or.inr ⟨⟨p, hp, by omega, by omega⟩, ⟨p, hp, by omega, by omega⟩⟩)

/-- The ends of the fields, moved up by their length and taken off, leave the fields. -/
theorem getLsbD_mask {e : BitVec w} (hU : 0 < U) (he : ∀ q, q < w → (e.getLsbD q = true ↔ F q))
    (hapart : ∀ p p', F p → F p' → p < p' → p + U ≤ p') {q : Nat} (hq : q < w) :
    (e <<< U - e).getLsbD q = true ↔ ∃ p, F p ∧ p ≤ q ∧ q < p + U := by
  classical
  let z : BitVec w := BitVec.ofFnLE fun i => decide (∃ p, F p ∧ p ≤ i.val ∧ i.val < p + U)
  have hz : ∀ q, q < w → (z.getLsbD q = true ↔ ∃ p, F p ∧ p ≤ q ∧ q < p + U) := by
    intro q hq
    rw [BitVec.getLsbD_eq_getElem hq, BitVec.getElem_ofFnLE]
    simp
  suffices hsum : e <<< U - e = z by rw [hsum, hz q hq]
  rw [sub_eq_iff_eq_add]
  apply BitVec.eq_of_getLsbD_eq
  intro q hq
  rw [BitVec.getLsbD_add hq, BitVec.getLsbD_shiftLeft, decide_eq_true hq, Bool.true_and]
  have hcarry := carry_mask hU hz he q hq.le
  have hzq := hz q hq
  have heq := he q hq
  have hshift : (!decide (q < U) && e.getLsbD (q - U)) = true ↔ ∃ p, F p ∧ q = p + U := by
    rw [Bool.and_eq_true, Bool.not_eq_true', decide_eq_false_iff_not, he _ (by omega)]
    constructor
    · intro ⟨hle, hF⟩
      exact ⟨q - U, hF, by omega⟩
    · intro ⟨p, hF, hp⟩
      exact ⟨by omega, by rwa [show q - U = p by omega]⟩
  by_cases hFq : F q
  · -- `q` is the end of a field, so a carry into it comes from the field right below
    have hz1 : z.getLsbD q = true := hzq.mpr ⟨q, hFq, by omega, by omega⟩
    rw [hz1, heq.mpr hFq, Bool.eq_iff_iff, hshift]
    simp only [Bool.true_xor, Bool.not_not, hcarry]
    constructor
    · intro ⟨p, hp, hq⟩
      exact ⟨p, hp, by omega, by omega⟩
    · intro ⟨p, hp, hlt, hle⟩
      have := hapart p q hp hFq hlt
      exact ⟨p, hp, by omega⟩
  · have he0 : e.getLsbD q = false := by rw [← Bool.not_eq_true, heq]; exact hFq
    rw [he0, Bool.false_xor, Bool.eq_iff_iff, hshift]
    by_cases hmask : z.getLsbD q = true
    · obtain ⟨p, hp, hle, hlt⟩ := hzq.mp hmask
      have hne : p ≠ q := by rintro rfl; exact hFq hp
      rw [hmask, hcarry.mpr ⟨p, hp, by omega, by omega⟩]
      simp only [Bool.xor_self, Bool.false_eq_true, iff_false]
      intro ⟨p', hp', hq'⟩
      have := hapart p' p hp' hp (by omega)
      omega
    · rw [(Bool.not_eq_true _).mp hmask, Bool.false_xor, hcarry]
      constructor
      · intro ⟨p, hp, hq'⟩
        exact ⟨p, hp, by omega, by omega⟩
      · intro ⟨p, hp, hlt, hle⟩
        by_cases hend : q = p + U
        · exact ⟨p, hp, hend⟩
        · exact absurd (hzq.mpr ⟨p, hp, by omega, by omega⟩) hmask

end Mask

end BitMatrix
