import DataspacesWa.BitMatrix

/-!
# Bit transposition

`bitTranspose` takes the rows of a matrix of bits to its columns. The branch that
is compiled halves the length of the fields until they have one bit, and sets
the odd bit at the top of a field aside; the other branch goes bit by bit.
-/
namespace BitTranspose

open BitMatrix

/-- `bitmask_t`, and `halfmask_t` where `unsigned long` has 64 bits. -/
abbrev Bitmask := BitVec 64

/-! ## The source -/

def ones (k : Nat) : Bitmask := (2 : Bitmask) <<< (k - 1) - 1

def rdbit (w : Bitmask) (k : Nat) : Bitmask := w >>> k &&& 1

/-- The variables of the loop over `inB`. -/
structure Halving where
  inB : Nat
  inFieldEnds : Bitmask
  inMask : Bitmask
  inCoords : Bitmask
  coords : Bitmask
  deriving DecidableEq, Repr

/-- `(in | (in << shiftAmt)) & utMask` -/
def spread (shiftAmt : Nat) (utMask field : Bitmask) : Bitmask := (field ||| field <<< shiftAmt) &&& utMask

/-- One field where `inB` is even, with `inCoords` and `utCoords`. -/
def evenField (inB utB shiftAmt : Nat) (inMask utMask : Bitmask) (s : Bitmask × Bitmask) (d : Nat) :
    Bitmask × Bitmask :=
  let field := s.1 &&& inMask
  (s.1 >>> inB, s.2 ||| spread shiftAmt utMask field <<< (d * utB))

/-- One field where `inB` is odd, with `inCoords`, `coords` and `utCoords`. -/
def oddField (inB utB shiftAmt : Nat) (inFieldStarts inMask utMask : Bitmask) (s : Bitmask × Bitmask × Bitmask)
    (d : Nat) : Bitmask × Bitmask × Bitmask :=
  let field := s.1 &&& inMask
  (s.1 >>> inB, s.2.1 ||| (field &&& inFieldStarts) <<< (2 * shiftAmt + d),
    s.2.2 ||| spread shiftAmt utMask (field &&& ~~~inFieldStarts) <<< (d * utB))

/-- The body of the loop over `inB`. -/
def halve (nDims : Nat) (t : Halving) : Halving :=
  let utB := t.inB / 2
  let shiftAmt := (nDims - 1) * utB
  let utFieldEnds := t.inFieldEnds ||| t.inFieldEnds <<< (shiftAmt + utB)
  let utMask := utFieldEnds <<< utB - utFieldEnds
  if t.inB % 2 = 1 then
    let inFieldStarts := t.inFieldEnds <<< (t.inB - 1)
    let s := (List.range nDims).foldl (oddField t.inB utB shiftAmt inFieldStarts t.inMask utMask)
      (t.inCoords, t.coords, 0)
    ⟨utB, utFieldEnds, utMask, s.2.2, s.2.1⟩
  else
    let s := (List.range nDims).foldl (evenField t.inB utB shiftAmt t.inMask utMask) (t.inCoords, 0)
    ⟨utB, utFieldEnds, utMask, s.2, t.coords⟩

@[simp] theorem halve_inB (nDims : Nat) (t : Halving) : (halve nDims t).inB = t.inB / 2 := by
  rw [halve]
  split <;> rfl

def halvings (nDims : Nat) (t : Halving) : Bitmask :=
  if t.inB / 2 = 0 then t.coords ||| t.inCoords else halvings nDims (halve nDims t)
termination_by t.inB
decreasing_by
  rw [halve_inB]
  omega

/-- `bitTranspose`, the branch `DLOGB_BIT_TRANSPOSE` -/
def bitTranspose (nDims nBits : Nat) (inCoords : Bitmask) : Bitmask :=
  halvings nDims ⟨nBits, 1, ones nBits, inCoords, 0⟩

/-- The bits of a field from the top down, `nDims` places apart. -/
def bitByBit (nDims : Nat) (field : Bitmask) : Nat → Bitmask → Bitmask
  | 0, out => out
  | b + 1, out => bitByBit nDims field b (out <<< nDims ||| rdbit field b)

/-- One field, with `inCoords` and `coords`. -/
def plainField (nDims nBits : Nat) (s : Bitmask × Bitmask) (d : Nat) : Bitmask × Bitmask :=
  (s.1 >>> nBits, s.2 ||| bitByBit nDims (s.1 &&& ones nBits) nBits 0 <<< d)

/-- `bitTranspose`, the other branch -/
def plainTranspose (nDims nBits : Nat) (inCoords : Bitmask) : Bitmask :=
  ((List.range nDims).foldl (plainField nDims nBits) (inCoords, 0)).2

/-! ## Masks -/

theorem getLsbD_ones {k : Nat} (hk : 0 < k) (p : Nat) (hp : p < 64) : (ones k).getLsbD p = true ↔ p < k := by
  have hones : ones k = (1 : Bitmask) <<< k - 1 := by
    rw [ones, show (2 : Bitmask) = (1 : Bitmask) <<< 1 by rfl, ← BitVec.shiftLeft_add, show 1 + (k - 1) = k by omega]
  have hone : ∀ q, q < 64 → ((1 : Bitmask).getLsbD q = true ↔ q = 0) := by
    intro q _
    simp
  rw [hones, getLsbD_mask hk hone (by intros; omega) hp]
  constructor
  · intro ⟨p', hp', _, hlt⟩
    omega
  · intro hlt
    exact ⟨0, rfl, by omega, by omega⟩

/-! ## The loops over the fields -/

theorem evenFields_eq (inB utB shiftAmt k : Nat) (inMask utMask x : Bitmask) :
    (List.range k).foldl (evenField inB utB shiftAmt inMask utMask) (x, 0) =
      (x >>> (k * inB), orOver k fun d => spread shiftAmt utMask (x >>> (d * inB) &&& inMask) <<< (d * utB)) := by
  induction k with
  | zero => simp [orOver]
  | succ k ih =>
    rw [List.range_succ, List.foldl_append, ih, orOver_succ]
    simp only [List.foldl_cons, List.foldl_nil, evenField, ← BitVec.shiftRight_add, Nat.succ_mul]

theorem oddFields_eq (inB utB shiftAmt k : Nat) (inFieldStarts inMask utMask x coords : Bitmask) :
    (List.range k).foldl (oddField inB utB shiftAmt inFieldStarts inMask utMask) (x, coords, 0) =
      (x >>> (k * inB),
        coords ||| orOver k (fun d => (x >>> (d * inB) &&& inMask &&& inFieldStarts) <<< (2 * shiftAmt + d)),
        orOver k fun d => spread shiftAmt utMask (x >>> (d * inB) &&& inMask &&& ~~~inFieldStarts) <<< (d * utB)) := by
  induction k with
  | zero => simp [orOver]
  | succ k ih =>
    rw [List.range_succ, List.foldl_append, ih, orOver_succ, orOver_succ]
    simp only [List.foldl_cons, List.foldl_nil, oddField, ← BitVec.shiftRight_add, Nat.succ_mul, BitVec.or_assoc]

/-! ## One halving -/

/-- The bits of `x` as they lie before a halving: in blocks, and those set aside. -/
structure Layout (n m : Nat) (x : Bitmask) (S : Nat → Prop) (t : Halving) : Prop where
  pos : 0 < t.inB
  blocks : Blocks m t.inB S
  ends : ∀ p, p < 64 → (t.inFieldEnds.getLsbD p = true ↔ ∃ β, S β ∧ p = n * β)
  mask : ∀ p, p < 64 → (t.inMask.getLsbD p = true ↔ ∃ β j, S β ∧ j < t.inB ∧ p = n * β + j)
  fields : ∀ β d j, S β → d < n → j < t.inB →
    t.inCoords.getLsbD (n * β + (t.inB * d + j)) = x.getLsbD (m * d + (β + j))
  aside : ∀ p, t.coords.getLsbD p = true ↔ ∃ d b, d < n ∧ b < m ∧ (¬∃ β, S β ∧ β ≤ b ∧ b < β + t.inB) ∧
    p = n * b + d ∧ x.getLsbD (m * d + b) = true

/-- `inCoords` has no bits outside of the blocks. -/
def Inside (n : Nat) (S : Nat → Prop) (t : Halving) : Prop :=
  ∀ p, t.inCoords.getLsbD p = true → ∃ β d j, S β ∧ d < n ∧ j < t.inB ∧ p = n * β + (t.inB * d + j)

section
variable {n m : Nat} {x : Bitmask} {S : Nat → Prop} {t : Halving}

theorem Layout.field (h : Layout n m x S t) (hnm : n * m ≤ 64) {d : Nat} (hd : d < n) (p : Nat) :
    (t.inCoords >>> (d * t.inB) &&& t.inMask).getLsbD p = true ↔
      ∃ β j, S β ∧ j < t.inB ∧ p = n * β + j ∧ x.getLsbD (m * d + (β + j)) = true := by
  rw [BitVec.getLsbD_and, Bool.and_eq_true, BitVec.getLsbD_ushiftRight]
  constructor
  · intro ⟨hx, hp⟩
    obtain ⟨β, j, hβ, hj, rfl⟩ := (h.mask p (BitVec.lt_of_getLsbD hp)).mp hp
    refine ⟨β, j, hβ, hj, rfl, ?_⟩
    rw [← h.fields β d j hβ hd hj, ← hx]
    congr 1
    rw [Nat.mul_comm d]
    omega
  · intro ⟨β, j, hβ, hj, hp, hx⟩
    have hfit := h.blocks.fits β hβ
    have hlt : p < 64 := by
      have := place_lt (n := n) (m := m) (d := 0) (b := β + j) (by omega) (by omega)
      have hle : β + j ≤ n * β + j := Nat.add_le_add_right (Nat.le_mul_of_pos_left β (by omega)) j
      have hmul : n * (β + j) = n * β + n * j := Nat.mul_add n β j
      have hj' : j ≤ n * j := Nat.le_mul_of_pos_left j (by omega)
      omega
    refine ⟨?_, (h.mask p hlt).mpr ⟨β, j, hβ, hj, hp⟩⟩
    rw [← hx, ← h.fields β d j hβ hd hj, hp]
    congr 1
    rw [Nat.mul_comm d]
    omega

/-- A field whose bits are those of `Y` is spread over the two halves of each block. -/
theorem getLsbD_spread {B U : Nat} (hblocks : Blocks m B S) (hU : 2 * U ≤ B) (hn : 2 ≤ n) (hnm : n * m ≤ 64)
    {Y : Nat → Prop} {field utMask : Bitmask}
    (hfield : ∀ p, field.getLsbD p = true ↔ ∃ β j, S β ∧ j < 2 * U ∧ p = n * β + j ∧ Y (β + j))
    (hmask : ∀ p, p < 64 → (utMask.getLsbD p = true ↔ ∃ β j, halves S U β ∧ j < U ∧ p = n * β + j)) (p : Nat) :
    (spread ((n - 1) * U) utMask field).getLsbD p = true ↔
      ∃ β j, halves S U β ∧ j < U ∧ p = n * β + j ∧ Y (β + j) := by
  have hshift : (n - 1) * U + U = n * U := by
    rw [← Nat.succ_mul]
    congr 1
    omega
  have hUn : 2 * U ≤ n * U := Nat.mul_le_mul_right U hn
  have hBn : n * (2 * U) ≤ n * B := Nat.mul_le_mul_left n hU
  have hUU : n * (2 * U) = n * U + n * U := by ring
  rw [spread, BitVec.getLsbD_and, Bool.and_eq_true, BitVec.getLsbD_or, Bool.or_eq_true, BitVec.getLsbD_shiftLeft,
    Bool.and_eq_true, Bool.and_eq_true, Bool.not_eq_true', decide_eq_true_eq, decide_eq_false_iff_not, hfield, hfield]
  constructor
  · intro ⟨hbit, hp⟩
    have hp64 := BitVec.lt_of_getLsbD hp
    obtain ⟨β', j, hβ', hj, rfl⟩ := (hmask p hp64).mp hp
    refine ⟨β', j, hβ', hj, rfl, ?_⟩
    rcases hβ' with hβ | ⟨β, hβ, rfl⟩
    · rcases hbit with ⟨γ, i, hγ, hi, hp, hY⟩ | ⟨⟨_, hge⟩, γ, i, hγ, hi, hp, _⟩
      · obtain ⟨rfl, rfl⟩ := hblocks.unique hβ hγ (by omega) (by omega) hp
        exact hY
      · have := (hblocks.unique (n := n) hβ hγ (show j < n * B by omega) (show (n - 1) * U + i < n * B by omega) (by omega)).2
        omega
    · rw [Nat.mul_add] at hbit
      rcases hbit with ⟨γ, i, hγ, hi, hp, _⟩ | ⟨⟨_, hge⟩, γ, i, hγ, hi, hp, hY⟩
      · have := (hblocks.unique (n := n) hβ hγ (show n * U + j < n * B by omega) (show i < n * B by omega) (by omega)).2
        omega
      · obtain ⟨rfl, he⟩ :=
          hblocks.unique (n := n) hβ hγ (show n * U + j < n * B by omega) (show (n - 1) * U + i < n * B by omega) (by omega)
        rwa [Nat.add_assoc, show U + j = i by omega]
  · intro ⟨β', j, hβ', hj, hp, hY⟩
    have hp64 : p < 64 := by
      have hfit := (hblocks.halves hU).fits β' hβ'
      have := Nat.mul_le_mul_left n hfit
      rw [Nat.mul_add] at this
      omega
    refine ⟨?_, (hmask p hp64).mpr ⟨β', j, hβ', hj, hp⟩⟩
    rcases hβ' with hβ | ⟨β, hβ, rfl⟩
    · exact Or.inl ⟨β', j, hβ, by omega, hp, hY⟩
    · rw [Nat.mul_add] at hp
      exact Or.inr ⟨⟨hp64, by omega⟩, β, U + j, hβ, by omega, by omega, by rwa [← Nat.add_assoc]⟩

/-- The ends of the fields after a halving, and the mask of the fields. -/
theorem Layout.utMask (h : Layout n m x S t) (hB : 2 ≤ t.inB) (hn : 2 ≤ n) :
    let utB := t.inB / 2
    let utFieldEnds := t.inFieldEnds ||| t.inFieldEnds <<< ((n - 1) * utB + utB)
    (∀ p, p < 64 → (utFieldEnds.getLsbD p = true ↔ ∃ β, halves S utB β ∧ p = n * β)) ∧
      ∀ p, p < 64 → ((utFieldEnds <<< utB - utFieldEnds).getLsbD p = true ↔
        ∃ β j, halves S utB β ∧ j < utB ∧ p = n * β + j) := by
  intro utB utFieldEnds
  have hutB : 0 < utB := by omega
  have hblocks := h.blocks.halves (U := utB) (by omega)
  have hends : ∀ p, p < 64 → (utFieldEnds.getLsbD p = true ↔ ∃ β, halves S utB β ∧ p = n * β) := by
    intro p hp
    have hshift : (n - 1) * utB + utB = n * utB := by
      rw [← Nat.succ_mul]
      congr 1
      omega
    rw [BitVec.getLsbD_or, Bool.or_eq_true, h.ends p hp, BitVec.getLsbD_shiftLeft, Bool.and_eq_true, Bool.and_eq_true,
      h.ends _ (by omega), hshift, Bool.not_eq_true', decide_eq_false_iff_not, decide_eq_true_eq]
    constructor
    · intro hp
      rcases hp with ⟨β, hβ, rfl⟩ | ⟨⟨_, hge⟩, β, hβ, hp⟩
      · exact ⟨β, Or.inl hβ, rfl⟩
      · exact ⟨β + utB, Or.inr ⟨β, hβ, rfl⟩, by rw [Nat.mul_add]; omega⟩
    · intro ⟨β, hβ, hp⟩
      rcases hβ with hβ | ⟨β', hβ', rfl⟩
      · exact Or.inl ⟨β, hβ, hp⟩
      · rw [Nat.mul_add] at hp
        exact Or.inr ⟨⟨‹_›, by omega⟩, β', hβ', by omega⟩
  refine ⟨hends, ?_⟩
  intro p hp
  have hapart : ∀ q q', (∃ β, halves S utB β ∧ q = n * β) → (∃ β, halves S utB β ∧ q' = n * β) → q < q' →
      q + utB ≤ q' := by
    rintro _ _ ⟨β, hβ, rfl⟩ ⟨β', hβ', rfl⟩ hlt
    have hle := hblocks.apart β β' hβ hβ' (Nat.lt_of_mul_lt_mul_left hlt)
    have hmul := Nat.mul_le_mul_left n hle
    have : utB ≤ n * utB := Nat.le_mul_of_pos_left utB (by omega)
    rw [Nat.mul_add] at hmul
    omega
  rw [getLsbD_mask hutB hends hapart hp]
  constructor
  · rintro ⟨_, ⟨β, hβ, rfl⟩, hle, hlt⟩
    exact ⟨β, p - n * β, hβ, by omega, by omega⟩
  · rintro ⟨β, j, hβ, hj, rfl⟩
    exact ⟨n * β, ⟨β, hβ, rfl⟩, by omega, by omega⟩

theorem Blocks.last {U β β' : Nat} (h : Blocks m (2 * U + 1) S) (hβ : S β) (hβ' : S β') (hle : β' ≤ β + 2 * U)
    (hlt : β + 2 * U < β' + 2 * U) : False := by
  by_cases hcmp : β < β'
  · have := h.apart β β' hβ hβ' hcmp
    omega
  · omega

/-- The fields put beside each other, each with the halves of its blocks. -/
theorem getLsbD_fields {U : Nat} (hblocks : Blocks m U S) (hnm : n * m ≤ 64) {field : Nat → Bitmask}
    (hfield : ∀ d, d < n → ∀ p, (field d).getLsbD p = true ↔
      ∃ β j, S β ∧ j < U ∧ p = n * β + j ∧ x.getLsbD (m * d + (β + j)) = true) (p : Nat) :
    (orOver n fun d => field d <<< (d * U)).getLsbD p = true ↔
      ∃ β d j, S β ∧ d < n ∧ j < U ∧ p = n * β + (U * d + j) ∧ x.getLsbD (m * d + (β + j)) = true := by
  rw [getLsbD_orOver]
  constructor
  · intro ⟨d, hd, hp⟩
    rw [BitVec.getLsbD_shiftLeft, Bool.and_eq_true, Bool.and_eq_true, Bool.not_eq_true', decide_eq_false_iff_not] at hp
    obtain ⟨⟨_, hge⟩, hp⟩ := hp
    obtain ⟨β, j, hβ, hj, hpj, hx⟩ := (hfield d hd _).mp hp
    rw [Nat.mul_comm d] at hge hpj
    exact ⟨β, d, j, hβ, hd, hj, by omega, hx⟩
  · intro ⟨β, d, j, hβ, hd, hj, hp, hx⟩
    refine ⟨d, hd, ?_⟩
    have hfit := Nat.mul_le_mul_left n (hblocks.fits β hβ)
    have hplace := place_lt (n := U) (m := n) hj hd
    rw [Nat.mul_add] at hfit
    rw [Nat.mul_comm U n] at hplace
    have hlt : p < 64 := by omega
    rw [BitVec.getLsbD_shiftLeft, Bool.and_eq_true, Bool.and_eq_true, Bool.not_eq_true', decide_eq_false_iff_not,
      decide_eq_true_eq, Nat.mul_comm d]
    exact ⟨⟨hlt, by omega⟩, (hfield d hd _).mpr ⟨β, j, hβ, hj, by omega, hx⟩⟩

/-- What a halving makes of the layout, given where it puts the fields and what it sets aside. -/
theorem Layout.halved {t' : Halving} {U : Nat} (h : Layout n m x S t) (hU : 0 < U) (hUB : 2 * U ≤ t.inB)
    (hinB : t'.inB = U)
    (hends : ∀ p, p < 64 → (t'.inFieldEnds.getLsbD p = true ↔ ∃ β, BitMatrix.halves S U β ∧ p = n * β))
    (hmask : ∀ p, p < 64 → (t'.inMask.getLsbD p = true ↔ ∃ β j, BitMatrix.halves S U β ∧ j < U ∧ p = n * β + j))
    (hfields : ∀ p, t'.inCoords.getLsbD p = true ↔ ∃ β d j, BitMatrix.halves S U β ∧ d < n ∧ j < U ∧
      p = n * β + (U * d + j) ∧ x.getLsbD (m * d + (β + j)) = true)
    (haside : ∀ p, t'.coords.getLsbD p = true ↔ ∃ d b, d < n ∧ b < m ∧ (¬∃ β, S β ∧ β ≤ b ∧ b < β + 2 * U) ∧
      p = n * b + d ∧ x.getLsbD (m * d + b) = true) :
    Layout n m x (BitMatrix.halves S U) t' ∧ Inside n (BitMatrix.halves S U) t' := by
  have hblocks := h.blocks.halves hUB
  constructor
  · constructor
    · rwa [hinB]
    · rwa [hinB]
    · exact hends
    · rwa [hinB]
    · intro β d j hβ hd hj
      rw [hinB] at hj ⊢
      have hoff : ∀ d j, d < n → j < U → U * d + j < n * U := by
        intro d j hd hj
        rw [Nat.mul_comm n U]
        exact place_lt hj hd
      rw [Bool.eq_iff_iff, hfields]
      constructor
      · intro ⟨β', d', j', hβ', hd', hj', hp, hx⟩
        obtain ⟨rfl, hplace⟩ := hblocks.unique hβ hβ' (hoff d j hd hj) (hoff d' j' hd' hj') hp
        obtain ⟨rfl, rfl⟩ := place_unique hj hj' hplace
        exact hx
      · intro hx
        exact ⟨β, d, j, hβ, hd, hj, rfl, hx⟩
    · intro p
      simp only [hinB, exists_halves]
      exact haside p
  · intro p hp
    obtain ⟨β, d, j, hβ, hd, hj, hp, _⟩ := (hfields p).mp hp
    rw [hinB]
    exact ⟨β, d, j, hβ, hd, hj, hp⟩

theorem Layout.halve_even (h : Layout n m x S t) (hB : 2 ≤ t.inB) (heven : ¬t.inB % 2 = 1) (hn : 2 ≤ n)
    (hnm : n * m ≤ 64) :
    Layout n m x (halves S (t.inB / 2)) (halve n t) ∧ Inside n (halves S (t.inB / 2)) (halve n t) := by
  obtain ⟨hends, hmask⟩ := h.utMask hB hn
  have htwo : 2 * (t.inB / 2) = t.inB := by omega
  apply h.halved (by omega) (by omega) (halve_inB n t)
  · rwa [halve, if_neg heven]
  · rwa [halve, if_neg heven]
  · rw [halve, if_neg heven]
    dsimp only
    rw [evenFields_eq]
    apply getLsbD_fields (h.blocks.halves (by omega)) hnm
    intro d hd p
    apply getLsbD_spread h.blocks (by omega) hn hnm (Y := fun b => x.getLsbD (m * d + b) = true) _ hmask
    rw [htwo]
    exact h.field hnm hd
  · rw [halve, if_neg heven, htwo]
    exact h.aside

theorem Layout.halve_odd (h : Layout n m x S t) (hB : 2 ≤ t.inB) (hodd : t.inB % 2 = 1) (hn : 2 ≤ n)
    (hnm : n * m ≤ 64) :
    Layout n m x (halves S (t.inB / 2)) (halve n t) ∧ Inside n (halves S (t.inB / 2)) (halve n t) := by
  obtain ⟨hends, hmask⟩ := h.utMask hB hn
  have htwo : t.inB = 2 * (t.inB / 2) + 1 := by omega
  have hn' : t.inB ≤ n * t.inB := Nat.le_mul_of_pos_left _ (by omega)
  have hstarts : ∀ p, p < 64 → ((t.inFieldEnds <<< (t.inB - 1)).getLsbD p = true ↔
      ∃ β, S β ∧ p = n * β + 2 * (t.inB / 2)) := by
    intro p hp
    rw [BitVec.getLsbD_shiftLeft, Bool.and_eq_true, Bool.and_eq_true, Bool.not_eq_true', decide_eq_false_iff_not,
      decide_eq_true_eq, h.ends _ (by omega)]
    constructor
    · intro ⟨⟨_, hge⟩, β, hβ, hp⟩
      exact ⟨β, hβ, by omega⟩
    · intro ⟨β, hβ, hp⟩
      exact ⟨⟨‹_›, by omega⟩, β, hβ, by omega⟩
  have hfield := fun d hd => h.field hnm (d := d) hd
  have htop : ∀ d, d < n → ∀ p,
      (t.inCoords >>> (d * t.inB) &&& t.inMask &&& t.inFieldEnds <<< (t.inB - 1)).getLsbD p = true ↔
        ∃ β, S β ∧ p = n * β + 2 * (t.inB / 2) ∧ x.getLsbD (m * d + (β + 2 * (t.inB / 2))) = true := by
    intro d hd p
    rw [BitVec.getLsbD_and, Bool.and_eq_true, hfield d hd]
    constructor
    · intro ⟨⟨β, j, hβ, hj, hp, hx⟩, hs⟩
      obtain ⟨β', hβ', hp'⟩ := (hstarts p (BitVec.lt_of_getLsbD hs)).mp hs
      obtain ⟨rfl, rfl⟩ := h.blocks.unique (n := n) hβ hβ' (by omega) (by omega) (hp.symm.trans hp')
      exact ⟨β, hβ, hp, hx⟩
    · intro ⟨β, hβ, hp, hx⟩
      have hfit := Nat.mul_le_mul_left n (h.blocks.fits β hβ)
      rw [Nat.mul_add] at hfit
      exact ⟨⟨β, _, hβ, by omega, hp, hx⟩, (hstarts p (by omega)).mpr ⟨β, hβ, hp⟩⟩
  have hrest : ∀ d, d < n → ∀ p,
      (t.inCoords >>> (d * t.inB) &&& t.inMask &&& ~~~(t.inFieldEnds <<< (t.inB - 1))).getLsbD p = true ↔
        ∃ β j, S β ∧ j < 2 * (t.inB / 2) ∧ p = n * β + j ∧ x.getLsbD (m * d + (β + j)) = true := by
    intro d hd p
    rw [BitVec.getLsbD_and, Bool.and_eq_true, hfield d hd, BitVec.getLsbD_not, Bool.and_eq_true, Bool.not_eq_true',
      decide_eq_true_eq, ← Bool.not_eq_true]
    constructor
    · intro ⟨⟨β, j, hβ, hj, hp, hx⟩, hp64, hs⟩
      rw [hstarts p hp64] at hs
      have hne : j ≠ 2 * (t.inB / 2) := by
        rintro rfl
        exact hs ⟨β, hβ, hp⟩
      exact ⟨β, j, hβ, by omega, hp, hx⟩
    · intro ⟨β, j, hβ, hj, hp, hx⟩
      have hfit := Nat.mul_le_mul_left n (h.blocks.fits β hβ)
      rw [Nat.mul_add] at hfit
      refine ⟨⟨β, j, hβ, by omega, hp, hx⟩, by omega, ?_⟩
      rw [hstarts p (by omega)]
      intro ⟨β', hβ', hp'⟩
      have := (h.blocks.unique (n := n) hβ hβ' (by omega) (by omega) (hp.symm.trans hp')).2
      omega
  apply h.halved (by omega) (by omega) (halve_inB n t)
  · rwa [halve, if_pos hodd]
  · rwa [halve, if_pos hodd]
  · rw [halve, if_pos hodd]
    dsimp only
    rw [oddFields_eq]
    apply getLsbD_fields (h.blocks.halves (by omega)) hnm
    intro d hd p
    exact getLsbD_spread h.blocks (by omega) hn hnm (Y := fun b => x.getLsbD (m * d + b) = true) (hrest d hd) hmask p
  · intro p
    rw [halve, if_pos hodd]
    dsimp only
    have hshift : n * (2 * (t.inB / 2)) = 2 * ((n - 1) * (t.inB / 2)) + 2 * (t.inB / 2) := by
      calc n * (2 * (t.inB / 2)) = 2 * ((n - 1 + 1) * (t.inB / 2)) := by
            rw [show n - 1 + 1 = n by omega]
            ring
        _ = 2 * ((n - 1) * (t.inB / 2)) + 2 * (t.inB / 2) := by ring
    rw [oddFields_eq, BitVec.getLsbD_or, Bool.or_eq_true, h.aside, getLsbD_orOver]
    constructor
    · intro hp
      rcases hp with ⟨d, b, hd, hb, hout, hp, hx⟩ | ⟨d, hd, hp⟩
      · refine ⟨d, b, hd, hb, ?_, hp, hx⟩
        intro ⟨β, hβ, hle, hlt⟩
        exact hout ⟨β, hβ, hle, by omega⟩
      · rw [BitVec.getLsbD_shiftLeft, Bool.and_eq_true, Bool.and_eq_true, Bool.not_eq_true', decide_eq_false_iff_not,
          htop d hd] at hp
        obtain ⟨⟨_, hge⟩, β, hβ, hp, hx⟩ := hp
        have hfit := h.blocks.fits β hβ
        refine ⟨d, β + 2 * (t.inB / 2), hd, by omega, ?_, by rw [Nat.mul_add]; omega, hx⟩
        intro ⟨β', hβ', hle, hlt⟩
        have hblocks := h.blocks
        rw [htwo] at hblocks
        exact Blocks.last hblocks hβ hβ' hle hlt
    · intro ⟨d, b, hd, hb, hout, hp, hx⟩
      by_cases hin : ∃ β, S β ∧ β ≤ b ∧ b < β + t.inB
      · obtain ⟨β, hβ, hle, hlt⟩ := hin
        have hbβ : b = β + 2 * (t.inB / 2) := by
          by_contra hne
          exact hout ⟨β, hβ, hle, by omega⟩
        have hplace := place_lt hd hb
        rw [hbβ] at hx
        rw [hbβ, Nat.mul_add] at hp hplace
        refine Or.inr ⟨d, hd, ?_⟩
        rw [BitVec.getLsbD_shiftLeft, Bool.and_eq_true, Bool.and_eq_true, Bool.not_eq_true', decide_eq_false_iff_not,
          decide_eq_true_eq, htop d hd]
        exact ⟨⟨by omega, by omega⟩, β, hβ, by omega, hx⟩
      · exact Or.inl ⟨d, b, hd, hb, hin, hp, hx⟩

theorem Layout.halve (h : Layout n m x S t) (hB : 2 ≤ t.inB) (hn : 2 ≤ n) (hnm : n * m ≤ 64) :
    Layout n m x (halves S (t.inB / 2)) (halve n t) ∧ Inside n (halves S (t.inB / 2)) (halve n t) := by
  by_cases hodd : t.inB % 2 = 1
  · exact h.halve_odd hB hodd hn hnm
  · exact h.halve_even hB hodd hn hnm

/-- When the fields have one bit, the blocks and what is set aside are the whole matrix. -/
theorem Layout.isTranspose (h : Layout n m x S t) (hin : Inside n S t) (hB : t.inB = 1) :
    IsTranspose n m x (t.coords ||| t.inCoords) := by
  intro p
  rw [BitVec.getLsbD_or, Bool.or_eq_true, h.aside]
  constructor
  · intro hp
    rcases hp with ⟨d, b, hd, hb, _, hp, hx⟩ | hp
    · exact ⟨d, b, hd, hb, hp, hx⟩
    · obtain ⟨β, d, j, hβ, hd, hj, rfl⟩ := hin p hp
      have hfit := h.blocks.fits β hβ
      rw [h.fields β d j hβ hd hj] at hp
      rw [hB] at hj hfit ⊢
      have hj0 : j = 0 := by omega
      rw [hj0] at hp ⊢
      exact ⟨d, β, hd, by omega, by omega, hp⟩
  · intro ⟨d, b, hd, hb, hp, hx⟩
    by_cases hout : ∃ β, S β ∧ β ≤ b ∧ b < β + t.inB
    · obtain ⟨β, hβ, hle, hlt⟩ := hout
      have hbβ : b = β := by omega
      rw [hbβ] at hp hx
      have hfield := h.fields β d 0 hβ hd h.pos
      rw [hB] at hfield
      refine Or.inr ?_
      rw [hp, show n * β + d = n * β + (1 * d + 0) by omega, hfield]
      exact hx
    · exact Or.inl ⟨d, b, hd, hb, hout, hp, hx⟩

theorem Layout.halvings (hn : 2 ≤ n) (hnm : n * m ≤ 64) (h : Layout n m x S t) (hin : Inside n S t) :
    IsTranspose n m x (halvings n t) := by
  induction t using halvings.induct n generalizing S with
  | case1 t hB =>
    rw [BitTranspose.halvings, if_pos hB]
    have := h.pos
    exact h.isTranspose hin (by omega)
  | case2 t hB ih =>
    rw [BitTranspose.halvings, if_neg hB]
    obtain ⟨h', hin'⟩ := h.halve (by omega) hn hnm
    exact ih h' hin'

theorem start_layout (hm : 0 < m) : Layout n m x (· = 0) ⟨m, 1, ones m, x, 0⟩ := by
  constructor
  · exact hm
  · exact blocks_single m
  · intro p hp
    simp
  · intro p hp
    rw [getLsbD_ones hm p hp]
    constructor
    · intro hlt
      exact ⟨0, p, rfl, hlt, by omega⟩
    · rintro ⟨_, j, rfl, hj, hp⟩
      dsimp only at hj
      omega
  · rintro _ d j rfl _ _
    simp
  · intro p
    constructor
    · intro h
      simp at h
    · intro ⟨_, b, _, hb, hout, _⟩
      exact absurd ⟨0, rfl, by omega, by dsimp only; omega⟩ hout

end

/-- The halvings give the transpose. -/
theorem bitTranspose_isTranspose {nDims nBits : Nat} (hd : 2 ≤ nDims) (hb : 2 ≤ nBits) (hbits : nDims * nBits ≤ 64)
    (inCoords : Bitmask) : IsTranspose nDims nBits inCoords (bitTranspose nDims nBits inCoords) := by
  rw [bitTranspose, halvings, if_neg (by dsimp only; omega)]
  obtain ⟨h, hin⟩ := (start_layout (x := inCoords) (by omega : 0 < nBits)).halve hb hd hbits
  exact h.halvings hd hbits hin

/-! ## Bit by bit -/

theorem getLsbD_rdbit (x : Bitmask) (k q : Nat) :
    (rdbit x k).getLsbD q = true ↔ q = 0 ∧ x.getLsbD k = true := by
  rw [rdbit, BitVec.getLsbD_and, Bool.and_eq_true, BitVec.getLsbD_ushiftRight]
  constructor
  · intro ⟨hx, hq⟩
    have hq : q = 0 := by simpa using hq
    exact ⟨hq, by rwa [hq] at hx⟩
  · intro ⟨hq, hx⟩
    rw [hq]
    exact ⟨hx, by simp⟩

theorem getLsbD_bitByBit (n : Nat) (field : Bitmask) (b : Nat) (out : Bitmask) (p : Nat) (hp : p < 64) :
    (bitByBit n field b out).getLsbD p = true ↔
      (∃ i, i < b ∧ p = n * i ∧ field.getLsbD i = true) ∨ (n * b ≤ p ∧ out.getLsbD (p - n * b) = true) := by
  induction b generalizing out with
  | zero => simp [bitByBit]
  | succ b ih =>
    rw [bitByBit, ih, BitVec.getLsbD_or, Bool.or_eq_true, getLsbD_rdbit, BitVec.getLsbD_shiftLeft, Bool.and_eq_true,
      Bool.and_eq_true, Bool.not_eq_true', decide_eq_false_iff_not, decide_eq_true_eq, Nat.mul_succ]
    constructor
    · intro h
      rcases h with ⟨i, hi, hpi, hf⟩ | ⟨hle, ⟨⟨_, hge⟩, hout⟩ | ⟨hz, hf⟩⟩
      · exact Or.inl ⟨i, by omega, hpi, hf⟩
      · exact Or.inr ⟨by omega, by rwa [← Nat.sub_sub]⟩
      · exact Or.inl ⟨b, by omega, by omega, hf⟩
    · intro h
      rcases h with ⟨i, hi, hpi, hf⟩ | ⟨hle, hout⟩
      · by_cases hib : i = b
        · rw [hib] at hpi hf
          exact Or.inr ⟨by omega, Or.inr ⟨by omega, hf⟩⟩
        · exact Or.inl ⟨i, by omega, hpi, hf⟩
      · exact Or.inr ⟨by omega, Or.inl ⟨⟨by omega, by omega⟩, by rwa [Nat.sub_sub]⟩⟩

theorem plainFields_eq (n m k : Nat) (x : Bitmask) :
    (List.range k).foldl (plainField n m) (x, 0) =
      (x >>> (k * m), orOver k fun d => bitByBit n (x >>> (d * m) &&& ones m) m 0 <<< d) := by
  induction k with
  | zero => simp [orOver]
  | succ k ih =>
    rw [List.range_succ, List.foldl_append, ih, orOver_succ]
    simp only [List.foldl_cons, List.foldl_nil, plainField, ← BitVec.shiftRight_add, Nat.succ_mul]

theorem plainTranspose_isTranspose {nDims nBits : Nat} (hb : 0 < nBits) (hbits : nDims * nBits ≤ 64)
    (inCoords : Bitmask) : IsTranspose nDims nBits inCoords (plainTranspose nDims nBits inCoords) := by
  intro p
  rw [plainTranspose, plainFields_eq, getLsbD_orOver]
  have hrow : ∀ d i, i < nBits → i < 64 → ((inCoords >>> (d * nBits) &&& ones nBits).getLsbD i = true ↔
      inCoords.getLsbD (nBits * d + i) = true) := by
    intro d i hi hi64
    rw [BitVec.getLsbD_and, Bool.and_eq_true, getLsbD_ones hb i hi64, BitVec.getLsbD_ushiftRight, Nat.mul_comm d]
    exact and_iff_left hi
  constructor
  · intro ⟨d, hd, hp⟩
    have hp64 := BitVec.lt_of_getLsbD hp
    rw [BitVec.getLsbD_shiftLeft, Bool.and_eq_true, Bool.and_eq_true, Bool.not_eq_true', decide_eq_false_iff_not,
      getLsbD_bitByBit _ _ _ _ _ (by omega)] at hp
    obtain ⟨⟨_, hge⟩, ⟨i, hi, hpi, hf⟩ | ⟨_, hout⟩⟩ := hp
    · have hle : nBits ≤ nDims * nBits := Nat.le_mul_of_pos_left nBits (by omega)
      exact ⟨d, i, hd, hi, by omega, (hrow d i hi (by omega)).mp hf⟩
    · simp at hout
  · intro ⟨d, b, hd, hb', hp, hx⟩
    have hplace := place_lt hd hb'
    have hle : nBits ≤ nDims * nBits := Nat.le_mul_of_pos_left nBits (by omega)
    refine ⟨d, hd, ?_⟩
    rw [BitVec.getLsbD_shiftLeft, Bool.and_eq_true, Bool.and_eq_true, Bool.not_eq_true', decide_eq_false_iff_not,
      decide_eq_true_eq, getLsbD_bitByBit _ _ _ _ _ (by omega)]
    exact ⟨⟨by omega, by omega⟩, Or.inl ⟨b, hb', by omega, (hrow d b hb' (by omega)).mpr hx⟩⟩

/-- The branch that is compiled computes what the other branch computes. -/
theorem bitTranspose_eq_plainTranspose {nDims nBits : Nat} (hd : 2 ≤ nDims) (hb : 2 ≤ nBits)
    (hbits : nDims * nBits ≤ 64) (inCoords : Bitmask) :
    bitTranspose nDims nBits inCoords = plainTranspose nDims nBits inCoords :=
  (bitTranspose_isTranspose hd hb hbits inCoords).unique (plainTranspose_isTranspose (by omega) hbits inCoords)

theorem bitTranspose_eq_plainTranspose_three_five :
    bitTranspose 3 5 0b101100111000110 = plainTranspose 3 5 0b101100111000110 :=
  bitTranspose_eq_plainTranspose (by decide) (by decide) (by decide) _

end BitTranspose
