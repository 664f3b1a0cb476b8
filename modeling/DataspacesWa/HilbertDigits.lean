import DataspacesWa.WordDigits

/-!
# The Hilbert curve on digits

A place on the curve is a list of digits of `n` bits, one bit for an axis, and so
is a corner of the cube; in both the most significant digit is first. Each digit
is coded so that the next one differs in one bit, turned and flipped as the
digits before it say, and added to the corner so far. Two places that follow
each other have corners that are neighbours along one axis.
-/
namespace HilbertDigits

open WordDigits (sums)

variable {n : Nat}

/-- Where the digits so far have led: the lowest bit of the last one, the turn, the flip and the corner. -/
structure State (n : Nat) where
  low : Bool
  rot : Nat
  flip : BitVec n
  corner : BitVec n
  deriving DecidableEq, Repr

def start (n : Nat) : State n := ⟨true, 0, 0, 0⟩

/-- The reflected binary code. -/
def gray (a : BitVec n) : BitVec n := a ^^^ a >>> 1

def top (n : Nat) : BitVec n := BitVec.twoPow n (n - 1)

/-- The place of the lowest bit that is set, from 1 on. -/
def ffs (b : BitVec n) : Nat :=
  match (List.range n).find? b.getLsbD with
  | some k => k + 1
  | none => 0

def turn (rot : Nat) (b : BitVec n) : Nat := (rot + 1 + ffs b) % n

theorem turn_lt (hn : 0 < n) (rot : Nat) (b : BitVec n) : turn rot b < n := Nat.mod_lt _ hn

def State.word (s : State n) (a : BitVec n) : BitVec n := gray a ^^^ if s.low then 0 else top n

def State.out (s : State n) (a : BitVec n) : BitVec n := s.corner ^^^ ((s.word a).rotateLeft s.rot ^^^ s.flip)

def State.next (s : State n) (a : BitVec n) : State n :=
  ⟨a.getLsbD 0, turn s.rot (s.word a), BitVec.twoPow n s.rot, s.out a⟩

/-- The corners, one for each digit. -/
def walk : State n → List (BitVec n) → List (BitVec n)
  | _, [] => []
  | s, a :: as => s.out a :: walk (s.next a) as

/-! ## One pass after the other -/

/-- The digits coded, each with the lowest bit of the one before it. -/
def grays : Bool → List (BitVec n) → List (BitVec n)
  | _, [] => []
  | low, a :: as => (gray a ^^^ if low then 0 else top n) :: grays (a.getLsbD 0) as

/-- The digits turned and flipped, each as the one before it says. -/
def turns : Nat → BitVec n → List (BitVec n) → List (BitVec n)
  | _, _, [] => []
  | rot, flip, b :: bs => (b.rotateLeft rot ^^^ flip) :: turns (turn rot b) (BitVec.twoPow n rot) bs

/-- The digits flipped and turned back. -/
def unturns : Nat → BitVec n → List (BitVec n) → List (BitVec n)
  | _, _, [] => []
  | rot, flip, c :: cs =>
    (flip ^^^ c).rotateRight rot :: unturns (turn rot ((flip ^^^ c).rotateRight rot)) (BitVec.twoPow n rot) cs

theorem walk_eq (s : State n) (as : List (BitVec n)) : walk s as = sums s.corner (turns s.rot s.flip (grays s.low as)) := by
  induction as generalizing s with
  | nil => rfl
  | cons a as ih =>
    rw [walk, ih]
    rfl

@[simp] theorem length_turns (rot : Nat) (flip : BitVec n) (bs : List (BitVec n)) :
    (turns rot flip bs).length = bs.length := by
  induction bs generalizing rot flip with
  | nil => rfl
  | cons b bs ih => rw [turns, List.length_cons, ih, List.length_cons]

@[simp] theorem length_unturns (rot : Nat) (flip : BitVec n) (cs : List (BitVec n)) :
    (unturns rot flip cs).length = cs.length := by
  induction cs generalizing rot flip with
  | nil => rfl
  | cons c cs ih => rw [unturns, List.length_cons, ih, List.length_cons]

theorem rotateRight_rotateLeft (b : BitVec n) (r : Nat) : (b.rotateLeft r).rotateRight r = b := by
  apply BitVec.eq_of_getLsbD_eq
  intro i hi
  have hr : r % n < n := Nat.mod_lt _ (by omega)
  rw [BitVec.getLsbD_rotateRight, BitVec.getLsbD_rotateLeft, BitVec.getLsbD_rotateLeft]
  by_cases h : i < n - r % n
  · rw [decide_eq_true h, cond_true, decide_eq_false (by omega), cond_false, decide_eq_true (by omega), Bool.true_and,
      show r % n + i - r % n = i by omega]
  · rw [decide_eq_false h, cond_false, decide_eq_true hi, Bool.true_and, decide_eq_true (by omega), cond_true,
      show n - r % n + (i - (n - r % n)) = i by omega]

theorem rotateLeft_rotateRight (b : BitVec n) (r : Nat) : (b.rotateRight r).rotateLeft r = b := by
  apply BitVec.eq_of_getLsbD_eq
  intro i hi
  have hr : r % n < n := Nat.mod_lt _ (by omega)
  rw [BitVec.getLsbD_rotateLeft, BitVec.getLsbD_rotateRight, BitVec.getLsbD_rotateRight]
  by_cases h : i < r % n
  · rw [decide_eq_true h, cond_true, decide_eq_false (by omega), cond_false, decide_eq_true (by omega), Bool.true_and,
      show n - r % n + i - (n - r % n) = i by omega]
  · rw [decide_eq_false h, cond_false, decide_eq_true hi, Bool.true_and, decide_eq_true (by omega), cond_true,
      show r % n + (i - r % n) = i by omega]

theorem unturns_turns (rot : Nat) (flip : BitVec n) (bs : List (BitVec n)) :
    unturns rot flip (turns rot flip bs) = bs := by
  induction bs generalizing rot flip with
  | nil => rfl
  | cons b bs ih =>
    have hback : (flip ^^^ (b.rotateLeft rot ^^^ flip)).rotateRight rot = b := by
      rw [BitVec.xor_comm (b.rotateLeft rot), ← BitVec.xor_assoc, BitVec.xor_self, BitVec.zero_xor,
        rotateRight_rotateLeft]
    rw [turns, unturns, hback, ih]

theorem turns_unturns (rot : Nat) (flip : BitVec n) (cs : List (BitVec n)) :
    turns rot flip (unturns rot flip cs) = cs := by
  induction cs generalizing rot flip with
  | nil => rfl
  | cons c cs ih =>
    rw [unturns, turns, rotateLeft_rotateRight, ih, BitVec.xor_comm flip, BitVec.xor_assoc, BitVec.xor_self,
      BitVec.xor_zero]

/-- After some digits. -/
def after (s : State n) (as : List (BitVec n)) : State n := as.foldl State.next s

theorem walk_append (s : State n) (as bs : List (BitVec n)) :
    walk s (as ++ bs) = walk s as ++ walk (after s as) bs := by
  induction as generalizing s with
  | nil => rfl
  | cons a as ih =>
    rw [List.cons_append, walk, walk, ih, List.cons_append]
    rfl

@[simp] theorem length_walk (s : State n) (as : List (BitVec n)) : (walk s as).length = as.length := by
  induction as generalizing s with
  | nil => rfl
  | cons a as ih => rw [walk, List.length_cons, List.length_cons, ih]

/-! ## Bits -/

theorem getLsbD_gray (a : BitVec n) (i : Nat) : (gray a).getLsbD i = (a.getLsbD i ^^ a.getLsbD (i + 1)) := by
  rw [gray, BitVec.getLsbD_xor, BitVec.getLsbD_ushiftRight, Nat.add_comm]

theorem getLsbD_top (hn : 0 < n) (i : Nat) : (top n).getLsbD i = decide (i + 1 = n) := by
  rw [top, BitVec.getLsbD_twoPow, decide_eq_true (by omega), Bool.true_and, Bool.eq_iff_iff, decide_eq_true_eq,
    decide_eq_true_eq]
  omega

theorem getLsbD_rotate (b : BitVec n) {r i : Nat} (hr : r < n) (hi : i < n) :
    (b.rotateLeft r).getLsbD i = b.getLsbD ((i + (n - r)) % n) := by
  rw [BitVec.getLsbD_rotateLeft, Nat.mod_eq_of_lt hr]
  by_cases hir : i < r
  · rw [decide_eq_true hir, cond_true, Nat.mod_eq_of_lt (by omega)]
    congr 1
    omega
  · rw [decide_eq_false hir, cond_false, decide_eq_true hi, Bool.true_and, show i + (n - r) = i - r + n by omega,
      Nat.add_mod_right, Nat.mod_eq_of_lt (by omega)]

theorem rotateLeft_xor (b c : BitVec n) {r : Nat} (hr : r < n) :
    (b ^^^ c).rotateLeft r = b.rotateLeft r ^^^ c.rotateLeft r := by
  apply BitVec.eq_of_getLsbD_eq
  intro i hi
  rw [BitVec.getLsbD_xor, getLsbD_rotate _ hr hi, getLsbD_rotate _ hr hi, getLsbD_rotate _ hr hi, BitVec.getLsbD_xor]

theorem rotateLeft_zero (r : Nat) : (0 : BitVec n).rotateLeft r = 0 := by
  apply BitVec.eq_of_getLsbD_eq
  intro i _
  rw [BitVec.getLsbD_rotateLeft]
  cases decide (i < r % n) <;> simp

theorem rotateLeft_twoPow {r q : Nat} (hr : r < n) (hq : q < n) :
    (BitVec.twoPow n q).rotateLeft r = BitVec.twoPow n ((q + r) % n) := by
  apply BitVec.eq_of_getLsbD_eq
  intro i hi
  have hmod : (q + r) % n = if q + r < n then q + r else q + r - n := by
    split
    next h => exact Nat.mod_eq_of_lt h
    next h => rw [Nat.mod_eq_sub_mod (by omega), Nat.mod_eq_of_lt (by omega)]
  have hmod' : (i + (n - r)) % n = if i < r then i + (n - r) else i - r := by
    split
    next h => exact Nat.mod_eq_of_lt (by omega)
    next h => rw [Nat.mod_eq_sub_mod (by omega), Nat.mod_eq_of_lt (by omega)]; omega
  rw [getLsbD_rotate _ hr hi, BitVec.getLsbD_twoPow, BitVec.getLsbD_twoPow, hmod, hmod', Bool.eq_iff_iff]
  simp only [Bool.and_eq_true, decide_eq_true_eq]
  split <;> split <;> omega

/-! ## The lowest bit -/

theorem ffs_of_first {b : BitVec n} {k : Nat} (hk : b.getLsbD k = true) (hmin : ∀ i, i < k → b.getLsbD i = false) :
    ffs b = k + 1 := by
  have hfind : (List.range n).find? b.getLsbD = some k := by
    rw [List.find?_range_eq_some]
    refine ⟨hk, List.mem_range.mpr (BitVec.lt_of_getLsbD hk), ?_⟩
    intro i hi
    rw [hmin i hi]
    rfl
  rw [ffs, hfind]

theorem exists_first {b : BitVec n} (h : b ≠ 0) :
    ∃ k, b.getLsbD k = true ∧ ∀ i, i < k → b.getLsbD i = false := by
  have hex : ∃ i, b.getLsbD i = true := by
    by_contra hno
    apply h
    apply BitVec.eq_of_getLsbD_eq
    intro i _
    rw [(Bool.not_eq_true _).mp (not_exists.mp hno i)]
    simp
  classical
  refine ⟨Nat.find hex, Nat.find_spec hex, ?_⟩
  intro i hi
  exact (Bool.not_eq_true _).mp (Nat.find_min hex hi)

theorem ffs_zero : ffs (0 : BitVec n) = 0 := by
  have hfind : (List.range n).find? (0 : BitVec n).getLsbD = none := by
    rw [List.find?_eq_none]
    intro i _
    simp
  rw [ffs, hfind]

theorem ffs_top (hn : 0 < n) : ffs (top n) = n := by
  have hfirst := ffs_of_first (b := top n) (k := n - 1)
    (by rw [getLsbD_top hn]; exact decide_eq_true (by omega))
    (by intro i hi; rw [getLsbD_top hn]; exact decide_eq_false (by omega))
  omega

/-! ## The next digit -/

/-- The `q` lowest bits of `a` are set and the next one is not. -/
structure TrailingOnes (a : BitVec n) (q : Nat) : Prop where
  lt : q < n
  ones : ∀ i, i < q → a.getLsbD i = true
  zero : a.getLsbD q = false

theorem exists_trailingOnes {a : BitVec n} (h : a ≠ BitVec.allOnes n) : ∃ q, TrailingOnes a q := by
  have hex : ∃ i, i < n ∧ a.getLsbD i = false := by
    by_contra hno
    apply h
    apply BitVec.eq_of_getLsbD_eq
    intro i hi
    rw [BitVec.getLsbD_allOnes, decide_eq_true hi]
    by_contra hbit
    exact hno ⟨i, hi, (Bool.not_eq_true _).mp hbit⟩
  classical
  refine ⟨Nat.find hex, (Nat.find_spec hex).1, ?_, (Nat.find_spec hex).2⟩
  intro i hi
  by_contra hbit
  exact Nat.find_min hex hi ⟨hi.trans (Nat.find_spec hex).1, (Bool.not_eq_true _).mp hbit⟩

section
variable {a : BitVec n} {q : Nat}

theorem TrailingOnes.getLsbD_add_one (h : TrailingOnes a q) (i : Nat) :
    (a + 1#n).getLsbD i = (a.getLsbD i ^^ decide (i ≤ q)) := by
  have := h.lt
  by_cases hi : i < n
  · rw [WordDigits.getLsbD_add_one a hi]
    congr 1
    rw [decide_eq_decide]
    constructor
    · intro hall
      by_contra hlt
      have := hall q (by omega)
      rw [h.zero] at this
      cases this
    · intro hle j hj
      exact h.ones j (by omega)
  · rw [BitVec.getLsbD_of_ge _ _ (by omega), BitVec.getLsbD_of_ge _ _ (by omega), decide_eq_false (by omega)]
    rfl

theorem TrailingOnes.gray_add_one (h : TrailingOnes a q) : gray (a + 1#n) = gray a ^^^ BitVec.twoPow n q := by
  have := h.lt
  apply BitVec.eq_of_getLsbD_eq
  intro i hi
  rw [getLsbD_gray, h.getLsbD_add_one, h.getLsbD_add_one, BitVec.getLsbD_xor, getLsbD_gray, BitVec.getLsbD_twoPow,
    decide_eq_true h.lt, Bool.true_and]
  have hle : (decide (i ≤ q) ^^ decide (i + 1 ≤ q)) = decide (q = i) := by
    by_cases h1 : i ≤ q <;> by_cases h2 : i + 1 ≤ q <;> simp [h1, h2] <;> omega
  rw [← hle]
  cases a.getLsbD i <;> cases a.getLsbD (i + 1) <;> cases decide (i ≤ q) <;> cases decide (i + 1 ≤ q) <;> rfl

theorem State.word_add_one (s : State n) (h : TrailingOnes a q) :
    s.word (a + 1#n) = s.word a ^^^ BitVec.twoPow n q := by
  rw [State.word, State.word, h.gray_add_one, BitVec.xor_assoc, BitVec.xor_comm (BitVec.twoPow n q), BitVec.xor_assoc]

/-- The digit and the next one differ along one axis. -/
theorem State.out_add_one {s : State n} (hs : s.rot < n) (h : TrailingOnes a q) :
    s.out (a + 1#n) = s.out a ^^^ BitVec.twoPow n ((q + s.rot) % n) := by
  rw [State.out, State.out, s.word_add_one h, rotateLeft_xor _ _ hs, rotateLeft_twoPow hs h.lt]
  simp only [BitVec.xor_assoc]
  rw [BitVec.xor_comm (BitVec.twoPow n _) s.flip]

/-- Above the lowest bit the turn is that of the trailing ones. -/
theorem State.turn_word {s : State n} (h : TrailingOnes a q) (hq : 0 < q) :
    turn s.rot (s.word a) = (s.rot + 1 + q) % n ∧ turn s.rot (s.word (a + 1#n)) = (s.rot + 1 + q) % n := by
  have hlt := h.lt
  have hbit : ∀ i, i < q → (s.word a).getLsbD i = decide (i + 1 = q) := by
    intro i hi
    have htop : (if s.low then 0 else top n).getLsbD i = false := by
      split
      next => simp
      next => rw [getLsbD_top (by omega)]; exact decide_eq_false (by omega)
    rw [State.word, BitVec.getLsbD_xor, htop, Bool.xor_false, getLsbD_gray, h.ones i hi]
    by_cases hiq : i + 1 = q
    · rw [hiq, h.zero]
      simp
    · rw [h.ones _ (by omega)]
      simp [hiq]
  have hbit' : ∀ i, i < q → (s.word (a + 1#n)).getLsbD i = decide (i + 1 = q) := by
    intro i hi
    rw [s.word_add_one h, BitVec.getLsbD_xor, hbit i hi, BitVec.getLsbD_twoPow, decide_eq_false (by omega : ¬q = i),
      Bool.and_false, Bool.xor_false]
  have hffs : ∀ b : BitVec n, (∀ i, i < q → b.getLsbD i = decide (i + 1 = q)) → ffs b = q := by
    intro b hb
    have := ffs_of_first (b := b) (k := q - 1) (by rw [hb _ (by omega)]; exact decide_eq_true (by omega))
      (by intro i hi; rw [hb _ (by omega)]; exact decide_eq_false (by omega))
    omega
  exact ⟨by rw [turn, hffs _ hbit], by rw [turn, hffs _ hbit']⟩

end

/-! ## The digits after it -/

/-- What the first of the digits after it adds. -/
def carried (low : Bool) (rot : Nat) (flip : BitVec n) : BitVec n :=
  (if low then top n else 0).rotateLeft rot ^^^ flip

theorem gray_allOnes (hn : 0 < n) : gray (BitVec.allOnes n) = top n := by
  apply BitVec.eq_of_getLsbD_eq
  intro i hi
  rw [getLsbD_gray, BitVec.getLsbD_allOnes, BitVec.getLsbD_allOnes, getLsbD_top hn, decide_eq_true hi, Bool.true_xor,
    Bool.eq_iff_iff]
  simp only [Bool.not_eq_true', decide_eq_false_iff_not, decide_eq_true_eq]
  omega

theorem gray_zero : gray (0 : BitVec n) = 0 := by simp [gray]

section
variable {d : BitVec n}

/-- A flip and a turn that undo each other. -/
theorem walk_settled {rot : Nat} (hn : 0 < n) (hrot : rot < n) (low : Bool) (v : BitVec n) (hlow : d.getLsbD 0 = low)
    (hword : ∀ rot flip corner, State.word ⟨low, rot, flip, corner⟩ d = top n) (t : Nat) :
    walk ⟨low, (rot + 1) % n, BitVec.twoPow n rot, v⟩ (List.replicate t d) = List.replicate t v := by
  induction t generalizing rot with
  | zero => rfl
  | succ t ih =>
    have hmod : (rot + 1) % n < n := Nat.mod_lt _ hn
    have hback : (n - 1 + (rot + 1) % n) % n = rot := by
      rw [Nat.add_mod_mod, show n - 1 + (rot + 1) = rot + n by omega, Nat.add_mod_right, Nat.mod_eq_of_lt hrot]
    have hout : State.out ⟨low, (rot + 1) % n, BitVec.twoPow n rot, v⟩ d = v := by
      rw [State.out, hword, top, rotateLeft_twoPow hmod (by omega), hback, BitVec.xor_self, BitVec.xor_zero]
    have hnext : State.next ⟨low, (rot + 1) % n, BitVec.twoPow n rot, v⟩ d =
        ⟨low, ((rot + 1) % n + 1) % n, BitVec.twoPow n ((rot + 1) % n), v⟩ := by
      rw [State.next, hout, hlow, hword, turn, ffs_top hn, Nat.add_mod_right]
    rw [List.replicate_succ, walk, hout, hnext, ih hmod, List.replicate_succ]

theorem walk_ones {s : State n} (hn : 0 < n) (hs : s.rot < n) (t : Nat) :
    walk s (List.replicate t (BitVec.allOnes n)) = List.replicate t (s.corner ^^^ carried s.low s.rot s.flip) := by
  cases t with
  | zero => rfl
  | succ t =>
    have hword : s.word (BitVec.allOnes n) = if s.low then top n else 0 := by
      rw [State.word, gray_allOnes hn]
      split <;> simp
    have hturn : turn s.rot (s.word (BitVec.allOnes n)) = (s.rot + 1) % n := by
      rw [hword, turn]
      split
      next => rw [ffs_top hn, Nat.add_mod_right]
      next => rw [ffs_zero, Nat.add_zero]
    have hout : s.out (BitVec.allOnes n) = s.corner ^^^ carried s.low s.rot s.flip := by
      rw [State.out, hword, carried]
    have hlow : (BitVec.allOnes n).getLsbD 0 = true := by
      rw [BitVec.getLsbD_allOnes]
      exact decide_eq_true hn
    rw [List.replicate_succ, walk, State.next, hturn, hout, hlow, List.replicate_succ]
    congr 1
    apply walk_settled hn hs _ _ hlow
    intro rot flip corner
    rw [State.word, gray_allOnes hn, if_pos rfl]
    exact BitVec.xor_zero

theorem walk_zeros {s : State n} (hn : 0 < n) (hs : s.rot < n) (t : Nat) :
    walk s (List.replicate t 0) = List.replicate t (s.corner ^^^ carried (!s.low) s.rot s.flip) := by
  cases t with
  | zero => rfl
  | succ t =>
    have hword : s.word 0 = if !s.low then top n else 0 := by
      rw [State.word, gray_zero]
      cases s.low <;> simp
    have hturn : turn s.rot (s.word 0) = (s.rot + 1) % n := by
      rw [hword, turn]
      split
      next => rw [ffs_top hn, Nat.add_mod_right]
      next => rw [ffs_zero, Nat.add_zero]
    have hout : s.out 0 = s.corner ^^^ carried (!s.low) s.rot s.flip := by
      rw [State.out, hword, carried]
    have hlow : (0 : BitVec n).getLsbD 0 = false := by simp
    rw [List.replicate_succ, walk, State.next, hturn, hout, hlow, List.replicate_succ]
    congr 1
    apply walk_settled hn hs _ _ hlow
    intro rot flip corner
    rw [State.word, gray_zero]
    exact BitVec.zero_xor

end

/-- A place and the next one: the digits before are the same, and after the
digit that grows the corners differ along one axis, on which the digits after
it lie on the other side. -/
theorem walk_next {s : State n} {a : BitVec n} (hs : s.rot < n) (ha : a ≠ BitVec.allOnes n) (t : Nat) :
    ∃ (p : Nat) (u v : BitVec n), p < n ∧ v.getLsbD p = (!u.getLsbD p) ∧
      walk s (a :: List.replicate t (BitVec.allOnes n)) = u :: List.replicate t v ∧
      walk s ((a + 1#n) :: List.replicate t 0) =
        (u ^^^ BitVec.twoPow n p) :: List.replicate t (v ^^^ BitVec.twoPow n p) := by
  obtain ⟨q, h⟩ := exists_trailingOnes ha
  have hn : 0 < n := by omega
  have hlt := h.lt
  have hp : (q + s.rot) % n < n := Nat.mod_lt _ hn
  have hr : ∀ b, (s.next b).rot < n := by
    intro b
    exact turn_lt hn _ _
  have hlow : (a + 1#n).getLsbD 0 = !a.getLsbD 0 := by
    rw [h.getLsbD_add_one, decide_eq_true (by omega), Bool.xor_true]
  have hcarried : carried (!(s.next (a + 1#n)).low) (s.next (a + 1#n)).rot (s.next (a + 1#n)).flip =
      carried (s.next a).low (s.next a).rot (s.next a).flip ∧
      (carried (s.next a).low (s.next a).rot (s.next a).flip).getLsbD ((q + s.rot) % n) = true := by
    simp only [State.next, hlow, Bool.not_not]
    by_cases hq : q = 0
    · -- the digit is even, so nothing is turned
      rw [hq] at h hp ⊢
      rw [h.zero, Nat.zero_add, Nat.mod_eq_of_lt hs]
      constructor
      · simp only [carried, Bool.false_eq_true, if_false, rotateLeft_zero]
      · simp [carried, hs]
    · obtain ⟨hturn, hturn'⟩ := s.turn_word h (by omega)
      rw [h.ones 0 (by omega), hturn, hturn']
      refine ⟨rfl, ?_⟩
      have hback : (n - 1 + (s.rot + 1 + q) % n) % n = (q + s.rot) % n := by
        rw [Nat.add_mod_mod, show n - 1 + (s.rot + 1 + q) = q + s.rot + n by omega, Nat.add_mod_right]
      have hne : s.rot ≠ (q + s.rot) % n := by
        by_cases hsum : q + s.rot < n
        · rw [Nat.mod_eq_of_lt hsum]
          omega
        · rw [Nat.mod_eq_sub_mod (by omega), Nat.mod_eq_of_lt (by omega)]
          omega
      rw [carried, if_pos rfl, top, rotateLeft_twoPow (Nat.mod_lt _ hn) (by omega), hback, BitVec.getLsbD_xor,
        BitVec.getLsbD_twoPow, BitVec.getLsbD_twoPow, decide_eq_true hp, decide_eq_true rfl, decide_eq_false hne,
        Bool.and_false]
      rfl
  refine ⟨(q + s.rot) % n, s.out a, s.out a ^^^ carried (s.next a).low (s.next a).rot (s.next a).flip, hp, ?_, ?_, ?_⟩
  · rw [BitVec.getLsbD_xor, hcarried.2, Bool.xor_true]
  · rw [walk, walk_ones hn (hr a)]
    rfl
  · rw [walk, walk_zeros hn (hr _), hcarried.1, s.out_add_one hs h]
    congr 2
    rw [State.next, s.out_add_one hs h]
    dsimp only
    rw [BitVec.xor_assoc, BitVec.xor_assoc, BitVec.xor_comm (BitVec.twoPow n _)]

/-! ## Axes -/

/-- What the corners say along axis `d`, the most significant bit first. -/
def axis (d : Nat) : List (BitVec n) → Nat
  | [] => 0
  | c :: cs => (c.getLsbD d).toNat * 2 ^ cs.length + axis d cs

theorem axis_lt (d : Nat) (cs : List (BitVec n)) : axis d cs < 2 ^ cs.length := by
  induction cs with
  | nil => simp [axis]
  | cons c cs ih =>
    rw [axis, List.length_cons, Nat.pow_succ]
    cases c.getLsbD d with
    | false => simp; omega
    | true => simp; omega

theorem axis_append (d : Nat) (cs cs' : List (BitVec n)) :
    axis d (cs ++ cs') = axis d cs * 2 ^ cs'.length + axis d cs' := by
  induction cs with
  | nil => simp [axis]
  | cons c cs ih =>
    rw [List.cons_append, axis, axis, ih, List.length_append, Nat.pow_add]
    ring

theorem axis_replicate (d t : Nat) (c : BitVec n) : axis d (List.replicate t c) = (c.getLsbD d).toNat * (2 ^ t - 1) := by
  induction t with
  | zero => simp [axis]
  | succ t ih =>
    have := Nat.one_le_two_pow (n := t)
    rw [List.replicate_succ, axis, ih, List.length_replicate, ← Nat.mul_add, Nat.pow_succ]
    congr 1
    omega

/-- Along the axis on which the corners differ the step is one, along the others there is none. -/
theorem axis_next {p : Nat} {u v : BitVec n} (hp : p < n) (hv : v.getLsbD p = (!u.getLsbD p)) (t d : Nat) :
    let old := axis d (u :: List.replicate t v)
    let new := axis d ((u ^^^ BitVec.twoPow n p) :: List.replicate t (v ^^^ BitVec.twoPow n p))
    if d = p then new = old + 1 ∨ old = new + 1 else new = old := by
  have := Nat.one_le_two_pow (n := t)
  simp only [axis, axis_replicate, List.length_replicate, BitVec.getLsbD_xor, BitVec.getLsbD_twoPow]
  split
  next hd =>
    rw [hd, hv, decide_eq_true hp, decide_eq_true rfl]
    cases u.getLsbD p with
    | false => simp; omega
    | true => simp; omega
  next hd =>
    rw [decide_eq_false (Ne.symm hd)]
    simp

end HilbertDigits
