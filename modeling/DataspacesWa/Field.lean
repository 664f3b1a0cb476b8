import DataspacesWa.LexicalCast

/-!
# Fixed-width text fields

A field is written at the start of a block of a fixed size, whose rest is
whatever the allocator gave, and read back up to a stop byte. Numbers are
printed into a field in decimal.
-/
namespace Field

section Stop
variable {α : Type} [DecidableEq α] {stop : α} {s : List α}

/-- What lies before the first `stop`. -/
def upTo (stop : α) (bytes : List α) : List α := bytes.takeWhile (· ≠ stop)

theorem notMem_upTo (stop : α) (bytes : List α) : stop ∉ upTo stop bytes := by
  intro h
  have hne := List.mem_takeWhile_imp h
  simp at hne

theorem upTo_append (h : stop ∉ s) (rest : List α) : upTo stop (s ++ rest) = s ++ upTo stop rest := by
  refine List.takeWhile_append_of_pos fun c hc => ?_
  rw [decide_eq_true_eq]
  rintro rfl
  exact h hc

@[simp] theorem upTo_nil : upTo stop ([] : List α) = [] := rfl

@[simp] theorem upTo_cons_stop (rest : List α) : upTo stop (stop :: rest) = [] := by simp [upTo]

theorem upTo_stop (h : stop ∉ s) (rest : List α) : upTo stop (s ++ stop :: rest) = s := by
  rw [upTo_append h, upTo_cons_stop, List.append_nil]

theorem upTo_eq_self (h : stop ∉ s) : upTo stop s = s := by
  have happ := upTo_append h []
  rwa [List.append_nil, upTo_nil, List.append_nil] at happ

end Stop

/-! ## Blocks -/

section Block
variable {α : Type} {written : List α} {size : Nat}

/-- `size` items from the allocator, with `written` copied to their start. -/
def block (size : Nat) (written : List α) (fresh : Nat → α) : List α :=
  (List.range size).map fun i => written[i]?.getD (fresh i)

@[simp] theorem length_block (size : Nat) (written : List α) (fresh : Nat → α) :
    (block size written fresh).length = size := by simp [block]

/-- What is written is at the start of the block. -/
theorem block_eq_append (h : written.length ≤ size) (fresh : Nat → α) :
    block size written fresh = written ++ (block size written fresh).drop written.length := by
  have htake : (block size written fresh).take written.length = written := by
    refine List.ext_getElem? fun i => ?_
    by_cases hi : i < written.length
    · simp [block, hi, show i < size by omega]
    · simp [hi]
  conv => lhs; rw [← List.take_append_drop written.length (block size written fresh), htake]

theorem block_full (h : written.length = size) (fresh : Nat → α) : block size written fresh = written := by
  have happ := block_eq_append (Nat.le_of_eq h) fresh
  rwa [List.drop_of_length_le (by rw [length_block]; omega), List.append_nil] at happ

theorem block_cons (size : Nat) (a : α) (written : List α) (fresh : Nat → α) :
    block (size + 1) (a :: written) fresh = a :: block size written fun i => fresh (i + 1) := by
  simp [block, List.range_succ_eq_map, Function.comp_def]

end Block

/-! ## Printed numbers -/

def ofChars (cs : List Char) : List UInt8 := cs.map fun c => UInt8.ofNat c.toNat

def toChars (bytes : List UInt8) : List Char := bytes.map fun b => Char.ofNat b.toNat

theorem toChars_ofChars {cs : List Char} (h : ∀ c ∈ cs, c.toNat < 256) : toChars (ofChars cs) = cs := by
  have hback : ∀ c ∈ cs, Char.ofNat (UInt8.ofNat c.toNat).toNat = c := fun c hc => by
    rw [UInt8.toNat_ofNat_of_lt' (h c hc), Char.ofNat_toNat]
  rw [toChars, ofChars, List.map_map]
  exact (List.map_congr_left hback).trans (List.map_id cs)

/-- The decimal digits of a number, as `sprintf` and `lexical_cast` print them. -/
def printed (n : Int32) : List UInt8 := ofChars (LexicalCast.ofInt n).toList

theorem mem_printed {n : Int32} {b : UInt8} (h : b ∈ printed n) : b = 45 ∨ 48 ≤ b.toNat ∧ b.toNat ≤ 57 := by
  obtain ⟨c, hc, rfl⟩ := List.mem_map.mp h
  rcases LexicalCast.mem_ofInt hc with rfl | hdigit
  · exact .inl rfl
  · obtain ⟨hlow, hhigh⟩ : 48 ≤ c.toNat ∧ c.toNat ≤ 57 := Char.isDigit_iff_toNat.mp hdigit
    rw [UInt8.toNat_ofNat_of_lt' (show c.toNat < 2 ^ 8 by omega)]
    exact .inr ⟨hlow, hhigh⟩

theorem notMem_printed {stop : UInt8} (n : Int32) (h : stop ≠ 45 ∧ stop.toNat < 48) : stop ∉ printed n := by
  intro hmem
  rcases mem_printed hmem with hsign | ⟨hlow, -⟩
  · exact h.1 hsign
  · omega

theorem toChars_printed (n : Int32) : toChars (printed n) = (LexicalCast.ofInt n).toList := by
  refine toChars_ofChars fun c hc => ?_
  rcases LexicalCast.mem_ofInt hc with rfl | hdigit
  · decide
  · have : 48 ≤ c.toNat ∧ c.toNat ≤ 57 := Char.isDigit_iff_toNat.mp hdigit
    omega

theorem length_printed (n : Int32) : 0 < (printed n).length ∧ (printed n).length ≤ 11 := by
  rw [printed, ofChars, List.length_map]
  exact LexicalCast.length_ofInt n

end Field
