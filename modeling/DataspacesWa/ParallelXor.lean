import DataspacesWa.Threads

/-!
# Parity of chunks

`XORER::parallel_xor` gives every thread a slice of the chunks and of the result,
and `XORER::_xor` of one thread clears its slice and adds the words to it one
after the other. A byte is added by two reads and one write, and the threads may
take turns between any two of them.
-/
namespace ParallelXor

open Threads Transition

/-- A byte of the memory, or one of the two registers of a thread. -/
inductive Loc where
  | byte : Nat → Loc
  | left : Nat → Loc
  | right : Nat → Loc
  deriving DecidableEq, Repr

def clear (r : Nat) : Instr Loc UInt8 := ⟨[], fun _ => 0, .byte r⟩

def load (reg : Loc) (a : Nat) : Instr Loc UInt8 := ⟨[.byte a], fun vs => vs.headD 0, reg⟩

def store (t r : Nat) : Instr Loc UInt8 := ⟨[.left t, .right t], fun vs => vs.foldr (· ^^^ ·) 0, .byte r⟩

/-- `t_r_[i] ^= word_[i]` -/
def addByte (t r a : Nat) : List (Instr Loc UInt8) := [load (.left t) r, load (.right t) a, store t r]

/-- What one thread is called with. -/
structure Worker where
  wordSize : Nat
  word : List Nat
  r : Nat
  deriving DecidableEq, Repr

def addWord (t wordSize r word : Nat) : List (Instr Loc UInt8) :=
  (List.range wordSize).flatMap fun i => addByte t (r + i) (word + i)

/-- `XORER::_xor` -/
def xorWords (t : Nat) (w : Worker) : List (Instr Loc UInt8) :=
  (List.range w.wordSize).map (fun i => clear (w.r + i)) ++ w.word.flatMap (addWord t w.wordSize w.r)

/-- The last thread takes what the division leaves. For one thread and a chunk of 2^30 bytes
the sum is 2^31: the difference wraps back. -/
def wordSize (numThread chunkSize : Int32) (i : Nat) : Int32 :=
  if i < numThread.toInt - 1 then chunkSize / numThread
  else chunkSize / numThread + chunkSize - numThread * (chunkSize / numThread)

/-- The loop over the threads, with `left` of them to go. -/
def workers (numThread chunkSize : Int32) : Nat → Nat → List Nat → Nat → List Worker
  | 0, _, _, _ => []
  | left + 1, i, chunk, r =>
    let size := (wordSize numThread chunkSize i).toInt.toNat
    ⟨size, chunk, r⟩ :: (if i < numThread.toInt - 1
      then workers numThread chunkSize left (i + 1) (chunk.map (· + size)) (r + size)
      else workers numThread chunkSize left (i + 1) chunk r)

/-- `XORER::parallel_xor`, the threads it starts. -/
def parallelXor (numThread chunkSize : Int32) (chunk : List Nat) (r : Nat) : List Worker :=
  workers numThread chunkSize numThread.toInt.toNat 0 chunk r

def program (ws : List Worker) (t : Nat) : List (Instr Loc UInt8) :=
  match ws[t]? with
  | some w => xorWords t w
  | none => []

def start (ws : List Worker) (mem : Loc → UInt8) : State Nat Loc UInt8 := ⟨program ws, mem⟩

/-- The XOR of the bytes at `p`. -/
def xorAt (mem : Loc → UInt8) (chunk : List Nat) (p : Nat) : UInt8 :=
  (chunk.map fun c => mem (.byte (c + p))).foldr (· ^^^ ·) 0

/-- Two buffers of `size` bytes that do not overlap. -/
def Apart (a b size : Nat) : Prop := a + size ≤ b ∨ b + size ≤ a

instance Apart.decidable (a b size : Nat) : Decidable (Apart a b size) :=
  inferInstanceAs (Decidable (_ ∨ _))

/-- The slices cover the buffer without gap or overlap, each worker with the same slice of
every chunk and of the result. -/
structure Tiles (ws : List Worker) (chunk : List Nat) (r size : Nat) : Prop where
  inside : ∀ w ∈ ws, ∃ off, w.r = r + off ∧ w.word = chunk.map (· + off) ∧ off + w.wordSize ≤ size
  once : ∀ p < size, ∃! t : Nat, ∃ w : Worker, ws[t]? = some w ∧ w.r ≤ r + p ∧ r + p < w.r + w.wordSize

/-! ## Slices -/

/-- Where a slice ends. -/
theorem slice_end (c : Nat) {n t : Nat} (ht : t < n) :
    t * (c / n) + (if t + 1 < n then c / n else c - (n - 1) * (c / n)) =
      if t + 1 < n then (t + 1) * (c / n) else c := by
  split
  · rw [Nat.succ_mul]
  · have htn : t = n - 1 := by omega
    have hle : (n - 1) * (c / n) ≤ n * (c / n) := Nat.mul_le_mul_right _ (by omega)
    have hprod : n * (c / n) ≤ c := Nat.mul_div_le c n
    rw [htn]
    omega

section

variable {numThread chunkSize : Int32} {n c : Nat} (hn : numThread.toInt = n) (hpos : 0 < n)
  (hc : chunkSize.toInt = c)
include hn hpos hc

omit hpos in
theorem div_toInt : (chunkSize / numThread).toInt = (c / n : Nat) := by
  have hle : c / n ≤ c := Nat.div_le_self c n
  have hlt : chunkSize.toInt < 2 ^ 31 := chunkSize.toInt_lt
  rw [Int32.toInt_div, hn, hc, Int.tdiv_eq_ediv_of_nonneg (by omega), ← Int.natCast_ediv]
  generalize c / n = q at hle
  exact Int.bmod_eq_of_le (by omega) (by omega)

/-- The sizes of the slices, in no width. -/
theorem wordSize_toNat (i : Nat) :
    (wordSize numThread chunkSize i).toInt.toNat = if i + 1 < n then c / n else c - (n - 1) * (c / n) := by
  have hq : (chunkSize / numThread).toInt = (c / n : Nat) := div_toInt hn hc
  rw [wordSize, hn]
  by_cases hi : i + 1 < n
  · rw [if_pos (by omega), if_pos hi, hq, Int.toNat_natCast]
  · have hprod : n * (c / n) ≤ c := Nat.mul_div_le c n
    have hle : c / n ≤ n * (c / n) := Nat.le_mul_of_pos_left _ hpos
    have hlt : chunkSize.toInt < 2 ^ 31 := chunkSize.toInt_lt
    have hpred : (n - 1) * (c / n) = n * (c / n) - c / n := by rw [Nat.sub_mul, Nat.one_mul]
    have hsum : (chunkSize / numThread + chunkSize - numThread * (chunkSize / numThread)).toInt =
        Int.bmod ((c / n : Nat) + c - (n * (c / n) : Nat)) (2 ^ 32) := by
      rw [Int32.toInt_sub, Int32.toInt_add, Int32.toInt_mul, hq, hn, hc, Nat.cast_mul]
      simp
    rw [if_neg (by omega), if_neg hi, hsum, hpred]
    generalize n * (c / n) = m at hprod hle
    generalize c / n = q at hle
    rw [Int.bmod_eq_of_le (by omega) (by omega)]
    omega

/-- The pointers go on by one slice from worker to worker. -/
theorem workers_getElem? (left i : Nat) (chunk : List Nat) (r : Nat) (hleft : i + left = n) (t : Nat) :
    (workers numThread chunkSize left i chunk r)[t]? =
      if t < left then some ⟨if i + t + 1 < n then c / n else c - (n - 1) * (c / n),
        chunk.map (· + t * (c / n)), r + t * (c / n)⟩
      else none := by
  induction left generalizing i chunk r t with
  | zero => simp [workers]
  | succ left ih =>
    have hsize := wordSize_toNat hn hpos hc i
    rw [workers]
    cases t with
    | zero => simp [hsize]
    | succ t =>
      by_cases hi : i + 1 < n
      · have hlt : (i : Int) < numThread.toInt - 1 := by omega
        have hoff : ∀ x, x + c / n + t * (c / n) = x + (t + 1) * (c / n) := by
          intro x
          rw [Nat.succ_mul]
          omega
        have hmap : (chunk.map (· + c / n)).map (· + t * (c / n)) = chunk.map (· + (t + 1) * (c / n)) := by
          rw [List.map_map]
          exact List.map_congr_left fun x _ => hoff x
        have hindex : i + 1 + t + 1 = i + (t + 1) + 1 := by omega
        simp only [if_pos hlt, hsize, if_pos hi, List.getElem?_cons_succ]
        rw [ih (i + 1) (chunk.map (· + c / n)) (r + c / n) (by omega), hmap, hoff, hindex]
        simp only [Nat.add_lt_add_iff_right]
      · have hzero : left = 0 := by omega
        subst hzero
        simp [workers]

theorem parallelXor_getElem? (chunk : List Nat) (r t : Nat) :
    (parallelXor numThread chunkSize chunk r)[t]? =
      if t < n then some ⟨if t + 1 < n then c / n else c - (n - 1) * (c / n),
        chunk.map (· + t * (c / n)), r + t * (c / n)⟩
      else none := by
  have hcount : numThread.toInt.toNat = n := by omega
  rw [parallelXor, hcount, workers_getElem? hn hpos hc n 0 chunk r (by omega), Nat.zero_add]

theorem parallelXor_tiles (chunk : List Nat) (r : Nat) :
    Tiles (parallelXor numThread chunkSize chunk r) chunk r c := by
  have hget := parallelXor_getElem? hn hpos hc chunk r
  have hprod : n * (c / n) ≤ c := Nat.mul_div_le c n
  constructor
  · intro w hw
    obtain ⟨t, ht⟩ := List.mem_iff_getElem?.mp hw
    rw [hget] at ht
    split at ht
    next htn =>
      obtain rfl := Option.some.inj ht
      refine ⟨t * (c / n), rfl, rfl, ?_⟩
      rw [slice_end c htn]
      split
      · exact (Nat.mul_le_mul_right _ (by omega)).trans hprod
      · exact le_rfl
    next => exact absurd ht (by simp)
  · intro p hp
    -- the slice of `p`
    obtain ⟨t, ht, hlo, hhi⟩ : ∃ t, t < n ∧ t * (c / n) ≤ p ∧ p < if t + 1 < n then (t + 1) * (c / n) else c := by
      by_cases hlast : p < (n - 1) * (c / n)
      · have hq : 0 < c / n := Nat.pos_of_ne_zero (by rintro h; simp [h] at hlast)
        have hdiv : p / (c / n) < n - 1 := (Nat.div_lt_iff_lt_mul hq).mpr hlast
        refine ⟨p / (c / n), by omega, Nat.div_mul_le_self p _, ?_⟩
        rw [if_pos (by omega), Nat.succ_mul]
        have hmod := Nat.mod_lt p hq
        have hsplit := Nat.div_add_mod' p (c / n)
        omega
      · refine ⟨n - 1, by omega, by omega, ?_⟩
        rw [if_neg (by omega)]
        exact hp
    have hin : ∀ u, u < n → u * (c / n) ≤ p → (p < if u + 1 < n then (u + 1) * (c / n) else c) →
        ∀ v, v < n → v * (c / n) ≤ p → ¬ u < v := by
      intro u _ _ hup v hv hvp huv
      have hmul : (u + 1) * (c / n) ≤ v * (c / n) := Nat.mul_le_mul_right _ huv
      rw [if_pos (by omega)] at hup
      omega
    refine ⟨t, ⟨_, by rw [hget, if_pos ht], ?_⟩, ?_⟩
    · have hend := slice_end c ht
      simp only
      omega
    · rintro u ⟨w, hw, hwlo, hwhi⟩
      rw [hget] at hw
      split at hw
      next hu =>
        obtain rfl := Option.some.inj hw
        have hend := slice_end c hu
        simp only at hwlo hwhi
        have hulo : u * (c / n) ≤ p := by omega
        have huhi : p < if u + 1 < n then (u + 1) * (c / n) else c := by omega
        have hut := hin u hu hulo huhi t ht hlo
        have htu := hin t ht hlo hhi u hu hulo
        omega
      next => exact absurd hw (by simp)

end

/-! ## One thread -/

theorem xorAt_congr {mem mem' : Loc → UInt8} {chunk : List Nat} {p : Nat}
    (h : ∀ c ∈ chunk, mem (.byte (c + p)) = mem' (.byte (c + p))) : xorAt mem chunk p = xorAt mem' chunk p := by
  rw [xorAt, xorAt, List.map_congr_left h]

theorem xorAt_cons (mem : Loc → UInt8) (c : Nat) (chunk : List Nat) (p : Nat) :
    xorAt mem (c :: chunk) p = mem (.byte (c + p)) ^^^ xorAt mem chunk p := rfl

theorem Apart.outside {a b size i : Nat} (h : Apart a b size) (hi : i < size) :
    ¬ (b ≤ a + i ∧ a + i < b + size) := by
  rcases h with h | h <;> omega

theorem execAll_clear (r n : Nat) (mem : Loc → UInt8) (x : Nat) :
    execAll ((List.range n).map fun i => clear (r + i)) mem (.byte x) =
      if r ≤ x ∧ x < r + n then 0 else mem (.byte x) := by
  induction n with
  | zero =>
    rw [if_neg (by omega)]
    rfl
  | succ n ih =>
    rw [List.range_succ, List.map_append, execAll_append]
    change (clear (r + n)).exec _ (.byte x) = _
    by_cases hx : x = r + n
    · rw [if_pos (by omega), hx]
      exact Function.update_self _ _ _
    · rw [Instr.exec_of_ne _ _ (by simp [clear, hx]), ih]
      exact if_congr (by omega) rfl rfl

theorem execAll_addByte (t r a : Nat) (mem : Loc → UInt8) (x : Nat) :
    execAll (addByte t r a) mem (.byte x) =
      if x = r then mem (.byte r) ^^^ mem (.byte a) else mem (.byte x) := by
  by_cases hx : x = r
  · subst hx
    simp [execAll, addByte, load, store, Instr.exec, Function.update_of_ne]
  · simp [execAll, addByte, load, store, Instr.exec, Function.update_of_ne, hx]

/-- The word is not in the slice, so that each of its bytes is still there when it is read. -/
theorem execAll_addWord (t n r word : Nat) (h : Apart word r n) (mem : Loc → UInt8) (x : Nat) :
    execAll (addWord t n r word) mem (.byte x) =
      if r ≤ x ∧ x < r + n then mem (.byte x) ^^^ mem (.byte (word + (x - r))) else mem (.byte x) := by
  induction n generalizing x with
  | zero =>
    rw [if_neg (by omega)]
    rfl
  | succ n ih =>
    have hless : Apart word r n := by
      rcases h with h | h
      · exact Or.inl (by omega)
      · exact Or.inr (by omega)
    have hsplit : addWord t (n + 1) r word = addWord t n r word ++ addByte t (r + n) (word + n) := by
      rw [addWord, addWord, List.range_succ, List.flatMap_append, List.flatMap_singleton]
    have hword : ¬ (r ≤ word + n ∧ word + n < r + n) := by
      rcases h with h | h <;> omega
    rw [hsplit, execAll_append, execAll_addByte]
    by_cases hx : x = r + n
    · subst hx
      rw [if_pos rfl, if_pos (by omega), ih hless, ih hless, if_neg (by omega), if_neg hword,
        Nat.add_sub_cancel_left]
    · rw [if_neg hx, ih hless]
      exact if_congr (by omega) rfl rfl

theorem execAll_words (t n r : Nat) (word : List Nat) (h : ∀ c ∈ word, Apart c r n) (mem : Loc → UInt8)
    (x : Nat) :
    execAll (word.flatMap (addWord t n r)) mem (.byte x) =
      if r ≤ x ∧ x < r + n then mem (.byte x) ^^^ xorAt mem word (x - r) else mem (.byte x) := by
  induction word generalizing mem x with
  | nil => simp [execAll, xorAt]
  | cons c word ih =>
    have hfirst := execAll_addWord t n r c (h c List.mem_cons_self) mem
    have hrest : ∀ c ∈ word, Apart c r n := fun c hc => h c (List.mem_cons_of_mem _ hc)
    rw [List.flatMap_cons, execAll_append, ih hrest, hfirst]
    by_cases hx : r ≤ x ∧ x < r + n
    · have hsame : xorAt (execAll (addWord t n r c) mem) word (x - r) = xorAt mem word (x - r) := by
        refine xorAt_congr fun d hd => ?_
        rw [hfirst, if_neg ((hrest d hd).outside (by omega))]
      rw [if_pos hx, if_pos hx, if_pos hx, hsame, xorAt_cons, UInt8.xor_assoc]
    · rw [if_neg hx, if_neg hx, if_neg hx]

/-- One thread on its own leaves the XOR of the words in its slice. -/
theorem execAll_xorWords (t : Nat) (w : Worker) (h : ∀ c ∈ w.word, Apart c w.r w.wordSize) (mem : Loc → UInt8)
    {p : Nat} (hp : p < w.wordSize) :
    execAll (xorWords t w) mem (.byte (w.r + p)) = xorAt mem w.word p := by
  have hclear := execAll_clear w.r w.wordSize mem
  rw [xorWords, execAll_append, execAll_words t _ _ _ h, if_pos (by omega), hclear, if_pos (by omega),
    UInt8.zero_xor, Nat.add_sub_cancel_left]
  refine xorAt_congr fun c hc => ?_
  rw [hclear, if_neg ((h c hc).outside hp)]

/-! ## All threads -/

/-- A register of the thread, or a byte of its slice. -/
def Writes (t : Nat) (w : Worker) (a : Loc) : Prop :=
  a = .left t ∨ a = .right t ∨ ∃ p < w.wordSize, a = .byte (w.r + p)

theorem write_of_mem {t : Nat} {w : Worker} {i : Instr Loc UInt8} (h : i ∈ xorWords t w) : Writes t w i.write := by
  rw [xorWords, List.mem_append, List.mem_map, List.mem_flatMap] at h
  rcases h with ⟨p, hp, rfl⟩ | ⟨c, -, h⟩
  · exact Or.inr (Or.inr ⟨p, List.mem_range.mp hp, rfl⟩)
  · obtain ⟨p, hp, hi⟩ := List.mem_flatMap.mp h
    simp only [addByte, List.mem_cons, List.not_mem_nil, or_false] at hi
    rcases hi with rfl | rfl | rfl
    · exact Or.inl rfl
    · exact Or.inr (Or.inl rfl)
    · exact Or.inr (Or.inr ⟨p, List.mem_range.mp hp, rfl⟩)

theorem touches_of_mem {t : Nat} {w : Worker} {i : Instr Loc UInt8} (h : i ∈ xorWords t w) {a : Loc}
    (ha : i.touches a) : Writes t w a ∨ ∃ c ∈ w.word, ∃ p < w.wordSize, a = .byte (c + p) := by
  rcases ha with rfl | ha
  · exact Or.inl (write_of_mem h)
  rw [xorWords, List.mem_append, List.mem_map, List.mem_flatMap] at h
  rcases h with ⟨p, -, rfl⟩ | ⟨c, hc, h⟩
  · exact absurd ha (by simp [clear])
  · obtain ⟨p, hp, hi⟩ := List.mem_flatMap.mp h
    have hlt : p < w.wordSize := List.mem_range.mp hp
    simp only [addByte, List.mem_cons, List.not_mem_nil, or_false] at hi
    rcases hi with rfl | rfl | rfl
    · exact Or.inl (Or.inr (Or.inr ⟨p, hlt, by simpa [load] using ha⟩))
    · exact Or.inr ⟨c, hc, p, hlt, by simpa [load] using ha⟩
    · rw [store, List.mem_pair] at ha
      exact Or.inl (ha.imp_right Or.inl)

theorem mem_program {ws : List Worker} {t : Nat} {i : Instr Loc UInt8} (h : i ∈ program ws t) :
    ∃ w, ws[t]? = some w ∧ i ∈ xorWords t w := by
  rw [program] at h
  split at h
  next w hw => exact ⟨w, hw, h⟩
  next => exact absurd h (by simp)

section

variable {ws : List Worker} {chunk : List Nat} {r size : Nat} (tiles : Tiles ws chunk r size)
  (apart : ∀ c ∈ chunk, Apart c r size)
include tiles apart

/-- What a slice has in common with the words of another worker: nothing. -/
theorem program_independent : Independent (program ws) := by
  intro t u htu i hi j hj htouch
  obtain ⟨w, hw, hiw⟩ := mem_program hi
  obtain ⟨v, hv, hjv⟩ := mem_program hj
  obtain ⟨off, hoff, -, hend⟩ := tiles.inside w (List.mem_of_getElem? hw)
  obtain ⟨off', hoff', hword', hend'⟩ := tiles.inside v (List.mem_of_getElem? hv)
  rcases touches_of_mem hjv htouch with hwrite | ⟨c, hc, q, hq, hread⟩
  · rcases write_of_mem hiw with h | h | ⟨p, hp, h⟩ <;> rw [h] at hwrite
    · simp [Writes, htu] at hwrite
    · simp [Writes, htu] at hwrite
    · simp only [Writes, reduceCtorEq, Loc.byte.injEq, false_or] at hwrite
      obtain ⟨q, hq, hpq⟩ := hwrite
      obtain ⟨k, -, huniq⟩ := tiles.once (off + p) (by omega)
      have ht : t = k := huniq t ⟨w, hw, by omega, by omega⟩
      have hu : u = k := huniq u ⟨v, hv, by omega, by omega⟩
      exact htu (ht.trans hu.symm)
  · rw [hword'] at hc
    obtain ⟨d, hd, rfl⟩ := List.mem_map.mp hc
    rcases write_of_mem hiw with h | h | ⟨p, hp, h⟩ <;> rw [h] at hread
    · simp at hread
    · simp at hread
    · have hout := (apart d hd).outside (show off' + q < size by omega)
      have heq : w.r + p = d + off' + q := Loc.byte.inj hread
      omega

variable {mem : Loc → UInt8} {s : State Nat Loc UInt8} (h : Reaches step free (start ws mem) s)
include h

/-- Nothing but the result and the registers is ever written. -/
theorem mem_outside {a : Nat} (ha : ¬ (r ≤ a ∧ a < r + size)) : s.mem (.byte a) = mem (.byte a) := by
  refine (inv_of_reaches (program_independent tiles apart) h).frame (.byte a) ?_
  intro t i hi hia
  obtain ⟨w, hw, hiw⟩ := mem_program hi
  obtain ⟨off, hoff, -, hend⟩ := tiles.inside w (List.mem_of_getElem? hw)
  rcases write_of_mem hiw with hwrite | hwrite | ⟨p, hp, hwrite⟩ <;> rw [hwrite] at hia
  · simp at hia
  · simp at hia
  · have heq : a = w.r + p := Loc.byte.inj hia
    omega

theorem mem_result (hf : s.finished) {p : Nat} (hp : p < size) : s.mem (.byte (r + p)) = xorAt mem chunk p := by
  obtain ⟨t, ⟨w, hw, hlo, hhi⟩, -⟩ := tiles.once p hp
  obtain ⟨off, hoff, hword, hend⟩ := tiles.inside w (List.mem_of_getElem? hw)
  have hprog : program ws t = xorWords t w := by rw [program, hw]
  have hat : r + p = w.r + (p - off) := by omega
  have hlt : p - off < w.wordSize := by omega
  have hclear : clear (w.r + (p - off)) ∈ program ws t := by
    rw [hprog, xorWords]
    exact List.mem_append_left _ (List.mem_map.mpr ⟨p - off, List.mem_range.mpr hlt, rfl⟩)
  have htouch : ∃ i ∈ program ws t, i.touches (.byte (w.r + (p - off))) := ⟨_, hclear, Or.inl rfl⟩
  have hwords : ∀ c ∈ w.word, Apart c w.r w.wordSize := by
    intro c hc
    rw [hword] at hc
    obtain ⟨d, hd, rfl⟩ := List.mem_map.mp hc
    rcases apart d hd with hd | hd
    · exact Or.inl (by omega)
    · exact Or.inr (by omega)
  rw [hat, finished_mem (program_independent tiles apart) h hf t htouch, hprog,
    execAll_xorWords t w hwords mem hlt, hword, xorAt, xorAt, List.map_map]
  congr 1
  refine List.map_congr_left fun c _ => ?_
  have hsum : c + off + (p - off) = c + p := by omega
  simp only [Function.comp_apply, hsum]

end

/-- The parity and all chunks but one give back that chunk. -/
theorem xorAt_recover (mem : Loc → UInt8) (chunk : List Nat) {k : Nat} (hk : k < chunk.length) (p : Nat) :
    xorAt mem chunk p ^^^ xorAt mem (chunk.eraseIdx k) p = mem (.byte (chunk[k] + p)) := by
  have hperm : xorAt mem chunk p = xorAt mem (chunk[k] :: chunk.eraseIdx k) p := by
    have hcomm : LeftCommutative fun a b : UInt8 => a ^^^ b := ⟨fun a b c => by
      rw [← UInt8.xor_assoc, ← UInt8.xor_assoc, UInt8.xor_comm a b]⟩
    exact (List.Perm.map _ (List.getElem_cons_eraseIdx_perm hk).symm).foldr_eq _
  rw [hperm, xorAt_cons, UInt8.xor_assoc, UInt8.xor_self, UInt8.xor_zero]

/-- The slices tile the buffer, every run of the threads can be brought to its end, and there
the result holds the XOR of all chunks, whatever the order. -/
theorem parallelXor_exact (numThread chunkSize : Int32) (hn : 1 ≤ numThread) (hc : 0 ≤ chunkSize)
    (chunk : List Nat) (r : Nat) (apart : ∀ c ∈ chunk, Apart c r chunkSize.toInt.toNat) (mem : Loc → UInt8)
    (s : State Nat Loc UInt8) (h : Reaches step free (start (parallelXor numThread chunkSize chunk r) mem) s) :
    Tiles (parallelXor numThread chunkSize chunk r) chunk r chunkSize.toInt.toNat ∧
      (∃ s', Reaches step free s s' ∧ s'.finished) ∧
      (s.finished →
        (∀ p < chunkSize.toInt.toNat, s.mem (.byte (r + p)) = xorAt mem chunk p) ∧
        (∀ a, ¬ (r ≤ a ∧ a < r + chunkSize.toInt.toNat) → s.mem (.byte a) = mem (.byte a)) ∧
        ∀ k, (hk : k < chunk.length) → ∀ p < chunkSize.toInt.toNat,
          xorAt s.mem (r :: chunk.eraseIdx k) p = mem (.byte (chunk[k] + p))) := by
  have hn' : numThread.toInt = numThread.toInt.toNat := by
    have := Int32.le_iff_toInt_le.mp hn
    have hone : (1 : Int32).toInt = 1 := rfl
    omega
  have hpos : 0 < numThread.toInt.toNat := by
    have := Int32.le_iff_toInt_le.mp hn
    have hone : (1 : Int32).toInt = 1 := rfl
    omega
  have hc' : chunkSize.toInt = chunkSize.toInt.toNat := by
    have := Int32.le_iff_toInt_le.mp hc
    have hzero : (0 : Int32).toInt = 0 := rfl
    omega
  have tiles := parallelXor_tiles hn' hpos hc' chunk r
  refine ⟨tiles, ?_, fun hf => ⟨fun p hp => mem_result tiles apart h hf hp,
    fun a ha => mem_outside tiles apart h ha, fun k hk p hp => ?_⟩⟩
  · refine exists_finished (List.range (parallelXor numThread chunkSize chunk r).length) s fun t ht => ?_
    obtain ⟨done, hprog, -⟩ := (inv_of_reaches (program_independent tiles apart) h).progress t
    have hnone : (parallelXor numThread chunkSize chunk r)[t]? = none := by
      rw [List.getElem?_eq_none_iff]
      simpa using ht
    rw [program, hnone] at hprog
    exact (List.append_eq_nil_iff.mp hprog.symm).2
  · have hrest : xorAt s.mem (chunk.eraseIdx k) p = xorAt mem (chunk.eraseIdx k) p := by
      refine xorAt_congr fun c hcm => ?_
      exact mem_outside tiles apart h ((apart c (List.mem_of_mem_eraseIdx hcm)).outside hp)
    rw [xorAt_cons, mem_result tiles apart h hf hp, hrest, xorAt_recover mem chunk hk p]

/-- The chunks are 1, 2, 4 and 8, 16, 32. -/
def powers : Loc → UInt8
  | .byte a => UInt8.ofNat (2 ^ a)
  | _ => 0

/-- Two threads over two chunks of three bytes, run to the end. -/
theorem parallelXor_exact_three :
    ∃ s : State Nat Loc UInt8, s.finished ∧ [s.mem (.byte 6), s.mem (.byte 7), s.mem (.byte 8)] = [9, 18, 36] ∧
      [s.mem (.byte 3), s.mem (.byte 4), s.mem (.byte 5)] = [8, 16, 32] := by
  have hexact := parallelXor_exact 2 3 (by decide) (by decide) [0, 3] 6 (by decide +kernel) powers
  obtain ⟨-, ⟨s, hreach, hf⟩, -⟩ := hexact (start (parallelXor 2 3 [0, 3] 6) powers) .refl
  obtain ⟨hmem, houtside, -⟩ := (hexact s hreach).2.2 hf
  have hsize : (3 : Int32).toInt.toNat = 3 := rfl
  rw [hsize] at hmem houtside
  refine ⟨s, hf, ?_, ?_⟩
  · rw [hmem 0 (by decide), hmem 1 (by decide), hmem 2 (by decide)]
    rfl
  · rw [houtside 3 (by decide), houtside 4 (by decide), houtside 5 (by decide)]
    rfl

end ParallelXor
