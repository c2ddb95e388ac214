import TeaclaveSgx.Rand.Block
import Mathlib.Tactic.FinCases

/-! The 128-bit block counter in `state[12..16]`, least significant word first, and the
two operations that write it: `update` by its chain of early returns, `set_counter` from
two `u64` halves. Both are stated as one replacement of the four counter words. -/
namespace TeaclaveSgx.Rand.ChaCha

def counterSlot (j : Fin 4) : Fin 16 := ⟨12 + j.val, by omega⟩

/-- The counter the four words `state[12..16]` hold. -/
def counter (x : Words) : Nat :=
  (x.get 12).toNat + 2^32 * (x.get 13).toNat + 2^64 * (x.get 14).toNat + 2^96 * (x.get 15).toNat

/-- `x` with its counter words replaced by the little-endian words of `n`. -/
def Words.withCounter (x : Words) (n : Nat) : Words :=
  ⟨fun i => if i.val < 12 then x.get i else BitVec.ofNat 32 (n / 2 ^ (32 * (i.val - 12)))⟩

theorem counterSlot_cases (i : Fin 16) (high : ¬i.val < 12) : ∃ j, i = counterSlot j :=
  ⟨⟨i.val - 12, by omega⟩, by ext; simp [counterSlot]; omega⟩

/-- Each counter word is its slice of `counter`. -/
theorem get_counterSlot (x : Words) (j : Fin 4) :
    x.get (counterSlot j) = BitVec.ofNat 32 (counter x / 2 ^ (32 * j.val)) := by
  have := (x.get 12).isLt; have := (x.get 13).isLt
  have := (x.get 14).isLt; have := (x.get 15).isLt
  apply BitVec.eq_of_toNat_eq
  fin_cases j <;> simp [counterSlot, counter] <;> omega

/-- Two arrays agree when their first twelve words and their counters do. -/
theorem Words.ext_counter {x y : Words} (low : ∀ i : Fin 16, i.val < 12 → x.get i = y.get i)
    (same : counter x = counter y) : x = y := by
  ext1; funext i
  by_cases h : i.val < 12
  · exact low i h
  · obtain ⟨j, rfl⟩ := counterSlot_cases i h
    rw [get_counterSlot, get_counterSlot, same]

@[simp] theorem withCounter_get_low (x : Words) (n : Nat) (i : Fin 16) (low : i.val < 12) :
    (x.withCounter n).get i = x.get i := by
  simp [Words.withCounter, low]

theorem counter_withCounter (x : Words) (n : Nat) : counter (x.withCounter n) = n % 2^128 := by
  simp [counter, Words.withCounter, Fin.coe_ofNat_eq_mod]; omega

theorem matrix_withCounter (key : Fin 8 → W32) (m n : Nat) :
    (Reference.matrix key m).withCounter n = Reference.matrix key n := by
  ext1; funext i
  by_cases h : i.val < 12
  · simp [Reference.matrix, h]
  · have : ¬i.val < 4 := by omega
    simp [Words.withCounter, Reference.matrix, h, this]

theorem counter_matrix (key : Fin 8 → W32) (n : Nat) :
    counter (Reference.matrix key n) = n % 2^128 := by
  rw [← matrix_withCounter key 0 n, counter_withCounter]

theorem matrix_mod (key : Fin 8 → W32) (n : Nat) :
    Reference.matrix key (n % 2^128) = Reference.matrix key n := by
  refine Words.ext_counter (fun i low => ?_) (by simp [counter_matrix])
  simp [Reference.matrix, low]

theorem block_mod (key : Fin 8 → W32) (n : Nat) :
    Reference.block key (n % 2^128) = Reference.block key n := by
  simp only [Reference.block, matrix_mod]

/-! ## `update` -/

theorem update_buffer (rng : ChaChaRng) : (update rng).buffer = core rng.state := by
  simp only [update]; split_ifs <;> rfl

theorem update_index (rng : ChaChaRng) : (update rng).index = 0 := by
  simp only [update]; split_ifs <;> rfl

/-- The early returns add one to the 128-bit counter, wrapping at `2^128`. -/
theorem update_counter (rng : ChaChaRng) :
    counter (update rng).state = (counter rng.state + 1) % 2^128 := by
  have := (rng.state.get 12).isLt; have := (rng.state.get 13).isLt
  have := (rng.state.get 14).isLt; have := (rng.state.get 15).isLt
  simp only [update]
  split_ifs <;> simp_all [counter, ChaChaRng.increment] <;> bv_omega

theorem update_get_low (rng : ChaChaRng) (i : Fin 16) (low : i.val < 12) :
    (update rng).state.get i = rng.state.get i := by
  have : i ≠ 12 ∧ i ≠ 13 ∧ i ≠ 14 ∧ i ≠ 15 := by simp only [ne_eq, Fin.ext_iff]; omega
  simp only [update]
  split_ifs <;> simp [ChaChaRng.increment, this]

theorem update_state (rng : ChaChaRng) :
    (update rng).state = rng.state.withCounter (counter rng.state + 1) :=
  Words.ext_counter (fun i low => by rw [update_get_low rng i low, withCounter_get_low _ _ _ low])
    (by rw [update_counter, counter_withCounter])

/-- `update` refills the buffer from the state before the increment, resets the index, keeps
the constants and the key, and leaves in `state[12..16]` the words of the counter plus one:
the carry reaches a word exactly when every word below it wrapped to zero. -/
theorem update_spec (rng : ChaChaRng) :
    (update rng).buffer = core rng.state ∧ (update rng).index = 0 ∧
    (∀ i : Fin 16, i.val < 12 → (update rng).state.get i = rng.state.get i) ∧
    ∀ j : Fin 4, (update rng).state.get (counterSlot j) =
      BitVec.ofNat 32 ((counter rng.state + 1) % 2^128 / 2 ^ (32 * j.val)) :=
  ⟨update_buffer rng, update_index rng, update_get_low rng,
    fun j => by rw [get_counterSlot, update_counter]⟩

/-! ## `set_counter` -/

/-- The low `u64` fills words 12 and 13, the high one words 14 and 15. -/
theorem setCounter_state (rng : ChaChaRng) (lo hi : BitVec 64) :
    (setCounter rng lo hi).state = rng.state.withCounter (hi.toNat * 2^64 + lo.toNat) := by
  have := lo.isLt; have := hi.isLt
  refine Words.ext_counter (fun i low => ?_) ?_
  · have : i ≠ 12 ∧ i ≠ 13 ∧ i ≠ 14 ∧ i ≠ 15 := by simp only [ne_eq, Fin.ext_iff]; omega
    simp [setCounter, this, low]
  · rw [counter_withCounter]
    simp [setCounter, counter, Nat.shiftRight_eq_div_pow]
    omega

end TeaclaveSgx.Rand.ChaCha
