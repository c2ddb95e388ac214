import TeaclaveSgx.Rand.Counter

/-! What `init`, `reseed` and the constructors leave in the state: exactly the reference input
matrix for block zero, with the key padded from the seed. The two key loops, `init`'s
enumerate over the key and `reseed`'s zip of the key slots with the seed, are one lemma.
`reseed` reads at most eight seed words, and `rand` draws its eight in order. -/
namespace TeaclaveSgx.Rand.ChaCha

/-- The zip loop from key slot `k` on: slot `4 + k + m` takes the `m`-th seed word, when
the seed has one. -/
theorem get_foldl_zip (seed : List W32) (x : Words) (k : Nat) (i : Fin 16) :
    ((((List.finRange 8).drop k).zip seed).foldl
        (fun state ks => state.set (keySlot ks.1) ks.2) x).get i =
      if 4 + k ≤ i.val ∧ i.val < 12 then seed.getD (i.val - 4 - k) (x.get i) else x.get i := by
  induction seed generalizing k x with
  | nil => simp
  | cons s seed ih =>
    by_cases hk : k < 8
    · rw [List.drop_eq_getElem_cons (by simpa using hk), List.zip_cons_cons, List.foldl_cons, ih]
      simp only [List.getElem_finRange, Fin.cast_mk, Words.get_set]
      by_cases hi : i = keySlot ⟨k, hk⟩
      · have : i.val = 4 + k := congrArg Fin.val hi
        rw [if_neg (by omega), if_pos hi, if_pos (by omega), show i.val - 4 - k = 0 by omega,
          List.getD_cons_zero]
      · have : i.val ≠ 4 + k := fun h => hi (Fin.ext h)
        rw [if_neg hi]
        by_cases range : 4 + k ≤ i.val ∧ i.val < 12
        · obtain ⟨m, hm⟩ : ∃ m, i.val - 4 - k = m + 1 := ⟨i.val - 5 - k, by omega⟩
          rw [if_pos (by omega), if_pos range, hm, List.getD_cons_succ]
          congr 1; omega
        · rw [if_neg (by omega), if_neg range]
    · rw [List.drop_eq_nil_of_le (by simp; omega), List.zip_nil_left, List.foldl_nil,
        if_neg (by omega)]

theorem foldl_keySlot_eq_zip (key : Fin 8 → W32) (l : List (Fin 8)) (x : Words) :
    l.foldl (fun state i => state.set (keySlot i) (key i)) x =
      (l.zip (l.map key)).foldl (fun state ks => state.set (keySlot ks.1) ks.2) x := by
  induction l generalizing x with
  | nil => rfl
  | cons i l ih => exact ih _

theorem init_state (rng : ChaChaRng) (key : Fin 8 → W32) :
    (init rng key).state = Reference.matrix key 0 := by
  ext1; funext i
  have fold := fun x => get_foldl_zip ((List.finRange 8).map key) x 0
  simp only [List.drop_zero, Nat.add_zero, Nat.sub_zero] at fold
  simp only [init, keyWords, Words.get_set, foldl_keySlot_eq_zip, fold]
  fin_cases i <;> simp [Reference.matrix, Fin.coe_ofNat_eq_mod] <;> rfl

/-- Whatever the generator held, `reseed` leaves the matrix of the padded seed at block zero. -/
theorem reseed_state (rng : ChaChaRng) (seed : List W32) :
    (reseed rng seed).state = Reference.matrix (Reference.pad8 seed) 0 := by
  ext1; funext i
  have fold := get_foldl_zip seed (Reference.matrix (fun _ => 0) 0) 0 i
  simp only [List.drop_zero, Nat.add_zero, Nat.sub_zero] at fold
  simp only [reseed, keyWords, init_state, fold]
  by_cases h4 : i.val < 4
  · simp [Reference.matrix, h4, show i.val < 12 by omega, show ¬4 ≤ i.val by omega]
  · by_cases h12 : i.val < 12
    · simp [Reference.matrix, Reference.pad8, h4, h12, show 4 ≤ i.val by omega]
    · simp [Reference.matrix, h4, h12]

theorem newUnseeded_state : newUnseeded.state = Reference.matrix (Reference.pad8 []) 0 := by
  rw [newUnseeded, init_state]; rfl

/-- `reseed` as a whole: the buffer it was given, the matrix of the padded seed, and a used-up
index. -/
theorem reseed_eq (rng : ChaChaRng) (seed : List W32) :
    reseed rng seed = ⟨rng.buffer, Reference.matrix (Reference.pad8 seed) 0, stateWords⟩ := by
  rw [show reseed rng seed = ⟨rng.buffer, (reseed rng seed).state, stateWords⟩ from rfl,
    reseed_state]

theorem pad8_take (seed : List W32) : Reference.pad8 (seed.take 8) = Reference.pad8 seed := by
  funext i
  simp [Reference.pad8, List.getD_eq_getElem?_getD, List.getElem?_take, i.isLt]

theorem pad8_append_zeros (seed : List W32) (k : Nat) :
    Reference.pad8 (seed ++ List.replicate k 0) = Reference.pad8 seed := by
  funext i
  simp only [Reference.pad8, List.getD_eq_getElem?_getD]
  rcases lt_or_le i.val seed.length with inSeed | past
  · rw [List.getElem?_append_left inSeed]
  · rw [List.getElem?_append_right past, List.getElem?_eq_none past, List.getElem?_replicate]
    split <;> rfl

/-- `reseed` reads at most eight seed words, and a shorter seed acts as one padded with
zeros: the words after the eighth, and zeros appended to a seed, change nothing. -/
theorem reseed_uses_eight_words (rng : ChaChaRng) (seed : List W32) (k : Nat) :
    reseed rng (seed.take 8) = reseed rng seed ∧
      reseed rng (seed ++ List.replicate k 0) = reseed rng seed := by
  simp only [reseed_eq, pad8_take, pad8_append_zeros, and_self]

/-- The words `rand` draws from `gen` for the key: the first eight, in order. -/
def drawnKey (gen : R → W32 × R) (other : R) : List W32 :=
  (List.range 8).map fun i => (gen ((fun o => (gen o).2)^[i] other)).1

/-- `rand` keys the new generator with the first eight words `gen` draws, in order, and
leaves `other` eight draws on. -/
theorem rand_draws (gen : R → W32 × R) (other : R) :
    rand gen other = (fromSeed (drawnKey gen other), (fun o => (gen o).2)^[8] other) :=
  rfl

end TeaclaveSgx.Rand.ChaCha
