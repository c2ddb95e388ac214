import TeaclaveSgx.Rand.Keying

/-! The keystream the generator promises, as an abstract machine: a key and a 128-bit block
number fixed by the last `reseed`, `from_seed` or `set_counter`, and the number of words read
since. The generator refines it: along every sequence of calls from every constructor, it
returns the same words, and its index stays within the buffer. Two places of the keystream
with the same key, block and offset return the same words from then on, so reading forward
after `set_counter` agrees with seeking further; and `rand` from a ChaCha parent keys the
child with the parent's next eight words. -/
namespace TeaclaveSgx.Rand.ChaCha

structure Position where
  key : Fin 8 → W32
  counter : Nat
  consumed : Nat

def Position.start (key : Fin 8 → W32) : Position := ⟨key, 0, 0⟩

/-- After `m` reads, the next word is word `m % 16` of block `counter + m / 16`. -/
def Position.output (p : Position) : W32 :=
  (Reference.block p.key ((p.counter + p.consumed / 16) % 2^128)).get (Fin.ofNat p.consumed)

/-- The calls a caller can make on a constructed generator. -/
inductive Op
  | nextU32
  | setCounter (counterLow counterHigh : BitVec 64)
  | reseed (seed : List W32)

def Op.apply : Op → ChaChaRng → Option W32 × ChaChaRng
  | .nextU32, rng => ((ChaCha.nextU32 rng).1, (ChaCha.nextU32 rng).2)
  | .setCounter lo hi, rng => (none, ChaCha.setCounter rng lo hi)
  | .reseed seed, rng => (none, ChaCha.reseed rng seed)

/-- The same call on the keystream. `set_counter` keeps the key and sets block
`counter_high * 2^64 + counter_low`; `reseed` starts the padded seed at block zero. -/
def Op.advance : Op → Position → Option W32 × Position
  | .nextU32, p => (some p.output, { p with consumed := p.consumed + 1 })
  | .setCounter lo hi, p => (none, ⟨p.key, hi.toNat * 2^64 + lo.toNat, 0⟩)
  | .reseed seed, _ => (none, .start (Reference.pad8 seed))

def runWith (step : Op → σ → Option W32 × σ) : σ → List Op → List W32 × σ
  | s, [] => ([], s)
  | s, op :: ops =>
    let ws := runWith step (step op s).2 ops
    ((step op s).1.toList ++ ws.1, ws.2)

def run (rng : ChaChaRng) (ops : List Op) : List W32 × ChaChaRng := runWith Op.apply rng ops

def Position.run (p : Position) (ops : List Op) : List W32 × Position := runWith Op.advance p ops

/-- A relation kept by every call, on which both sides return the same word, makes two runs
return the same words and end related. -/
theorem runWith_simulation (stepA : Op → σ → Option W32 × σ)
    (stepB : Op → τ → Option W32 × τ) (related : τ → σ → Prop)
    (step : ∀ op a b, related b a → (stepA op a).1 = (stepB op b).1 ∧
      related (stepB op b).2 (stepA op a).2)
    (ops : List Op) (a : σ) (b : τ) (start : related b a) :
    (runWith stepA a ops).1 = (runWith stepB b ops).1 ∧
      related (runWith stepB b ops).2 (runWith stepA a ops).2 := by
  induction ops generalizing a b with
  | nil => exact ⟨rfl, start⟩
  | cons op ops ih =>
    obtain ⟨same, next⟩ := step op a b start
    obtain ⟨rest, final⟩ := ih _ _ next
    exact ⟨by simp only [runWith, same, rest], final⟩

/-- The generator sits at position `p`: its state is the input matrix of the next block to
compute, and while a block is partly read the buffer holds that block. -/
structure Positioned (p : Position) (rng : ChaChaRng) : Prop where
  state : rng.state = Reference.matrix p.key (p.counter + (p.consumed + 15) / 16)
  index : rng.index = if p.consumed % 16 = 0 then 16 else p.consumed % 16
  buffer : p.consumed % 16 ≠ 0 →
    rng.buffer = Reference.block p.key ((p.counter + p.consumed / 16) % 2^128)

theorem Positioned.index_le (h : Positioned p rng) : rng.index ≤ 16 := by
  rw [h.index]; split <;> omega

theorem Positioned.key (h : Positioned p rng) (i : Fin 8) : rng.state.get (keySlot i) = p.key i := by
  rw [h.state]
  simp [Reference.matrix, keySlot, show ¬4 + i.val < 4 by omega, show 4 + i.val < 12 by omega]

theorem nextU32_of_full (full : rng.index = stateWords) :
    nextU32 rng = ((update rng).buffer.get (Fin.ofNat 0), { update rng with index := 1 }) := by
  simp [nextU32, full, update_index]

theorem nextU32_of_inBlock (inBlock : rng.index ≠ stateWords) :
    nextU32 rng = (rng.buffer.get (Fin.ofNat rng.index), { rng with index := rng.index + 1 }) := by
  simp [nextU32, inBlock]

theorem ofNat_mod (m : Nat) : (Fin.ofNat (m % 16) : Fin 16) = Fin.ofNat m := by
  ext; simp [Fin.ofNat]

/-- A read returns the word of the keystream and moves one word on. At a block boundary it
computes the block, whose number the state holds, and moves the counter on. -/
theorem nextU32_positioned (h : Positioned p rng) :
    (nextU32 rng).1 = p.output ∧
      Positioned { p with consumed := p.consumed + 1 } (nextU32 rng).2 := by
  by_cases boundary : p.consumed % 16 = 0
  · have blocks : (p.consumed + 15) / 16 = p.consumed / 16 := by omega
    have buffer : (update rng).buffer =
        Reference.block p.key ((p.counter + p.consumed / 16) % 2^128) := by
      rw [update_buffer, h.state, core_refines, blocks, block_mod]
    rw [nextU32_of_full (by rw [h.index, if_pos boundary]; rfl)]
    refine ⟨?_, ⟨?_, ?_, fun _ => ?_⟩⟩
    · rw [buffer, Position.output, ← ofNat_mod p.consumed, boundary]
    · rw [update_state, h.state, counter_matrix, matrix_withCounter, ← matrix_mod,
        Nat.mod_add_mod, matrix_mod]
      dsimp only; congr 1; omega
    · simp only [if_neg (show ¬(p.consumed + 1) % 16 = 0 by omega)]; omega
    · rw [buffer, show (p.consumed + 1) / 16 = p.consumed / 16 by omega]
  · have index : rng.index = p.consumed % 16 := by rw [h.index, if_neg boundary]
    rw [nextU32_of_inBlock (by rw [index, stateWords]; omega)]
    refine ⟨?_, ⟨?_, ?_, fun more => ?_⟩⟩
    · rw [h.buffer boundary, index, ofNat_mod, Position.output]
    · rw [h.state]; dsimp only; congr 2; omega
    · simp only [index]; split <;> omega
    · dsimp only at more
      rw [h.buffer boundary, show (p.consumed + 1) / 16 = p.consumed / 16 by omega]

/-- A generator holding the matrix of block `n`, with its buffer used up, is at the start of
that block. -/
theorem positioned_start {key : Fin 8 → W32} {n : Nat} (state : rng.state = Reference.matrix key n)
    (index : rng.index = stateWords) : Positioned ⟨key, n, 0⟩ rng :=
  ⟨by rw [state]; simp, index, fun zero => absurd rfl zero⟩

theorem setCounter_positioned (h : Positioned p rng) (lo hi : BitVec 64) :
    Positioned ⟨p.key, hi.toNat * 2^64 + lo.toNat, 0⟩ (setCounter rng lo hi) :=
  positioned_start (by rw [setCounter_state, h.state, matrix_withCounter]) rfl

theorem reseed_positioned (rng : ChaChaRng) (seed : List W32) :
    Positioned (.start (Reference.pad8 seed)) (reseed rng seed) :=
  positioned_start (reseed_state rng seed) rfl

theorem apply_positioned (op : Op) (h : Positioned p rng) :
    (op.apply rng).1 = (op.advance p).1 ∧ Positioned (op.advance p).2 (op.apply rng).2 := by
  cases op with
  | nextU32 =>
    obtain ⟨word, next⟩ := nextU32_positioned h
    exact ⟨by rw [Op.apply, Op.advance, word], next⟩
  | setCounter lo hi => exact ⟨rfl, setCounter_positioned h lo hi⟩
  | reseed seed => exact ⟨rfl, reseed_positioned rng seed⟩

/-- The constructors, each with the keystream position its generator starts at; `rand` starts
at block zero of the key made of the eight words it draws. -/
inductive Initial : ChaChaRng → Position → Prop
  | newUnseeded : Initial newUnseeded (.start (Reference.pad8 []))
  | fromSeed (seed : List W32) : Initial (ChaCha.fromSeed seed) (.start (Reference.pad8 seed))
  | rand {R : Type} (gen : R → W32 × R) (other : R) :
      Initial (ChaCha.rand gen other).1 (.start (Reference.pad8 (drawnKey gen other)))

theorem Initial.positioned (start : Initial rng p) : Positioned p rng := by
  cases start with
  | newUnseeded => exact positioned_start newUnseeded_state rfl
  | fromSeed seed => exact reseed_positioned empty seed
  | rand gen other => rw [rand_draws]; exact reseed_positioned empty _

/-- From every constructor, along every sequence of `next_u32`, `set_counter` and `reseed`
calls, the generator returns the words of the keystream, keeps its index within the buffer,
and holds in `state[4..12]` the key of the last `reseed`. -/
theorem run_refines_keystream (start : Initial rng p) (ops : List Op) :
    (run rng ops).2.index ≤ 16 ∧ (run rng ops).1 = (p.run ops).1 ∧
      ∀ i : Fin 8, (run rng ops).2.state.get (keySlot i) = (p.run ops).2.key i := by
  obtain ⟨words, final⟩ := runWith_simulation Op.apply Op.advance Positioned
    (fun op _ _ h => apply_positioned op h) ops rng p start.positioned
  exact ⟨final.index_le, words, final.key⟩

theorem keystream_of_newUnseeded :
    Initial newUnseeded (.start (Reference.pad8 [])) ∧
      (run newUnseeded [.nextU32]).2.index ≤ 16 ∧
      (run newUnseeded [.nextU32]).1 = ((Position.start (Reference.pad8 [])).run [.nextU32]).1 ∧
      ∀ i : Fin 8, (run newUnseeded [.nextU32]).2.state.get (keySlot i) =
        ((Position.start (Reference.pad8 [])).run [.nextU32]).2.key i :=
  ⟨.newUnseeded, run_refines_keystream .newUnseeded [.nextU32]⟩

/-- The generators some run of calls reaches from a constructor. -/
def Reachable (rng : ChaChaRng) : Prop :=
  ∃ start p ops, Initial start p ∧ (run start ops).2 = rng

theorem Reachable.positioned (reach : Reachable rng) : ∃ p, Positioned p rng := by
  obtain ⟨start, p, ops, initial, rfl⟩ := reach
  exact ⟨_, (runWith_simulation Op.apply Op.advance Positioned
    (fun op _ _ h => apply_positioned op h) ops start p initial.positioned).2⟩

def reads (m : Nat) (rng : ChaChaRng) : ChaChaRng := (fun rng => (nextU32 rng).2)^[m] rng

theorem reads_positioned (h : Positioned p rng) (m : Nat) :
    Positioned { p with consumed := p.consumed + m } (reads m rng) := by
  induction m generalizing p rng with
  | zero => exact h
  | succ m ih =>
    rw [reads, Function.iterate_succ_apply]
    simpa [Nat.add_assoc, Nat.add_comm 1 m] using ih (nextU32_positioned h).2

/-! ## Seeking and reading -/

theorem Positioned.run (h : Positioned p rng) (ops : List Op) : (run rng ops).1 = (p.run ops).1 :=
  (runWith_simulation Op.apply Op.advance Positioned (fun op _ _ h => apply_positioned op h) ops
    rng p h).1

/-- Two places with the same key, the same block modulo `2^128` and the same word in it. -/
structure Position.Same (p q : Position) : Prop where
  key : p.key = q.key
  offset : p.consumed % 16 = q.consumed % 16
  block : (p.counter + p.consumed / 16) % 2^128 = (q.counter + q.consumed / 16) % 2^128

theorem Position.Same.output (same : Position.Same p q) : p.output = q.output := by
  rw [Position.output, Position.output, same.key, same.block, ← ofNat_mod p.consumed, same.offset,
    ofNat_mod]

theorem Position.Same.advance (same : Position.Same p q) (op : Op) :
    (op.advance p).1 = (op.advance q).1 ∧ (op.advance p).2.Same (op.advance q).2 := by
  cases op with
  | nextU32 =>
    have offset := same.offset
    have block := same.block
    exact ⟨by rw [Op.advance, Op.advance, same.output], same.key,
      by simp only [Op.advance]; omega, by simp only [Op.advance]; omega⟩
  | setCounter lo hi => exact ⟨rfl, same.key, rfl, rfl⟩
  | reseed seed => exact ⟨rfl, rfl, rfl, rfl⟩

theorem Position.Same.run (same : Position.Same p q) (ops : List Op) :
    (p.run ops).1 = (q.run ops).1 :=
  (runWith_simulation Op.advance Op.advance (fun q p => p.Same q)
    (fun op _ _ h => h.advance op) ops p q same).1

theorem reachable_newUnseeded : Reachable newUnseeded :=
  ⟨newUnseeded, _, [], .newUnseeded, rfl⟩

/-- Reading `n` words after `set_counter(lo, hi)` is seeking `n / 16` blocks further and
reading `n % 16` words: every later run of calls returns the same words from the two. -/
theorem seek_agrees_with_reads (reach : Reachable rng) (lo hi lo' hi' : BitVec 64) (n : Nat)
    (ahead : (hi'.toNat * 2^64 + lo'.toNat) % 2^128 =
      (hi.toNat * 2^64 + lo.toNat + n / 16) % 2^128)
    (ops : List Op) :
    (run (reads n (setCounter rng lo hi)) ops).1 =
      (run (reads (n % 16) (setCounter rng lo' hi')) ops).1 := by
  obtain ⟨p, h⟩ := reach.positioned
  rw [(reads_positioned (setCounter_positioned h lo hi) n).run,
    (reads_positioned (setCounter_positioned h lo' hi') (n % 16)).run]
  apply Position.Same.run
  exact ⟨rfl, by simp, by simp; omega⟩

theorem seek_agrees_with_reads_at_block_one :
    Reachable newUnseeded ∧
      ((0 : BitVec 64).toNat * 2^64 + (1 : BitVec 64).toNat) % 2^128 =
        ((0 : BitVec 64).toNat * 2^64 + (0 : BitVec 64).toNat + 20 / 16) % 2^128 ∧
      (run (reads 20 (setCounter newUnseeded 0 0)) [.nextU32]).1 =
        (run (reads (20 % 16) (setCounter newUnseeded 1 0)) [.nextU32]).1 :=
  ⟨reachable_newUnseeded, by decide,
    seek_agrees_with_reads reachable_newUnseeded 0 0 1 0 20 (by decide) [.nextU32]⟩

theorem Initial.start (start : Initial rng p) : p.counter = 0 ∧ p.consumed = 0 := by
  cases start <;> exact ⟨rfl, rfl⟩

/-- From any constructor, `next_u32` computes a block only once the buffer is used up: after
`m` reads the counter in `state[12..16]` has moved on by `⌈m / 16⌉`. -/
theorem counter_after_reads (start : Initial rng p) (m : Nat) :
    counter (reads m rng).state = (m + 15) / 16 % 2^128 := by
  obtain ⟨zero, fresh⟩ := start.start
  rw [(reads_positioned start.positioned m).state, counter_matrix, zero, fresh]
  simp

theorem counter_after_reads_of_newUnseeded :
    Initial newUnseeded (.start (Reference.pad8 [])) ∧
      counter (reads 17 newUnseeded).state = (17 + 15) / 16 % 2^128 :=
  ⟨.newUnseeded, counter_after_reads .newUnseeded 17⟩

/-- `n` calls of `next_u32`: the words they return, in order, and the generator they leave. -/
theorem run_replicate_nextU32 (rng : ChaChaRng) (n : Nat) :
    run rng (List.replicate n .nextU32) =
      ((List.range n).map fun i => (nextU32 ((fun r => (nextU32 r).2)^[i] rng)).1,
        (fun r => (nextU32 r).2)^[n] rng) := by
  induction n generalizing rng with
  | zero => rfl
  | succ n ih =>
    rw [List.replicate_succ, run, runWith, ← run, ih, List.range_succ_eq_map]
    simp [Op.apply, Function.iterate_succ_apply]

/-- A generator seeded by `rand` from a ChaCha generator is keyed with the parent's next eight
words: it returns the keystream of that key from block zero, and the parent is left as eight
`next_u32` calls leave it. -/
theorem rand_of_chacha (rng : ChaChaRng) (ops : List Op) :
    (run (rand nextU32 rng).1 ops).1 =
        ((Position.start (Reference.pad8 (run rng (List.replicate 8 .nextU32)).1)).run ops).1 ∧
      (rand nextU32 rng).2 = (run rng (List.replicate 8 .nextU32)).2 := by
  rw [rand_draws, run_replicate_nextU32]
  exact ⟨(reseed_positioned empty _).run ops, rfl⟩

set_option maxRecDepth 100000 in
/-- The two words the documentation of `new_unseeded` names. -/
example : (run newUnseeded [.nextU32, .nextU32]).1 = [2917185654, 2419978656] := by decide

end TeaclaveSgx.Rand.ChaCha
