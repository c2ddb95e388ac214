import Mathlib.Logic.Function.Iterate
import Mathlib.Data.List.FinRange

/-! The ChaCha generator of `sgx_rand`, statement by statement. Words are `BitVec 32`,
so `Wrapping` arithmetic is the native one; an array of sixteen words is a function on
`Fin 16` kept in a structure, and every assignment of the macros is one `Words.set`. -/
namespace TeaclaveSgx.Rand.ChaCha

abbrev W32 := BitVec 32

/-- `[w32; STATE_WORDS]`. The structure keeps compiled code from re-evaluating an
assignment at every later read. -/
@[ext] structure Words where
  get : Fin 16 → W32

def Words.set (x : Words) (i : Fin 16) (v : W32) : Words := ⟨Function.update x.get i v⟩

def Words.zero : Words := ⟨fun _ => 0⟩

@[simp] theorem Words.get_set (x : Words) (i j : Fin 16) (v : W32) :
    (x.set i v).get j = if j = i then v else x.get j := Function.update_apply ..

def keyWords : Nat := 8
def stateWords : Nat := 16
def chachaRounds : Nat := 20

def addAssign (a b : Fin 16) (x : Words) : Words := x.set a (x.get a + x.get b)

def xorAssign (d a : Fin 16) (x : Words) : Words := x.set d (x.get d ^^^ x.get a)

def rotateAssign (d : Fin 16) (n : Nat) (x : Words) : Words :=
  x.set d ((x.get d).rotateLeft n)

def quarterRound (a b c d : Fin 16) (x : Words) : Words :=
  x |> addAssign a b |> xorAssign d a |> rotateAssign d 16
    |> addAssign c d |> xorAssign b c |> rotateAssign b 12
    |> addAssign a b |> xorAssign d a |> rotateAssign d 8
    |> addAssign c d |> xorAssign b c |> rotateAssign b 7

def doubleRound (x : Words) : Words :=
  x |> quarterRound 0 4 8 12 |> quarterRound 1 5 9 13
    |> quarterRound 2 6 10 14 |> quarterRound 3 7 11 15
    |> quarterRound 0 5 10 15 |> quarterRound 1 6 11 12
    |> quarterRound 2 7 8 13 |> quarterRound 3 4 9 14

/-- `core(output, input)`: the rounds on a copy of `input`, then the loop
`output[i] += input[i]` over the sixteen words. -/
def core (input : Words) : Words :=
  (List.finRange 16).foldl (fun output i => output.set i (output.get i + input.get i))
    (doubleRound^[chachaRounds / 2] input)

structure ChaChaRng where
  buffer : Words
  state : Words
  index : Nat

def empty : ChaChaRng := ⟨.zero, .zero, stateWords⟩

def keySlot (i : Fin 8) : Fin 16 := ⟨4 + i.val, by omega⟩

/-- `init(key)`: the four constants, the key and a zero counter; the index marks the buffer
used up, so the next read computes a block. -/
def init (rng : ChaChaRng) (key : Fin 8 → W32) : ChaChaRng :=
  let state := rng.state.set 0 0x61707865
  let state := state.set 1 0x3320646E
  let state := state.set 2 0x79622D32
  let state := state.set 3 0x6B206574
  let state := (List.finRange keyWords).foldl (fun state i => state.set (keySlot i) (key i)) state
  let state := state.set 12 0
  let state := state.set 13 0
  let state := state.set 14 0
  let state := state.set 15 0
  { rng with state := state, index := stateWords }

def newUnseeded : ChaChaRng := init empty (fun _ => 0)

/-- `set_counter(counter_low, counter_high)`: each `u64` gives two counter words by
`as u32` truncation. -/
def setCounter (rng : ChaChaRng) (counterLow counterHigh : BitVec 64) : ChaChaRng :=
  let state := rng.state.set 12 ((counterLow >>> 0).setWidth 32)
  let state := state.set 13 ((counterLow >>> 32).setWidth 32)
  let state := state.set 14 ((counterHigh >>> 0).setWidth 32)
  let state := state.set 15 ((counterHigh >>> 32).setWidth 32)
  { rng with state := state, index := stateWords }

def ChaChaRng.increment (rng : ChaChaRng) (i : Fin 16) : ChaChaRng :=
  { rng with state := rng.state.set i (rng.state.get i + 1) }

def update (rng : ChaChaRng) : ChaChaRng :=
  let rng := { rng with buffer := core rng.state, index := 0 }
  let rng := rng.increment 12
  if rng.state.get 12 ≠ 0 then rng else
  let rng := rng.increment 13
  if rng.state.get 13 ≠ 0 then rng else
  let rng := rng.increment 14
  if rng.state.get 14 ≠ 0 then rng else
  rng.increment 15

def nextU32 (rng : ChaChaRng) : W32 × ChaChaRng :=
  let rng := if rng.index = stateWords then update rng else rng
  (rng.buffer.get (Fin.ofNat rng.index), { rng with index := rng.index + 1 })

def reseed (rng : ChaChaRng) (seed : List W32) : ChaChaRng :=
  let rng := init rng (fun _ => 0)
  let state := ((List.finRange keyWords).zip seed).foldl
    (fun state ks => state.set (keySlot ks.1) ks.2) rng.state
  { rng with state := state }

def fromSeed (seed : List W32) : ChaChaRng := reseed empty seed

/-- `rand(other)`: eight words drawn in order by `gen`, which stands for
`other.gen::<u32>()`, then `from_seed` of the key slice. -/
def rand (gen : R → W32 × R) (other : R) : ChaChaRng × R :=
  let (key, other) := (List.finRange keyWords).foldl
    (fun (acc : (Fin 8 → W32) × R) i =>
      let (word, other) := gen acc.2
      (Function.update acc.1 i word, other))
    (fun _ => 0, other)
  (fromSeed (List.ofFn key), other)

end TeaclaveSgx.Rand.ChaCha
