import TeaclaveSgx.Rand.ChaCha
import Mathlib.Algebra.Group.Nat.Basic

/-! The reference ChaCha20 block function, as the paper the source cites states it, on four
words at a time, and the proof that `core` computes it on every input. The code runs every
quarter-round in place, one assignment after another, on the sixteen-word array; the
reference reads four words, mixes them, and writes four words back. -/
namespace TeaclaveSgx.Rand.ChaCha

/-- The words of `"expand 32-byte k"`. -/
def Reference.sigma : Fin 4 → W32
  | 0 => 0x61707865 | 1 => 0x3320646E | 2 => 0x79622D32 | 3 => 0x6B206574

/-- The input matrix: the constants, the key words, and the block number `n` as four
little-endian words. -/
def Reference.matrix (key : Fin 8 → W32) (n : Nat) : Words := ⟨fun i =>
  if h : i.val < 4 then sigma ⟨i.val, h⟩
  else if h' : i.val < 12 then key ⟨i.val - 4, by omega⟩
  else BitVec.ofNat 32 (n / 2 ^ (32 * (i.val - 12)))⟩

/-- The first eight words of a seed, padded with zeros. -/
def Reference.pad8 (seed : List W32) : Fin 8 → W32 := fun i => seed.getD i 0

def Reference.quarterRound (a b c d : W32) : W32 × W32 × W32 × W32 :=
  let a := a + b; let d := (d ^^^ a).rotateLeft 16
  let c := c + d; let b := (b ^^^ c).rotateLeft 12
  let a := a + b; let d := (d ^^^ a).rotateLeft 8
  let c := c + d; let b := (b ^^^ c).rotateLeft 7
  (a, b, c, d)

def Reference.quarterRoundAt (a b c d : Fin 16) (x : Words) : Words :=
  let q := quarterRound (x.get a) (x.get b) (x.get c) (x.get d)
  (((x.set a q.1).set b q.2.1).set c q.2.2.1).set d q.2.2.2

def Reference.columnRound (x : Words) : Words :=
  x |> quarterRoundAt 0 4 8 12 |> quarterRoundAt 1 5 9 13
    |> quarterRoundAt 2 6 10 14 |> quarterRoundAt 3 7 11 15

def Reference.diagonalRound (x : Words) : Words :=
  x |> quarterRoundAt 0 5 10 15 |> quarterRoundAt 1 6 11 12
    |> quarterRoundAt 2 7 8 13 |> quarterRoundAt 3 4 9 14

def Reference.doubleRound (x : Words) : Words := diagonalRound (columnRound x)

def Reference.block (key : Fin 8 → W32) (n : Nat) : Words :=
  let input := matrix key n
  ⟨fun i => (doubleRound^[10] input).get i + input.get i⟩

/-- The twelve in-place assignments of `quarter_round!` are the reference quarter-round,
whenever the four indices are distinct. -/
theorem quarterRound_refines (a b c d : Fin 16) (x : Words)
    (hab : a ≠ b) (hac : a ≠ c) (had : a ≠ d) (hbc : b ≠ c) (hbd : b ≠ d) (hcd : c ≠ d) :
    quarterRound a b c d x = Reference.quarterRoundAt a b c d x := by
  ext1; funext i
  simp only [quarterRound, addAssign, xorAssign, rotateAssign, Reference.quarterRoundAt,
    Reference.quarterRound, Words.get_set, if_pos rfl, if_neg hab, if_neg hac, if_neg had,
    if_neg hbc, if_neg hbd, if_neg hcd, if_neg hab.symm, if_neg hac.symm, if_neg had.symm,
    if_neg hbc.symm, if_neg hbd.symm, if_neg hcd.symm]
  rcases eq_or_ne i d with rfl | hd
  · simp [had.symm, hbd.symm, hcd.symm]
  rcases eq_or_ne i c with rfl | hc
  · simp [hac.symm, hbc.symm, hcd]
  rcases eq_or_ne i b with rfl | hb
  · simp [hab.symm, hbc, hbd]
  rcases eq_or_ne i a with rfl | ha
  · simp [hab, hac, had]
  simp [ha, hb, hc, hd]

theorem doubleRound_refines (x : Words) : doubleRound x = Reference.doubleRound x := by
  simp only [doubleRound, Reference.doubleRound, Reference.columnRound, Reference.diagonalRound]
  repeat rw [quarterRound_refines _ _ _ _ _ (by decide) (by decide) (by decide) (by decide)
    (by decide) (by decide)]

/-- The loop `output[i] += input[i]` adds the input once at each index it visits. -/
theorem get_foldl_add (l : List (Fin 16)) (nodup : l.Nodup) (input output : Words)
    (i : Fin 16) :
    (l.foldl (fun output j => output.set j (output.get j + input.get j)) output).get i =
      if i ∈ l then output.get i + input.get i else output.get i := by
  induction l generalizing output with
  | nil => simp
  | cons j l ih =>
    obtain ⟨fresh, nodup⟩ := List.nodup_cons.mp nodup
    rw [List.foldl_cons, ih nodup]
    by_cases hj : i = j
    · subst hj; simp [fresh]
    · simp [hj]

theorem core_eq (input : Words) :
    core input = ⟨fun i => (doubleRound^[10] input).get i + input.get i⟩ := by
  ext1; funext i
  simp [core, chachaRounds, get_foldl_add _ (List.nodup_finRange 16)]

/-- `core` is the reference block function on every key and block number. -/
theorem core_refines (key : Fin 8 → W32) (n : Nat) :
    core (Reference.matrix key n) = Reference.block key n := by
  have rounds : doubleRound = Reference.doubleRound := funext doubleRound_refines
  rw [core_eq, rounds, Reference.block]

/-- On every sixteen-word input, not only on the matrices the generator builds, `core` is ten
reference double rounds followed by the word-wise sum with the input; and the twelve in-place
assignments of `quarter_round!` are the reference quarter-round on any four distinct words. -/
theorem core_reference (input : Words) :
    core input = ⟨fun i => (Reference.doubleRound^[10] input).get i + input.get i⟩ ∧
      ∀ (a b c d : Fin 16) (x : Words),
        a ≠ b → a ≠ c → a ≠ d → b ≠ c → b ≠ d → c ≠ d →
          quarterRound a b c d x = Reference.quarterRoundAt a b c d x := by
  refine ⟨?_, fun a b c d x => quarterRound_refines a b c d x⟩
  rw [core_eq, show doubleRound = Reference.doubleRound from funext doubleRound_refines]

theorem core_reference_first_column :
    (0 : Fin 16) ≠ 4 ∧ (0 : Fin 16) ≠ 8 ∧ (0 : Fin 16) ≠ 12 ∧ (4 : Fin 16) ≠ 8 ∧
      (4 : Fin 16) ≠ 12 ∧ (8 : Fin 16) ≠ 12 ∧
      core Words.zero =
        ⟨fun i => (Reference.doubleRound^[10] Words.zero).get i + Words.zero.get i⟩ ∧
      quarterRound 0 4 8 12 Words.zero = Reference.quarterRoundAt 0 4 8 12 Words.zero :=
  ⟨by decide, by decide, by decide, by decide, by decide, by decide,
    (core_reference Words.zero).1,
    (core_reference Words.zero).2 0 4 8 12 Words.zero (by decide) (by decide) (by decide)
      (by decide) (by decide) (by decide)⟩

end TeaclaveSgx.Rand.ChaCha
