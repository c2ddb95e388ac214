import TeaclaveSgx.Os.Paths

/-! `env` of `sys::os` and the entry parser nested in it, and the wrappers that hand a name to
the host. An entry `name=value` splits at the first `=` after its first byte, so a name may
start with `=` and a value may hold one. A wrapper turns each argument into a `CString` first,
so an argument with a NUL byte fails before any ocall. -/
namespace TeaclaveSgx.Os

/-- Modelled from the spec: `sys::memchr::memchr` is not under src/. It returns the index of
the first byte equal to `x`, the contract of libc `memchr`. -/
def memchr (x : UInt8) (text : Bytes) : Option Nat := text.findIdx? (· == x)

def equalsSign : UInt8 := 61

/-- `parse`: `None` for an empty entry or one with no `=` after its first byte; otherwise the
bytes before that `=` and the bytes after it. -/
def parse (input : Bytes) : Option (Bytes × Bytes) :=
  if input.isEmpty then none else
  let pos := (memchr equalsSign (input.drop 1)).map (· + 1)
  pos.map fun p => (input.take p, input.drop (p + 1))

/-- `env`, over the entries `environ()` returns: the loop that pushes every parsed entry and
skips the malformed ones. -/
def env (environ : List Bytes) : List (Bytes × Bytes) :=
  environ.foldl (fun result var =>
    match parse var with
    | some keyValue => result ++ [keyValue]
    | none => result) []

theorem parse_cons (c : UInt8) (rest : Bytes) :
    parse (c :: rest) = (memchr equalsSign rest).map
      fun q => (c :: rest.take q, rest.drop (q + 1)) := by
  simp [parse, Option.map_map, Function.comp_def]

/-- Where the first `=` after the first byte is `p`, `parse` cuts there. -/
theorem parse_of_first (input : Bytes) (p : Nat) (one : 1 ≤ p)
    (hit : input[p]? = some equalsSign)
    (first : ∀ j, 1 ≤ j → j < p → input[j]? ≠ some equalsSign) :
    p + 1 ≤ input.length ∧ parse input = some (input.take p, input.drop (p + 1)) := by
  obtain ⟨q, rfl⟩ : ∃ q, p = q + 1 := ⟨p - 1, by omega⟩
  cases input with
  | nil => simp at hit
  | cons c rest =>
    have bound := (List.getElem?_eq_some_iff.mp hit).1
    have inRest : q < rest.length := by simp at bound; omega
    refine ⟨bound, ?_⟩
    have found : memchr equalsSign rest = some q := by
      refine List.findIdx?_eq_some_iff_getElem.mpr ⟨inRest, ?_, fun j lt same => ?_⟩
      · simpa using (List.getElem?_eq_some_iff.mp (by simpa using hit)).2
      · apply first (j + 1) (by omega) (by omega)
        rw [List.getElem?_cons_succ, List.getElem?_eq_getElem (by omega), beq_iff_eq.mp same]
    simp [parse_cons, found]

theorem parse_eq_none (input : Bytes) :
    parse input = none ↔ input = [] ∨ equalsSign ∉ input.drop 1 := by
  cases input with
  | nil => simp [parse]
  | cons c rest => simp [parse_cons, memchr, List.forall_mem_ne']

/-- An accepted entry has a non-empty name and is `name ++ "=" ++ value`. -/
theorem parse_some (input key value : Bytes) (parsed : parse input = some (key, value)) :
    key ≠ [] ∧ key ++ equalsSign :: value = input := by
  cases input with
  | nil => simp [parse] at parsed
  | cons c rest =>
    rw [parse_cons] at parsed
    obtain ⟨q, found, same⟩ := Option.map_eq_some'.mp parsed
    obtain ⟨rfl, rfl⟩ := Prod.mk.inj same
    refine ⟨List.cons_ne_nil _ _, ?_⟩
    rw [List.cons_append, ← (findIdx?_beq found).1]

/-- A name without `=` after its first byte, then `=`, then any value, parses back. -/
theorem parse_append (key value : Bytes) (named : key ≠ []) (plain : equalsSign ∉ key.drop 1) :
    parse (key ++ equalsSign :: value) = some (key, value) := by
  have hit : (key ++ equalsSign :: value)[key.length]? = some equalsSign := by
    rw [List.getElem?_append_right (Nat.le_refl _)]; simp
  have cut := parse_of_first (key ++ equalsSign :: value) key.length
    (List.length_pos.mpr named) hit fun j one lt same => plain ?_
  · simpa using cut.2
  rw [List.getElem?_append_left lt, List.getElem?_eq_some_iff] at same
  obtain ⟨_, same⟩ := same
  rw [← same, List.mem_iff_getElem]
  exact ⟨j - 1, by simp; omega, by simp [List.getElem_drop]; congr 1; omega⟩

/-- `parse` returns `None` exactly on an entry with no `=` after its first byte; otherwise it
cuts at the first such `=`, with both slices in bounds, a non-empty name, and nothing lost. -/
theorem parse_spec :
    (∀ input : Bytes,
      (parse input = none ↔ input = [] ∨ equalsSign ∉ input.drop 1) ∧
      ∀ p, 1 ≤ p → input[p]? = some equalsSign →
        (∀ j, 1 ≤ j → j < p → input[j]? ≠ some equalsSign) →
        p + 1 ≤ input.length ∧ parse input = some (input.take p, input.drop (p + 1))) ∧
    (∀ input key value : Bytes, parse input = some (key, value) →
      key ≠ [] ∧ key ++ equalsSign :: value = input) ∧
    ∀ key value : Bytes, key ≠ [] → equalsSign ∉ key.drop 1 →
      parse (key ++ equalsSign :: value) = some (key, value) :=
  ⟨fun input => ⟨parse_eq_none input, parse_of_first input⟩, parse_some, parse_append⟩

theorem env_eq_filterMap (environ : List Bytes) : env environ = environ.filterMap parse := by
  suffices loop : ∀ result : List (Bytes × Bytes), environ.foldl (fun result var =>
      match parse var with
      | some keyValue => result ++ [keyValue]
      | none => result) result = result ++ environ.filterMap parse from loop []
  induction environ with
  | nil => simp
  | cons var environ ih =>
    intro result
    rw [List.foldl_cons, ih, List.filterMap_cons]
    cases parse var <;> simp

/-- Every pair `env` returns comes from an entry of the environment block, with a non-empty
name. -/
theorem mem_env (environ : List Bytes) (key value : Bytes) (mem : (key, value) ∈ env environ) :
    key ≠ [] ∧ key ++ equalsSign :: value ∈ environ := by
  rw [env_eq_filterMap, List.mem_filterMap] at mem
  obtain ⟨var, entry, parsed⟩ := mem
  obtain ⟨named, rfl⟩ := parse_some var key value parsed
  exact ⟨named, entry⟩

def formatEntry (keyValue : Bytes × Bytes) : Bytes := keyValue.1 ++ equalsSign :: keyValue.2

/-- `env` reads back every list of pairs written as `name=value` entries whose names are
non-empty with no `=` after their first byte; and writing out what `env` returns gives back
exactly the entries it accepts, in their order. -/
theorem env_roundTrip (pairs : List (Bytes × Bytes))
    (named : ∀ kv ∈ pairs, kv.1 ≠ [] ∧ equalsSign ∉ kv.1.drop 1) (environ : List Bytes) :
    env (pairs.map formatEntry) = pairs ∧
      (env environ).map formatEntry = environ.filter fun var => (parse var).isSome := by
  refine ⟨?_, ?_⟩
  · rw [env_eq_filterMap, List.filterMap_map]
    conv_rhs => rw [← List.filterMap_some pairs]
    refine List.filterMap_congr fun kv mem => ?_
    exact parse_append kv.1 kv.2 (named kv mem).1 (named kv mem).2
  · rw [env_eq_filterMap, List.map_filterMap, ← List.filterMap_eq_filter]
    refine List.filterMap_congr fun var _ => ?_
    cases parsed : parse var with
    | none => simp [Option.guard, parsed]
    | some kv => simp [Option.guard, parsed, formatEntry, (parse_some var kv.1 kv.2 parsed).2]

theorem env_roundTrip_one_pair :
    (∀ kv ∈ [(([65] : Bytes), ([66] : Bytes))], kv.1 ≠ [] ∧ equalsSign ∉ kv.1.drop 1) ∧
      env ([(([65] : Bytes), ([66] : Bytes))].map formatEntry) = [([65], [66])] ∧
      (env [[61], [65, 61]]).map formatEntry =
        [[61], [65, 61]].filter fun var => (parse var).isSome :=
  ⟨by decide, env_roundTrip [([65], [66])] (by decide) [[61], [65, 61]]⟩

/-- A `CString` of `alloc`: bytes with no NUL among them, the terminator left implicit. -/
structure CString where
  bytes : Bytes
  nul_free : 0 ∉ bytes

structure NulError where
  position : Nat
  bytes : Bytes
  deriving DecidableEq, Repr

/-- `CString::new`, library code of `alloc` as it is written there: it fails at the first NUL
byte. -/
def CString.new (bytes : Bytes) : Except NulError CString :=
  match found : memchr 0 bytes with
  | some i => .error ⟨i, bytes⟩
  | none => .ok ⟨bytes, fun nul => by
      simpa using List.findIdx?_eq_none_iff.mp found 0 nul⟩

/-- The `io::Error`s of the wrappers: `InvalidInput` with its message, or the error an ocall
reports through `cvt_ocall`. -/
inductive IoError
  | invalidInput (message : String)
  | os (code : Int)
  deriving DecidableEq, Repr

def NulError.toIoError (_ : NulError) : IoError :=
  .invalidInput "data provided contains a nul byte"

/-- `CString::new(bytes)?` in a function that returns `io::Result`, then the rest of it. -/
def withCString (bytes : Bytes) (rest : CString → Except IoError α) : Except IoError α := do
  let c ← (CString.new bytes).mapError NulError.toIoError
  rest c

/-- `environ`: the host's block, or nothing if the ocall fails (`unwrap_or_default`). -/
def environ (ocall : Except IoError (List CString)) : List CString :=
  match ocall with
  | .ok vars => vars
  | .error _ => []

def chdir (ocall : CString → Except IoError Unit) (p : Bytes) : Except IoError Unit :=
  withCString p ocall

def getenv (ocall : CString → Except IoError (Option CString)) (k : Bytes) :
    Except IoError (Option Bytes) :=
  withCString k fun k => (ocall k).map fun opt => opt.map CString.bytes

/-- `setenv`, overwriting (the flag `1`); it checks the name, then the value. -/
def setenv (ocall : CString → CString → Int → Except IoError Unit) (k v : Bytes) :
    Except IoError Unit :=
  withCString k fun k => withCString v fun v => ocall k v 1

def unsetenv (ocall : CString → Except IoError Unit) (n : Bytes) : Except IoError Unit :=
  withCString n ocall

theorem CString.new_of_nul_free (bytes : Bytes) (free : 0 ∉ bytes) :
    CString.new bytes = .ok ⟨bytes, free⟩ := by
  unfold CString.new
  split
  · rename_i found
    exact absurd (by rw [(findIdx?_beq found).1]; simp) free
  · rfl

/-- On bytes with a NUL, `CString::new` reports the first one. -/
theorem CString.new_of_nul (bytes : Bytes) (nul : 0 ∈ bytes) : ∃ i,
    CString.new bytes = .error ⟨i, bytes⟩ ∧
      bytes = bytes.take i ++ 0 :: bytes.drop (i + 1) ∧ 0 ∉ bytes.take i := by
  unfold CString.new
  split
  · rename_i i found
    exact ⟨i, rfl, findIdx?_beq found⟩
  · rename_i found
    simpa using List.findIdx?_eq_none_iff.mp found 0 nul

/-- An argument with a NUL byte fails with `InvalidInput` and the rest never runs; any other
reaches the rest unchanged. -/
theorem withCString_spec (bytes : Bytes) (rest : CString → Except IoError α) :
    (0 ∈ bytes →
      withCString bytes rest = .error (.invalidInput "data provided contains a nul byte")) ∧
    ∀ free : 0 ∉ bytes, withCString bytes rest = rest ⟨bytes, free⟩ := by
  refine ⟨fun nul => ?_, fun free => ?_⟩
  · obtain ⟨i, refused, _⟩ := CString.new_of_nul bytes nul
    rw [withCString, refused]
    rfl
  · rw [withCString, CString.new_of_nul_free bytes free]
    rfl

/-- Every name `env` lists from the host's block passes the `CString` check of `getenv`, which
hands the host that very name. -/
theorem getenv_listed (result : Except IoError (List CString))
    (ocall : CString → Except IoError (Option CString)) (key value : Bytes)
    (listed : (key, value) ∈ env ((environ result).map CString.bytes)) :
    ∃ name : CString, name.bytes = key ∧
      getenv ocall key = (ocall name).map fun opt => opt.map CString.bytes := by
  obtain ⟨_, entry⟩ := mem_env _ key value listed
  obtain ⟨var, _, same⟩ := List.mem_map.mp entry
  have free : 0 ∉ key := fun nul => var.nul_free (same ▸ List.mem_append_left _ nul)
  exact ⟨⟨key, free⟩, rfl, (withCString_spec key _).2 free⟩

theorem getenv_listed_name :
    (([65], [66]) : Bytes × Bytes) ∈
        env ((environ (.ok [⟨[65, 61, 66], by decide⟩])).map CString.bytes) ∧
      ∃ name : CString, name.bytes = [65] ∧
        getenv (fun _ => .ok none) [65] =
          ((fun _ => .ok none : CString → Except IoError (Option CString)) name).map
            fun opt => opt.map CString.bytes :=
  ⟨by decide, getenv_listed (.ok [⟨[65, 61, 66], by decide⟩]) (fun _ => .ok none) [65] [66]
    (by decide)⟩

end TeaclaveSgx.Os
