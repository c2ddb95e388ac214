import Mathlib.Data.List.Basic

/-! `split_paths` and `join_paths` of `sys::os`, on the bytes of an `OsStr`. `split_paths`
wraps the iterator `slice::Split` of `core`, whose `next` is modelled here as it is written
there, with its `finished` flag; its pieces are `List.splitOn`, one more than the separators,
and the two functions are inverse on the lists `join_paths` accepts. -/
namespace TeaclaveSgx.Os

abbrev Bytes := List UInt8

def pathSeparator : UInt8 := 58

def isSeparator (b : UInt8) : Bool := b == pathSeparator

/-- The state of `slice::Split`: the bytes not yet split, and whether the last piece is out. -/
structure Split where
  v : Bytes
  finished : Bool

/-- `Split::next`: the piece before the first separator, or, with no separator left, the
rest once (`finish`). -/
def Split.next (it : Split) : Option (Bytes × Split) :=
  if it.finished then none else
  match it.v.findIdx? isSeparator with
  | none => some (it.v, ⟨it.v, true⟩)
  | some idx => some (it.v.take idx, ⟨it.v.drop (idx + 1), false⟩)

/-- What is left to yield: every `next` that yields lowers it. -/
def Split.remaining (it : Split) : Nat := it.v.length + if it.finished then 0 else 1

theorem Split.next_remaining {it rest : Split} (h : it.next = some (piece, rest)) :
    rest.remaining < it.remaining := by
  unfold next at h
  split at h
  · cases h
  · split at h <;> cases h
    · simp [remaining, *]
    · rename_i idx found
      have := (List.findIdx?_eq_some_iff_findIdx_eq.mp found).1
      simp [remaining, *]; omega

def Split.toList (it : Split) : List Bytes :=
  match _yielded : it.next with
  | none => []
  | some (piece, rest) => piece :: rest.toList
termination_by it.remaining
decreasing_by exact Split.next_remaining ‹_›

/-- `split_paths(unparsed)`: the paths are the pieces of `unparsed.split(is_separator)`. -/
def splitPaths (unparsed : Bytes) : Split := ⟨unparsed, false⟩

structure JoinPathsError where
  deriving DecidableEq, Repr

/-- The loop of `join_paths` over `paths.enumerate()`, from position `i` with `joined` so far:
a separator before every path but the first, and an error at the first path holding one. -/
def joinPathsLoop (joined : Bytes) : Nat → List Bytes → Except JoinPathsError Bytes
  | _, [] => .ok joined
  | i, path :: paths =>
    let joined := if i > 0 then joined ++ [pathSeparator] else joined
    if path.contains pathSeparator then .error ⟨⟩ else joinPathsLoop (joined ++ path) (i + 1) paths

def joinPaths (paths : List Bytes) : Except JoinPathsError Bytes := joinPathsLoop [] 0 paths

theorem Split.toList_of_none {it : Split} (h : it.next = none) : it.toList = [] := by
  rw [toList]; split <;> simp_all
theorem Split.toList_of_some {it rest : Split} (h : it.next = some (piece, rest)) :
    it.toList = piece :: rest.toList := by
  rw [toList]; split <;> simp_all

/-- The byte `findIdx?` finds is the first one equal to `x`. -/
theorem findIdx?_beq {v : Bytes} (found : v.findIdx? (· == x) = some idx) :
    v = v.take idx ++ x :: v.drop (idx + 1) ∧ x ∉ v.take idx := by
  obtain ⟨lt, hit, before⟩ := List.findIdx?_eq_some_iff_getElem.mp found
  refine ⟨?_, fun mem => ?_⟩
  · rw [← beq_iff_eq.mp hit, ← List.drop_eq_getElem_cons lt, List.take_append_drop]
  obtain ⟨j, hj, eq⟩ := List.getElem_of_mem mem
  simp only [List.length_take] at hj
  have := before j (by omega)
  simp_all

/-- An unfinished iterator yields the pieces of `List.splitOn`, a finished one nothing. -/
theorem Split.toList_eq (it : Split) :
    it.toList = if it.finished then [] else it.v.splitOn pathSeparator := by
  induction it using Split.toList.induct with
  | case1 it none =>
    rw [toList_of_none none]
    unfold next at none
    split at none
    · simp [*]
    · split at none <;> cases none
  | case2 it piece rest some ih =>
    rw [toList_of_some some, ih]
    unfold next at some
    split at some
    · cases some
    · rename_i unfinished
      split at some <;> cases some
      · rename_i missing
        rw [List.findIdx?_eq_none_iff] at missing
        simp only [if_true, unfinished, if_false]
        exact (List.splitOnP_eq_single _ _ (by simpa [isSeparator] using missing)).symm
      · rename_i idx found
        obtain ⟨split, before⟩ := findIdx?_beq found
        simp only [if_false, unfinished]
        conv_rhs => rw [split]
        refine (List.splitOnP_first _ _ (fun b mem same => before ?_) _ (by simp) _).symm
        rwa [← beq_iff_eq.mp same]

/-- No piece the iterator yields holds a separator. -/
theorem Split.separator_not_mem (it : Split) : ∀ piece ∈ it.toList, pathSeparator ∉ piece := by
  induction it using Split.toList.induct with
  | case1 it none => simp [toList_of_none none]
  | case2 it piece rest some ih =>
    rw [toList_of_some some]
    refine List.forall_mem_cons.mpr ⟨?_, ih⟩
    unfold next at some
    split at some
    · cases some
    · split at some <;> cases some
      · rename_i missing
        rw [List.findIdx?_eq_none_iff] at missing
        simpa [isSeparator] using missing pathSeparator
      · exact (findIdx?_beq ‹_›).2

theorem splitPaths_toList (unparsed : Bytes) :
    (splitPaths unparsed).toList = unparsed.splitOn pathSeparator := by
  simp [splitPaths, Split.toList_eq]

theorem intercalate_cons (x : UInt8) (path : Bytes) (paths : List Bytes) :
    [x].intercalate (path :: paths) = path ++ paths.flatMap (x :: ·) := by
  induction paths generalizing path with
  | nil => simp [List.intercalate]
  | cons next paths ih =>
    simp only [List.intercalate, List.intersperse_cons₂, List.flatten_cons] at ih ⊢
    rw [ih]; simp

/-- After the first path, each path is pushed after a separator, unless it holds one. -/
theorem joinPathsLoop_succ (joined : Bytes) (i : Nat) (paths : List Bytes) :
    joinPathsLoop joined (i + 1) paths =
      if ∃ path ∈ paths, pathSeparator ∈ path then .error ⟨⟩
      else .ok (joined ++ paths.flatMap (pathSeparator :: ·)) := by
  induction paths generalizing joined i with
  | nil => simp [joinPathsLoop]
  | cons path paths ih =>
    by_cases bad : pathSeparator ∈ path
    · simp [joinPathsLoop, bad]
    · simp [joinPathsLoop, bad, ih]

theorem joinPaths_eq (paths : List Bytes) :
    joinPaths paths =
      if ∃ path ∈ paths, pathSeparator ∈ path then .error ⟨⟩
      else .ok ([pathSeparator].intercalate paths) := by
  cases paths with
  | nil => rfl
  | cons path paths =>
    by_cases bad : pathSeparator ∈ path
    · simp [joinPaths, joinPathsLoop, bad]
    · simp [joinPaths, joinPathsLoop, bad, joinPathsLoop_succ, intercalate_cons]

/-- `join_paths` fails exactly when a path holds the separator; otherwise it puts one
separator between consecutive paths, and `split_paths` gives the paths back. -/
theorem joinPaths_spec (paths : List Bytes) :
    (joinPaths paths = .error ⟨⟩ ↔ ∃ path ∈ paths, pathSeparator ∈ path) ∧
    ((∀ path ∈ paths, pathSeparator ∉ path) →
      joinPaths paths = .ok ([pathSeparator].intercalate paths) ∧
      (splitPaths ([pathSeparator].intercalate paths)).toList =
        if paths = [] then [[]] else paths) := by
  refine ⟨?_, fun clean => ⟨?_, ?_⟩⟩
  · rw [joinPaths_eq]; split <;> simp_all
  · rw [joinPaths_eq, if_neg (by simpa using clean)]
  · rw [splitPaths_toList]
    split
    · subst paths; rfl
    · exact List.splitOn_intercalate paths pathSeparator clean ‹_›

/-- The pieces of any byte string are separator-free, and joining them rebuilds it. -/
theorem splitPaths_joinPaths (unparsed : Bytes) :
    (∀ piece ∈ (splitPaths unparsed).toList, pathSeparator ∉ piece) ∧
      joinPaths (splitPaths unparsed).toList = .ok unparsed := by
  have clean := Split.separator_not_mem (splitPaths unparsed)
  refine ⟨clean, ?_⟩
  rw [joinPaths_eq, if_neg (by simpa using clean), splitPaths_toList, List.intercalate_splitOn]

theorem length_splitOn (v : Bytes) :
    (v.splitOn pathSeparator).length = v.count pathSeparator + 1 := by
  induction v with
  | nil => rfl
  | cons b v ih =>
    rw [List.splitOn, List.splitOnP_cons, List.count_cons, ← List.splitOn]
    split <;> simp_all [List.length_modifyHead]

/-- The pieces of `a`, a separator and `b` are the pieces of `a`, then those of `b`. -/
theorem splitOn_append_separator (a b : Bytes) :
    (a ++ pathSeparator :: b).splitOn pathSeparator =
      a.splitOn pathSeparator ++ b.splitOn pathSeparator := by
  simp only [List.splitOn]
  induction a with
  | nil => simp [List.splitOnP_cons]
  | cons x a ih =>
    rw [List.cons_append, List.splitOnP_cons, ih, List.splitOnP_cons]
    split
    · rfl
    · obtain ⟨piece, pieces, first⟩ := List.exists_cons_of_ne_nil (List.splitOnP_ne_nil _ a)
      rw [first]
      rfl

/-- `split_paths` yields one path more than its input holds separators. The empty input gives
one empty path; the paths of `a`, a separator and `b` are those of `a`, then those of `b`; so
two adjacent separators give an empty path between the paths around them. -/
theorem splitPaths_pieces (unparsed a b : Bytes) :
    (splitPaths unparsed).toList.length = unparsed.count pathSeparator + 1 ∧
      (splitPaths []).toList = [[]] ∧
      (splitPaths (a ++ pathSeparator :: b)).toList =
        (splitPaths a).toList ++ (splitPaths b).toList ∧
      (splitPaths (a ++ pathSeparator :: pathSeparator :: b)).toList =
        (splitPaths a).toList ++ [] :: (splitPaths b).toList := by
  simp only [splitPaths_toList, length_splitOn, splitOn_append_separator, true_and]
  exact ⟨rfl, by simp [List.splitOn, List.splitOnP_cons]⟩

end TeaclaveSgx.Os
