import TeaclaveSgx.Unwind.Personality

/-! One exception from raise to catch. `panic` boxes the payload under Rust's class, the
unwinder runs its two phases over the frames with the personality routine, and the catch
code takes the payload back with `cleanup`. The unwinder is external; its phases follow the
spec: search first, without side effects, then the landing pads up to the handler. Every
stack of frames ends the raise in one of three ways, set by its first frame that does not
let the exception pass. -/
namespace TeaclaveSgx.Unwind

/-- `Exception`: the unwinder's header, of which the class is modelled, then the payload. -/
structure Exception (α : Type) where
  exceptionClass : UInt64
  cause : α

/-- `rust_exception_class()`, the bytes `MOZ\0RUST`. -/
def rustExceptionClass : UInt64 := 0x4d4f5a0052555354

/-- `panic(data)` up to the raise: the payload boxed under Rust's class. -/
def panic (data : α) : Exception α := ⟨rustExceptionClass, data⟩

/-- How `cleanup` ends: with the payload, or, for a foreign exception, in
`__rust_foreign_exception` after `_Unwind_DeleteException`. -/
inductive Cleanup (α : Type)
  | payload (cause : α)
  | foreign
  deriving DecidableEq, Repr

def cleanup (exception : Exception α) : Cleanup α :=
  if exception.exceptionClass ≠ rustExceptionClass then .foreign else .payload exception.cause

/-- Modelled from the spec: phase one of `_Unwind_RaiseException`, not under src/. Frames are
asked from the innermost outwards; the first that reports a handler ends the search. -/
def searchPhase (personality : BitVec 32 → Context → ReasonCode × Context) :
    List Context → Except ReasonCode (Option Nat)
  | [] => .ok none
  | frame :: frames =>
    match (personality uaSearchPhase frame).1 with
    | .continueUnwind => (searchPhase personality frames).map (Option.map (· + 1))
    | .handlerFound => .ok (some 0)
    | _ => .error .fatalPhase1Error

/-- Modelled from the spec: phase two, down to the handler frame `k`. A frame that installs
its context runs its landing pad, which resumes unwinding at the next frame; the handler
frame must install its own. The result lists the contexts the landing pads run in. -/
def cleanupPhase (personality : BitVec 32 → Context → ReasonCode × Context) :
    Nat → List Context → Except ReasonCode (List Context)
  | _, [] => .error .fatalPhase2Error
  | 0, frame :: _ =>
    match personality (uaCleanupPhase ||| uaHandlerFrame) frame with
    | (.installContext, ctx) => .ok [ctx]
    | _ => .error .fatalPhase2Error
  | k + 1, frame :: frames =>
    match personality uaCleanupPhase frame with
    | (.installContext, ctx) => (cleanupPhase personality k frames).map (ctx :: ·)
    | (.continueUnwind, _) => cleanupPhase personality k frames
    | _ => .error .fatalPhase2Error

/-- Modelled from the spec: `_Unwind_RaiseException`, returning the handler frame and the
landing pads entered, or the code the raise returns. -/
def raiseException (personality : BitVec 32 → Context → ReasonCode × Context)
    (frames : List Context) : Except ReasonCode (Nat × List Context) :=
  match searchPhase personality frames with
  | .error code => .error code
  | .ok none => .error .endOfStack
  | .ok (some k) => (cleanupPhase personality k frames).map (k, ·)

section Rust

variable (decode : Usize → EHContext → Except Unit EHAction) (exceptionObject : Usize)

/-- A frame the exception passes: its metadata asks for nothing or for a cleanup. -/
def Passes (frame : Context) : Prop :=
  findEhAction decode frame = .ok .none ∨ ∃ lpad, findEhAction decode frame = .ok (.cleanup lpad)

/-- The context a passed frame's cleanup landing pad runs in, if it has one. -/
def cleanupPad (frame : Context) : Option Context :=
  match findEhAction decode frame with
  | .ok (.cleanup lpad) => some (landAt exceptionObject frame lpad)
  | _ => none

theorem search_passes (frame : Context) (passes : Passes decode frame) :
    (rustEhPersonality decode exceptionObject uaSearchPhase frame).1 = .continueUnwind := by
  rw [personality_search _ _ _ (by decide)]
  rcases passes with h | ⟨lpad, h⟩ <;> simp [h]

theorem cleanup_passes (frame : Context) (passes : Passes decode frame) :
    rustEhPersonality decode exceptionObject uaCleanupPhase frame =
      match cleanupPad decode exceptionObject frame with
      | some ctx => (.installContext, ctx)
      | none => (.continueUnwind, frame) := by
  rw [personality_cleanup _ _ _ (by decide), cleanupPad]
  rcases passes with h | ⟨lpad, h⟩ <;> simp [h]

theorem search_catches (frame : Context) (lpad : Usize)
    (catches : findEhAction decode frame = .ok (.catch lpad)) :
    (rustEhPersonality decode exceptionObject uaSearchPhase frame).1 = .handlerFound := by
  rw [personality_search _ _ _ (by decide), catches]

theorem search_fatal (frame : Context)
    (fatal : findEhAction decode frame = .ok .terminate ∨ findEhAction decode frame = .error ()) :
    (rustEhPersonality decode exceptionObject uaSearchPhase frame).1 = .fatalPhase1Error := by
  rw [personality_search _ _ _ (by decide)]
  rcases fatal with h | h <;> rw [h]

theorem handler_installs (frame : Context) (lpad : Usize)
    (catches : findEhAction decode frame = .ok (.catch lpad)) :
    rustEhPersonality decode exceptionObject (uaCleanupPhase ||| uaHandlerFrame) frame =
      (.installContext, landAt exceptionObject frame lpad) := by
  rw [personality_cleanup _ _ _ (by decide), catches]

theorem searchPhase_passes (pre : List Context) (passing : ∀ frame ∈ pre, Passes decode frame)
    (frames : List Context) :
    searchPhase (rustEhPersonality decode exceptionObject) (pre ++ frames) =
      (searchPhase (rustEhPersonality decode exceptionObject) frames).map
        (Option.map (· + pre.length)) := by
  induction pre with
  | nil =>
    rw [List.nil_append]
    cases searchPhase (rustEhPersonality decode exceptionObject) frames with
    | error => rfl
    | ok found => cases found <;> rfl
  | cons frame pre ih =>
    obtain ⟨passes, rest⟩ := List.forall_mem_cons.mp passing
    rw [List.cons_append, searchPhase, search_passes decode exceptionObject frame passes]
    dsimp only
    rw [ih rest]
    cases searchPhase (rustEhPersonality decode exceptionObject) frames with
    | error => rfl
    | ok found => cases found <;> simp [Except.map]; omega

theorem cleanupPhase_passes (pre : List Context) (passing : ∀ frame ∈ pre, Passes decode frame)
    (k : Nat) (frames : List Context) :
    cleanupPhase (rustEhPersonality decode exceptionObject) (pre.length + k) (pre ++ frames) =
      (cleanupPhase (rustEhPersonality decode exceptionObject) k frames).map
        (pre.filterMap (cleanupPad decode exceptionObject) ++ ·) := by
  induction pre with
  | nil =>
    rw [List.nil_append, List.length_nil, Nat.zero_add]
    cases cleanupPhase (rustEhPersonality decode exceptionObject) k frames <;> rfl
  | cons frame pre ih =>
    obtain ⟨passes, rest⟩ := List.forall_mem_cons.mp passing
    rw [List.length_cons, show pre.length + 1 + k = (pre.length + k) + 1 by omega,
      List.cons_append, cleanupPhase, cleanup_passes decode exceptionObject frame passes,
      List.filterMap_cons]
    cases cleanupPad decode exceptionObject frame <;> dsimp only <;> rw [ih rest]
    cases cleanupPhase (rustEhPersonality decode exceptionObject) k frames <;> rfl

/-- Phase one stops at the first frame that catches, and phase two enters the cleanup pads of
the frames before it in order, then the catch pad. -/
theorem raiseException_catch (pre : List Context) (passing : ∀ frame ∈ pre, Passes decode frame)
    (handler : Context) (lpad : Usize) (catches : findEhAction decode handler = .ok (.catch lpad))
    (post : List Context) :
    raiseException (rustEhPersonality decode exceptionObject) (pre ++ handler :: post) =
      .ok (pre.length,
        pre.filterMap (cleanupPad decode exceptionObject) ++
          [landAt exceptionObject handler lpad]) := by
  have found : searchPhase (rustEhPersonality decode exceptionObject) (handler :: post) =
      .ok (some 0) := by
    simp [searchPhase, search_catches decode exceptionObject handler lpad catches]
  have entered : cleanupPhase (rustEhPersonality decode exceptionObject) 0 (handler :: post) =
      .ok [landAt exceptionObject handler lpad] := by
    simp [cleanupPhase, handler_installs decode exceptionObject handler lpad catches]
  have phase2 := cleanupPhase_passes decode exceptionObject pre passing 0 (handler :: post)
  rw [Nat.add_zero, entered] at phase2
  simp [raiseException, searchPhase_passes decode exceptionObject pre passing, found, phase2,
    Except.map]

theorem cleanupPad_lands {frame ctx : Context}
    (pad : cleanupPad decode exceptionObject frame = some ctx) :
    ∃ lpad, ctx = landAt exceptionObject frame lpad := by
  unfold cleanupPad at pad
  split at pad
  · exact ⟨_, (Option.some.inj pad).symm⟩
  · cases pad

/-- Frames told apart by their metadata pointer: `3` asks for nothing, `2` owes a cleanup at
`0x20`, `1` catches at `0x10`, and any other cannot be decoded. -/
def sampleDecode : Usize → EHContext → Except Unit EHAction := fun lsda _ =>
  if lsda = 3 then .ok .none else if lsda = 2 then .ok (.cleanup 0x20)
  else if lsda = 1 then .ok (.catch 0x10) else .error ()

def sampleFrame (lsda : Usize) : Context := ⟨lsda, 0x400, 0, 0x300, 0, 0, fun _ => 0⟩

/-- The scenario of the spec, innermost frame first: no action, a cleanup at `0x20`, a catch
at `0x10`. The cleanup pad runs, then the catch pad, both given the exception. -/
example :
    raiseException (rustEhPersonality sampleDecode 0x1000)
        [sampleFrame 3, sampleFrame 2, sampleFrame 1] =
      .ok (2, [landAt 0x1000 (sampleFrame 2) 0x20, landAt 0x1000 (sampleFrame 1) 0x10]) := rfl

/-- With no frame that catches it, and none that is fatal, the raise returns end-of-stack,
and no landing pad runs. -/
theorem raise_uncaught (frames : List Context)
    (passing : ∀ frame ∈ frames, Passes decode frame) :
    raiseException (rustEhPersonality decode exceptionObject) frames = .error .endOfStack := by
  have := searchPhase_passes decode exceptionObject frames passing []
  simp only [List.append_nil, searchPhase] at this
  simp [raiseException, this, Except.map]

/-- A frame whose metadata says terminate, or cannot be decoded, stops the raise in phase
one, before any landing pad runs. -/
theorem raise_fatal (pre : List Context) (passing : ∀ frame ∈ pre, Passes decode frame)
    (frame : Context)
    (fatal : findEhAction decode frame = .ok .terminate ∨ findEhAction decode frame = .error ())
    (post : List Context) :
    raiseException (rustEhPersonality decode exceptionObject) (pre ++ frame :: post) =
      .error .fatalPhase1Error := by
  have stop : searchPhase (rustEhPersonality decode exceptionObject) (frame :: post) =
      .error .fatalPhase1Error := by
    simp [searchPhase, search_fatal decode exceptionObject frame fatal]
  simp [raiseException, searchPhase_passes decode exceptionObject pre passing, stop, Except.map]

/-- Every frame passes the exception, catches it, or stops it. -/
theorem frame_cases (frame : Context) :
    Passes decode frame ∨ (∃ lpad, findEhAction decode frame = .ok (.catch lpad)) ∨
      findEhAction decode frame = .ok .terminate ∨ findEhAction decode frame = .error () := by
  cases h : findEhAction decode frame with
  | error => exact .inr (.inr (.inr rfl))
  | ok action =>
    rcases action with _ | lpad | lpad | _
    · exact .inl (.inl h)
    · exact .inl (.inr ⟨lpad, h⟩)
    · exact .inr (.inl ⟨lpad, rfl⟩)
    · exact .inr (.inr (.inl rfl))

/-- The frames of a stack, innermost first, all pass the exception, or pass it up to a first
frame that catches it or stops it. -/
theorem stack_cases (frames : List Context) :
    (∀ frame ∈ frames, Passes decode frame) ∨
      ∃ pre frame post, frames = pre ++ frame :: post ∧ (∀ f ∈ pre, Passes decode f) ∧
        ((∃ lpad, findEhAction decode frame = .ok (.catch lpad)) ∨
          findEhAction decode frame = .ok .terminate ∨
            findEhAction decode frame = .error ()) := by
  induction frames with
  | nil => exact .inl (List.forall_mem_nil _)
  | cons frame frames ih =>
    rcases frame_cases decode frame with passes | stops
    · rcases ih with all | ⟨pre, stop, post, rfl, passing, how⟩
      · exact .inl (List.forall_mem_cons.mpr ⟨passes, all⟩)
      · exact .inr ⟨frame :: pre, stop, post, rfl,
          List.forall_mem_cons.mpr ⟨passes, passing⟩, how⟩
    · exact .inr ⟨[], frame, frames, rfl, List.forall_mem_nil _, stops⟩

/-- Every raise ends in one of three ways, set by the first frame, innermost first, that does
not pass the exception. With none, the raise returns end-of-stack and no landing pad runs. At a
frame that catches, phase two enters the cleanup pads of the frames before it, in order, then
its catch pad. At a frame that says terminate or cannot be decoded, phase one fails before any
landing pad runs. -/
theorem raise_outcome (frames : List Context) :
    ((∀ frame ∈ frames, Passes decode frame) ∧
      raiseException (rustEhPersonality decode exceptionObject) frames = .error .endOfStack) ∨
    ∃ pre frame post, frames = pre ++ frame :: post ∧ (∀ f ∈ pre, Passes decode f) ∧
      ((∃ lpad, findEhAction decode frame = .ok (.catch lpad) ∧
          raiseException (rustEhPersonality decode exceptionObject) frames =
            .ok (pre.length, pre.filterMap (cleanupPad decode exceptionObject) ++
              [landAt exceptionObject frame lpad])) ∨
        ((findEhAction decode frame = .ok .terminate ∨ findEhAction decode frame = .error ()) ∧
          raiseException (rustEhPersonality decode exceptionObject) frames =
            .error .fatalPhase1Error)) := by
  rcases stack_cases decode frames with
    all | ⟨pre, frame, post, rfl, passing, ⟨lpad, catches⟩ | fatal⟩
  · exact .inl ⟨all, raise_uncaught decode exceptionObject frames all⟩
  · exact .inr ⟨pre, frame, post, rfl, passing, .inl ⟨lpad, catches,
      raiseException_catch decode exceptionObject pre passing frame lpad catches post⟩⟩
  · exact .inr ⟨pre, frame, post, rfl, passing, .inr ⟨fatal,
      raise_fatal decode exceptionObject pre passing frame fatal post⟩⟩

end Rust

end TeaclaveSgx.Unwind
