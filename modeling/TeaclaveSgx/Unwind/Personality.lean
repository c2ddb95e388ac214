import Mathlib.Logic.Function.Basic

/-! The personality routine of `panic_unwind::gcc`, the exception it raises and the cleanup
that takes the payload back. The metadata decoder `eh::find_eh_action` and the native
unwinder are not under src/: the decoder is a parameter, and the unwinder's two phases are
modelled from the spec, to follow one exception from raise to catch. -/
namespace TeaclaveSgx.Unwind

abbrev Usize := BitVec 64

/-- Modelled from the spec: `eh::EHAction`, not under src/. What a frame's metadata asks for
at the current instruction. -/
inductive EHAction
  | none
  | cleanup (lpad : Usize)
  | catch (lpad : Usize)
  | terminate
  deriving DecidableEq, Repr

inductive ReasonCode
  | continueUnwind
  | handlerFound
  | installContext
  | fatalPhase1Error
  | fatalPhase2Error
  | endOfStack
  deriving DecidableEq, Repr

/-- Modelled from the spec: the phase flags of `_Unwind_Action`, not under src/, with the
values of the native unwinder's ABI. -/
def uaSearchPhase : BitVec 32 := 1
def uaCleanupPhase : BitVec 32 := 2
def uaHandlerFrame : BitVec 32 := 4

/-- What the unwinder's getters read from a frame (`_Unwind_GetLanguageSpecificData`,
`_Unwind_GetIPInfo`, `_Unwind_GetRegionStart`, `_Unwind_GetTextRelBase`,
`_Unwind_GetDataRelBase`), and the registers `_Unwind_SetGR` writes. -/
structure Context where
  lsda : Usize
  ip : Usize
  ipBeforeInstr : Int
  regionStart : Usize
  textRelBase : Usize
  dataRelBase : Usize
  gr : Nat → Usize

def Context.setGR (ctx : Context) (reg : Nat) (value : Usize) : Context :=
  { ctx with gr := Function.update ctx.gr reg value }

def Context.setIP (ctx : Context) (ip : Usize) : Context := { ctx with ip := ip }

/-- The two relocation bases are closures, read only if the decoder asks for them. -/
structure EHContext where
  ip : Usize
  funcStart : Usize
  getTextStart : Unit → Usize
  getDataStart : Unit → Usize

/-- A return address points one byte past its call, which may lie in the next call-site
range, so one byte back is looked up. `decode` stands for `eh::find_eh_action`. -/
def findEhAction (decode : Usize → EHContext → Except Unit EHAction) (ctx : Context) :
    Except Unit EHAction :=
  decode ctx.lsda ⟨if ctx.ipBeforeInstr ≠ 0 then ctx.ip else ctx.ip - 1, ctx.regionStart,
    fun _ => ctx.textRelBase, fun _ => ctx.dataRelBase⟩

/-- `UNWIND_DATA_REG` on x86_64: RAX and RDX. -/
def unwindDataReg : Nat × Nat := (0, 1)

def rustEhPersonalityImpl (decode : Usize → EHContext → Except Unit EHAction) (version : Int)
    (actions : BitVec 32) (exceptionObject : Usize) (ctx : Context) : ReasonCode × Context :=
  if version ≠ 1 then (.fatalPhase1Error, ctx) else
  match findEhAction decode ctx with
  | .error _ => (.fatalPhase1Error, ctx)
  | .ok ehAction =>
    if actions &&& uaSearchPhase ≠ 0 then
      match ehAction with
      | .none | .cleanup _ => (.continueUnwind, ctx)
      | .catch _ => (.handlerFound, ctx)
      | .terminate => (.fatalPhase1Error, ctx)
    else
      match ehAction with
      | .none => (.continueUnwind, ctx)
      | .cleanup lpad | .catch lpad =>
        let ctx := ctx.setGR unwindDataReg.1 exceptionObject
        let ctx := ctx.setGR unwindDataReg.2 0
        (.installContext, ctx.setIP lpad)
      | .terminate => (.fatalPhase2Error, ctx)

/-- The context a landing pad is entered with: the exception in the first data register,
zero in the second, and the pad as the IP. -/
def landAt (exceptionObject : Usize) (ctx : Context) (lpad : Usize) : Context :=
  ((ctx.setGR unwindDataReg.1 exceptionObject).setGR unwindDataReg.2 0).setIP lpad

@[simp] theorem landAt_gr_first (exceptionObject : Usize) (ctx : Context) (lpad : Usize) :
    (landAt exceptionObject ctx lpad).gr unwindDataReg.1 = exceptionObject := rfl

@[simp] theorem landAt_gr_second (exceptionObject : Usize) (ctx : Context) (lpad : Usize) :
    (landAt exceptionObject ctx lpad).gr unwindDataReg.2 = 0 := rfl

/-- The routine as the unwinder calls it, with version 1, for the exception at `exceptionObject`. -/
def rustEhPersonality (decode : Usize → EHContext → Except Unit EHAction)
    (exceptionObject : Usize) (actions : BitVec 32) (ctx : Context) : ReasonCode × Context :=
  rustEhPersonalityImpl decode 1 actions exceptionObject ctx

/-- In the search phase the routine only classifies the frame: it writes nothing. -/
theorem personality_search (decode : Usize → EHContext → Except Unit EHAction)
    (exceptionObject : Usize) (actions : BitVec 32) (search : actions &&& uaSearchPhase ≠ 0)
    (ctx : Context) :
    rustEhPersonality decode exceptionObject actions ctx =
      (match findEhAction decode ctx with
        | .ok .none | .ok (.cleanup _) => .continueUnwind
        | .ok (.catch _) => .handlerFound
        | .ok .terminate | .error _ => .fatalPhase1Error, ctx) := by
  simp only [rustEhPersonality, rustEhPersonalityImpl, ne_eq, not_true_eq_false, if_false,
    search, not_false_eq_true, if_true]
  split <;> (try split) <;> simp_all

/-- In the cleanup phase the routine enters the landing pad of a cleanup or a catch, with the
exception in the first data register, and writes nothing otherwise. -/
theorem personality_cleanup (decode : Usize → EHContext → Except Unit EHAction)
    (exceptionObject : Usize) (actions : BitVec 32) (cleanup : actions &&& uaSearchPhase = 0)
    (ctx : Context) :
    rustEhPersonality decode exceptionObject actions ctx =
      match findEhAction decode ctx with
      | .ok .none => (.continueUnwind, ctx)
      | .ok (.cleanup lpad) | .ok (.catch lpad) => (.installContext, landAt exceptionObject ctx lpad)
      | .ok .terminate => (.fatalPhase2Error, ctx)
      | .error _ => (.fatalPhase1Error, ctx) := by
  simp only [rustEhPersonality, rustEhPersonalityImpl, ne_eq, not_true_eq_false, if_false, cleanup,
    not_false_eq_true]
  split <;> (try split) <;> simp_all [landAt]

end TeaclaveSgx.Unwind
