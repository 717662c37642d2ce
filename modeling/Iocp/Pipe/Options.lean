import Iocp.Library.Flags
import Iocp.Library.Transition
import Iocp.Model.Pipe

/-!
# Which option of a pipe a setter sets

Every option is read back from the arguments of `CreateNamedPipeW`. A setter
that puts a flag leaves the others alone; `pipe_mode` assigns the word that it
shares with `reject_remote_clients`.
-/

namespace Iocp

open Transition

/-- The options of a pipe, each on its own. -/
structure PipeSettings where
  mode : PipeMode
  inbound : Bool
  outbound : Bool
  first : Bool
  reject : Bool
  maxInstances : Nat
  outBufferSize : Nat
  inBufferSize : Nat
  defaultTimeout : Nat
  customFlags : BitVec 32
  deriving DecidableEq

/-- The flags of `dwOpenMode` that have a setter. -/
def namedFlags : BitVec 32 :=
  Win32.pipeAccessInbound ||| Win32.pipeAccessOutbound ||| Win32.fileFlagFirstPipeInstance

/-- The options that the arguments encode. -/
def NamedPipeArgs.settings (a : NamedPipeArgs) : PipeSettings where
  mode := if Flags.has a.pipeMode Win32.pipeTypeMessage then .message else .byte
  inbound := Flags.has a.openMode Win32.pipeAccessInbound
  outbound := Flags.has a.openMode Win32.pipeAccessOutbound
  first := Flags.has a.openMode Win32.fileFlagFirstPipeInstance
  reject := Flags.has a.pipeMode Win32.pipeRejectRemoteClients
  maxInstances := a.maxInstances
  outBufferSize := a.outBufferSize
  inBufferSize := a.inBufferSize
  defaultTimeout := a.defaultTimeout
  customFlags := a.openMode &&& ~~~namedFlags

/-- The argument of the last call of a setter, or a default. -/
def lastCall {α : Type} (argument : PipeSetter → Option α) (default : α)
    (calls : List PipeSetter) : α :=
  (calls.reverse.findSome? argument).getD default

theorem lastCall_snoc {α : Type} (argument : PipeSetter → Option α) (default : α)
    (calls : List PipeSetter) (c : PipeSetter) :
    lastCall argument default (calls ++ [c]) =
      (argument c).getD (lastCall argument default calls) := by
  cases own : argument c <;> simp [lastCall, own]

namespace PipeSetter

/-- Each option as its own last call asks for it, or as `new` has it. -/
def settings (calls : List PipeSetter) : PipeSettings where
  mode := lastCall (fun | .pipeMode mode => some mode | _ => none) .byte calls
  inbound := lastCall (fun | .accessInbound allowed => some allowed | _ => none) true calls
  outbound := lastCall (fun | .accessOutbound allowed => some allowed | _ => none) true calls
  first := lastCall (fun | .firstPipeInstance first => some first | _ => none) false calls
  reject := lastCall (fun | .rejectRemoteClients reject => some reject | _ => none) true calls
  maxInstances := lastCall (fun | .maxInstances instances => some instances | _ => none)
    Win32.pipeUnlimitedInstances calls
  outBufferSize := lastCall (fun | .outBufferSize buffer => some buffer | _ => none) 65536 calls
  inBufferSize := lastCall (fun | .inBufferSize buffer => some buffer | _ => none) 65536 calls
  defaultTimeout := 0
  customFlags := lastCall (fun | .customFlags flags => some flags | _ => none) 0 calls

/-- Custom flags are none of the flags that have a setter. -/
def apart (_ : CreatePipeOptions) : PipeSetter → Prop
  | .customFlags flags => flags &&& namedFlags = 0#32
  | _ => True

/-- Of the calls of `pipe_mode` and `reject_remote_clients` the last is one of `pipe_mode`. -/
def modeLast (calls : List PipeSetter) : Bool :=
  lastCall (fun | .pipeMode _ => some true | .rejectRemoteClients _ => some false | _ => none)
    false calls

/-- Remote clients are to be rejected, and `pipe_mode` comes last. -/
def overridden (calls : List PipeSetter) : Bool := modeLast calls && (settings calls).reject

end PipeSetter

namespace CreatePipeOptions

/-- The settings that one call asks for. -/
def asked (s : PipeSettings) : PipeSetter → PipeSettings
  | .pipeMode mode => { s with mode := mode }
  | .accessInbound allowed => { s with inbound := allowed }
  | .accessOutbound allowed => { s with outbound := allowed }
  | .firstPipeInstance first => { s with first := first }
  | .rejectRemoteClients reject => { s with reject := reject }
  | .maxInstances instances => { s with maxInstances := instances }
  | .outBufferSize buffer => { s with outBufferSize := buffer }
  | .inBufferSize buffer => { s with inBufferSize := buffer }
  | .customFlags flags => { s with customFlags := flags }

theorem settings_snoc (calls : List PipeSetter) (c : PipeSetter) :
    PipeSetter.settings (calls ++ [c]) = asked (PipeSetter.settings calls) c := by
  cases c <;> simp [PipeSetter.settings, lastCall_snoc, asked]

/-- Calls of different setters ask for the same settings in both orders. -/
theorem settings_swap {a b : PipeSetter} (different : a.ctorIdx ≠ b.ctorIdx)
    (before after : List PipeSetter) :
    PipeSetter.settings (before ++ a :: b :: after) =
      PipeSetter.settings (before ++ b :: a :: after) := by
  have swap (s : PipeSettings) : asked (asked s a) b = asked (asked s b) a := by
    cases a <;> cases b <;> first | rfl | exact absurd rfl different
  have both (a b : PipeSetter) :
      PipeSetter.settings (before ++ a :: b :: []) =
        asked (asked (PipeSetter.settings before) a) b := by
    rw [List.append_cons before a [b], settings_snoc, settings_snoc]
  induction after using List.reverseRecOn with
  | nil => rw [both, both, swap]
  | append_singleton after c ih =>
      have front (a b : PipeSetter) :
          before ++ a :: b :: (after ++ [c]) = before ++ a :: b :: after ++ [c] := by simp
      rw [front, front, settings_snoc, settings_snoc, ih]

/-- The options that a builder stands for. -/
def settings (o : CreatePipeOptions) : PipeSettings where
  mode := if Flags.has o.pipeMode Win32.pipeTypeMessage then .message else .byte
  inbound := Flags.has o.openMode Win32.pipeAccessInbound
  outbound := Flags.has o.openMode Win32.pipeAccessOutbound
  first := Flags.has o.openMode Win32.fileFlagFirstPipeInstance
  reject := Flags.has o.pipeMode Win32.pipeRejectRemoteClients
  maxInstances := o.maxInstances
  outBufferSize := o.outBufferSize
  inBufferSize := o.inBufferSize
  defaultTimeout := o.defaultTimeout
  customFlags := o.customFlags

/-- The two halves of `dwOpenMode` do not overlap. -/
structure Parted (o : CreatePipeOptions) : Prop where
  named : o.openMode &&& ~~~namedFlags = 0#32
  custom : o.customFlags &&& namedFlags = 0#32

/-- The call passes on what the builder stands for. -/
theorem Parted.arguments {o : CreatePipeOptions} (parted : o.Parted) :
    o.arguments.settings = o.settings := by
  have own (flag : BitVec 32) (within : flag &&& ~~~namedFlags = 0#32) :
      Flags.has (o.customFlags ||| o.openMode) flag = Flags.has o.openMode flag := by
    rw [Flags.has_or, Flags.has_of_apart parted.custom within, Bool.false_or]
  have rest := Flags.or_and_not parted.custom parted.named
  simp only [CreatePipeOptions.arguments, NamedPipeArgs.settings, settings, rest,
    own Win32.pipeAccessInbound (by decide), own Win32.pipeAccessOutbound (by decide),
    own Win32.fileFlagFirstPipeInstance (by decide)]
  rfl

/-- What one call makes of the options: `pipe_mode` gives up the rejection of remote clients. -/
def made (s : PipeSettings) : PipeSetter → PipeSettings
  | .pipeMode mode => { s with mode := mode, reject := false }
  | c => asked s c

theorem boolFlag_put (f : BitVec 32) (t : Bool) (flag : BitVec 32) :
    boolFlag f t flag = Flags.put f flag t :=
  rfl

section Set

variable {o o' : CreatePipeOptions} {c : PipeSetter}

theorem set_settings (h : o.set c = some o') : o'.settings = made o.settings c := by
  cases c with
  | maxInstances instances =>
      obtain ⟨-, h⟩ := Option.ite_none_right_eq_some.mp h
      cases h
      rfl
  | pipeMode mode =>
      cases h
      have byte : Flags.has Win32.pipeTypeByte Win32.pipeTypeMessage = false ∧
          Flags.has Win32.pipeTypeByte Win32.pipeRejectRemoteClients = false := by decide
      have message : Flags.has Win32.pipeTypeMessage Win32.pipeTypeMessage = true ∧
          Flags.has Win32.pipeTypeMessage Win32.pipeRejectRemoteClients = false := by decide
      cases mode <;> simp [settings, made, byte, message]
  | accessInbound t | accessOutbound t | firstPipeInstance t | rejectRemoteClients t =>
      cases h
      simp (disch := decide) only [settings, made, asked, boolFlag_put, Flags.has_put_self,
        Flags.has_put_other]
  | _ =>
      cases h
      rfl

/-- No call makes the two halves of `dwOpenMode` overlap. -/
theorem Parted.set (parted : o.Parted) (apart : PipeSetter.apart o c) (h : o.set c = some o') :
    o'.Parted := by
  obtain ⟨named, custom⟩ := parted
  cases c with
  | maxInstances instances =>
      obtain ⟨-, h⟩ := Option.ite_none_right_eq_some.mp h
      cases h
      exact ⟨named, custom⟩
  | customFlags flags =>
      cases h
      exact ⟨named, apart⟩
  | accessInbound allowed | accessOutbound allowed | firstPipeInstance first =>
      cases h
      exact ⟨Flags.put_within (by decide) named, custom⟩
  | _ =>
      cases h
      exact ⟨named, custom⟩

end Set

/-- After any calls each option is as its own last call asks for it, but for the rejection of
remote clients, which does not outlast a call of `pipe_mode`. -/
theorem run_settings {calls : List PipeSetter} {o : CreatePipeOptions}
    (run : Run set PipeSetter.apart new calls o) :
    o.Parted ∧ o.settings = { PipeSetter.settings calls with
      reject := (PipeSetter.settings calls).reject && !PipeSetter.modeLast calls } := by
  induction run with
  | nil => exact ⟨⟨by decide, by decide⟩, by decide⟩
  | @snoc calls o c o' before apart h ih =>
      obtain ⟨parted, same⟩ := ih
      refine ⟨parted.set apart h, ?_⟩
      rw [set_settings h, same, settings_snoc]
      cases c <;> simp [made, asked, PipeSetter.modeLast, lastCall_snoc]

theorem arguments_settings {calls : List PipeSetter} {o : CreatePipeOptions}
    (run : Run set PipeSetter.apart new calls o) :
    o.arguments.settings = PipeSetter.settings calls ↔ PipeSetter.overridden calls = false := by
  obtain ⟨parted, same⟩ := run_settings run
  rw [parted.arguments, same]
  constructor
  · intro kept
    have reject := congrArg PipeSettings.reject kept
    simp only at reject
    rw [PipeSetter.overridden, ← reject]
    cases PipeSetter.modeLast calls <;> simp
  · intro kept
    have reject : ((PipeSetter.settings calls).reject && !PipeSetter.modeLast calls) =
        (PipeSetter.settings calls).reject := by
      cases last : PipeSetter.modeLast calls with
      | false => simp
      | true =>
          simp only [PipeSetter.overridden, last, Bool.true_and] at kept
          simp [kept]
    rw [reject]

/-- Every option in the arguments of `CreateNamedPipeW` is that of the last call of its own
setter, or the default of `new`, exactly if no `pipe_mode` overrides the rejection of remote
clients, and two calls of different setters then commute exactly if none does after the swap. -/
theorem options_independent {calls : List PipeSetter} {o : CreatePipeOptions}
    (run : Run set PipeSetter.apart new calls o) :
    (o.arguments.settings = PipeSetter.settings calls ↔ PipeSetter.overridden calls = false) ∧
      (PipeSetter.overridden calls = false → ∀ before a b after p,
        calls = before ++ a :: b :: after → a.ctorIdx ≠ b.ctorIdx →
        Run set PipeSetter.apart new (before ++ b :: a :: after) p →
          (p.arguments.settings = o.arguments.settings ↔
            PipeSetter.overridden (before ++ b :: a :: after) = false)) := by
  refine ⟨arguments_settings run, ?_⟩
  rintro kept before a b after p rfl different swapped
  rw [(arguments_settings run).mpr kept, settings_swap different]
  exact arguments_settings swapped

/-- Every setter, with the mode before the rejection of remote clients. -/
theorem options_independent_all :
    ∃ o, Run set PipeSetter.apart new [.pipeMode .message, .rejectRemoteClients true,
      .accessInbound false, .firstPipeInstance true, .customFlags 0x40000000#32] o ∧
      o.arguments.settings = { PipeSetter.settings [] with
        mode := .message, inbound := false, first := true, customFlags := 0x40000000#32 } := by
  have run : Run set PipeSetter.apart new [.pipeMode .message, .rejectRemoteClients true,
      .accessInbound false, .firstPipeInstance true, .customFlags 0x40000000#32] _ :=
    ((((Run.single trivial rfl).snoc trivial rfl).snoc trivial rfl).snoc trivial rfl).snoc
      (show 0x40000000#32 &&& namedFlags = 0#32 by decide) rfl
  exact ⟨_, run, (options_independent run).1.mpr (by decide)⟩

/-- A pipe in message mode accepts remote clients, although nothing asked for it. -/
theorem pipe_mode_overrides :
    ¬ ∀ calls o, Run set PipeSetter.apart new calls o →
      o.arguments.settings = PipeSetter.settings calls := by
  intro always
  have run : Run set PipeSetter.apart new [.pipeMode .message] _ := Run.single trivial rfl
  have reject := congrArg PipeSettings.reject (always _ _ run)
  revert reject
  decide

end CreatePipeOptions

end Iocp
