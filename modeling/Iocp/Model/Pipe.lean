import Mathlib.Data.BitVec

/-!
# The options of a named pipe

`pipe::CreatePipeOptions`, its setters, and the arguments that it passes to
`CreateNamedPipeW`.
-/

namespace Iocp

namespace Win32

def pipeAccessInbound : BitVec 32 := 0x00000001

def pipeAccessOutbound : BitVec 32 := 0x00000002

def pipeAccessDuplex : BitVec 32 := 0x00000003

def fileFlagFirstPipeInstance : BitVec 32 := 0x00080000

def pipeTypeByte : BitVec 32 := 0x00000000

def pipeTypeMessage : BitVec 32 := 0x00000004

def pipeRejectRemoteClients : BitVec 32 := 0x00000008

def pipeUnlimitedInstances : Nat := 255

end Win32

/-- `pipe::PipeMode`. -/
inductive PipeMode
  | byte
  | message
  deriving DecidableEq

/-- `pipe::CreatePipeOptions`. -/
structure CreatePipeOptions where
  openMode : BitVec 32
  pipeMode : BitVec 32
  maxInstances : Nat
  outBufferSize : Nat
  inBufferSize : Nat
  defaultTimeout : Nat
  customFlags : BitVec 32
  deriving DecidableEq

/-- The arguments of `CreateNamedPipeW` besides the name and the security attributes. -/
structure NamedPipeArgs where
  openMode : BitVec 32
  pipeMode : BitVec 32
  maxInstances : Nat
  outBufferSize : Nat
  inBufferSize : Nat
  defaultTimeout : Nat
  deriving DecidableEq

/-- A call of one of the setters. -/
inductive PipeSetter
  | pipeMode (mode : PipeMode)
  | accessInbound (allowed : Bool)
  | accessOutbound (allowed : Bool)
  | firstPipeInstance (first : Bool)
  | rejectRemoteClients (reject : Bool)
  | maxInstances (instances : Nat)
  | outBufferSize (buffer : Nat)
  | inBufferSize (buffer : Nat)
  | customFlags (flags : BitVec 32)
  deriving DecidableEq

namespace CreatePipeOptions

/-- `bool_flag!`. -/
def boolFlag (f : BitVec 32) (t : Bool) (flag : BitVec 32) : BitVec 32 :=
  if t then f ||| flag else f &&& ~~~flag

/-- `CreatePipeOptions::new`. -/
def new : CreatePipeOptions where
  openMode := Win32.pipeAccessDuplex
  pipeMode := Win32.pipeTypeByte ||| Win32.pipeRejectRemoteClients
  maxInstances := Win32.pipeUnlimitedInstances
  outBufferSize := 65536
  inBufferSize := 65536
  defaultTimeout := 0
  customFlags := 0

/-- The body of a setter; `none` when the assertion of `max_instances` fails. -/
def set (o : CreatePipeOptions) : PipeSetter → Option CreatePipeOptions
  | .pipeMode mode =>
      some { o with pipeMode := match mode with
        | .byte => Win32.pipeTypeByte
        | .message => Win32.pipeTypeMessage }
  | .accessInbound allowed =>
      some { o with openMode := boolFlag o.openMode allowed Win32.pipeAccessInbound }
  | .accessOutbound allowed =>
      some { o with openMode := boolFlag o.openMode allowed Win32.pipeAccessOutbound }
  | .firstPipeInstance first =>
      some { o with openMode := boolFlag o.openMode first Win32.fileFlagFirstPipeInstance }
  | .rejectRemoteClients reject =>
      some { o with pipeMode := boolFlag o.pipeMode reject Win32.pipeRejectRemoteClients }
  | .maxInstances instances =>
      if instances < 255 then some { o with maxInstances := instances } else none
  | .outBufferSize buffer => some { o with outBufferSize := buffer }
  | .inBufferSize buffer => some { o with inBufferSize := buffer }
  | .customFlags flags => some { o with customFlags := flags }

/-- The call in `create_with_security_attributes`. -/
def arguments (o : CreatePipeOptions) : NamedPipeArgs where
  openMode := o.customFlags ||| o.openMode
  pipeMode := o.pipeMode
  maxInstances := o.maxInstances
  outBufferSize := o.outBufferSize
  inBufferSize := o.inBufferSize
  defaultTimeout := o.defaultTimeout

end CreatePipeOptions

end Iocp
