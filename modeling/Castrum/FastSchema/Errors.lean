import Castrum.FastSchema.Capture

/-!
# Castrum — validation context (`rust/json/fast_schema/errors.rs`)

One walk serves two modes: bool mode (`errors = none`) and detailed mode, which collects
`SchemaError`s up to a limit. `suppress` silences recording inside combinator branches.
-/

namespace Castrum

structure SchemaError where
  instancePath : String
  schemaPath : String
  keyword : String
  message : String
  deriving DecidableEq

inductive PathStep where
  | key (k : Bytes)
  | index (i : Nat)
  deriving DecidableEq

/-- Validation context. `maxErrors` and `inputPtr` are only read in detailed and capture mode. -/
structure Ctx where
  errors : Option (List SchemaError)
  maxErrors : Nat
  suppress : Bool
  path : List PathStep
  depth : Nat
  capture : Option Capture
  inputPtr : Option Nat

def Ctx.boolMode : Ctx := ⟨none, 2 ^ 64 - 1, false, [], 0, none, none⟩

def Ctx.detailed (maxErrors : Nat) : Ctx := ⟨some [], maxErrors, false, [], 0, none, none⟩

def Ctx.isDetailed (ctx : Ctx) : Bool := ctx.errors.isSome

def escapePathByte (b : UInt8) : List Char :=
  if b = 126 then ['~', '0'] else if b = 47 then ['~', '1'] else [Char.ofNat b.toNat]

def PathStep.pointer : PathStep → String
  | .key k => "/" ++ String.ofList (k.flatMap escapePathByte)
  | .index i => "/" ++ toString i

/-- RFC 6901 pointer of the path stack (`build_pointer`). -/
def buildPointer (path : List PathStep) : String := String.join (path.map PathStep.pointer)

/-- Record an error unless suppressed, in bool mode, or at the limit. -/
def Ctx.record (ctx : Ctx) (base keyword message : String) : Ctx :=
  if ctx.suppress then ctx
  else
    match ctx.errors with
    | none => ctx
    | some errors =>
      if errors.length ≥ ctx.maxErrors then ctx
      else
        let schemaPath := if base.isEmpty then "/" ++ keyword else base ++ "/" ++ keyword
        { ctx with errors := some (errors ++ [⟨buildPointer ctx.path, schemaPath, keyword, message⟩]) }

def Ctx.pushKey (ctx : Ctx) (key : Bytes) : Ctx :=
  if ctx.errors.isSome then { ctx with path := ctx.path ++ [.key key] } else ctx

def Ctx.pushIdx (ctx : Ctx) (idx : Nat) : Ctx :=
  if ctx.errors.isSome then { ctx with path := ctx.path ++ [.index idx] } else ctx

def Ctx.pop (ctx : Ctx) : Ctx :=
  if ctx.errors.isSome then { ctx with path := ctx.path.dropLast } else ctx

/-- Run a capture operation on the ROOT walk only. -/
def Ctx.onCapture (ctx : Ctx) (ptr : Nat) (f : Capture → Capture) : Ctx :=
  match ctx.capture with
  | none => ctx
  | some cap =>
    if ctx.suppress ∨ some ptr ≠ ctx.inputPtr then ctx else { ctx with capture := some (f cap) }

def Ctx.captureEnterKey (ctx : Ctx) (ptr : Nat) (key : Bytes) : Ctx :=
  ctx.onCapture ptr (·.enterKey key)

def Ctx.captureExitKey (ctx : Ctx) (ptr : Nat) : Ctx := ctx.onCapture ptr (·.exitKey)

def Ctx.captureRecordValue (ctx : Ctx) (ptr start stop : Nat) : Ctx :=
  ctx.onCapture ptr (·.recordValue start stop)

def Ctx.captureRecordLength (ctx : Ctx) (ptr count : Nat) : Ctx :=
  ctx.onCapture ptr (·.recordLength count)

end Castrum
