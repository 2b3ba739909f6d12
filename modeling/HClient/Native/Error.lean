import HClient.Core.Http
import HClient.Core.Time

/-!
# Errors

`hclient_core::error` with its kinds, and the errors of hyper that one may stand in. An error is
marked unsent where it is known that no byte of the request left.
-/
namespace HClient.Native

inductive Phase where
  | resolve
  | connect
  | firstByte
  | betweenBytes
  | total
  deriving DecidableEq, Repr

inductive ErrorKind where
  | resolve
  | connect
  | tls
  | redirect
  | timeout (phase : Phase)
  | body
  | decode
  | status
  | uri
  | unsupported
  | cancelled
  | other
  deriving DecidableEq, Repr

mutual

inductive Error where
  | mk (kind : ErrorKind) (source : ErrorSource) (isUnsent : Bool)

inductive ErrorSource where
  | hyper (e : HyperError)
  | connectionWentAwayBeforeTheRequest
  | connectionEndedWithTheRequestQueued
  | versionNotAvailable (required negotiated : HttpVersion)
  | resolveErrors (errs : ResolveErrors)
  | allAttemptsFailed (launched : Nat)
  | resolveTimedOut (bound : Duration)
  | decodeFailed (coding source : Text)
  | totalTimeoutElapsed (total : Duration)
  | responseTooLarge (limit seen : Nat)
  | text (text : Text)

/-- What the lookups of the two address families failed with. -/
inductive ResolveErrors where
  | both (v6 v4 : Error)
  | ipv6 (v6 : Error)
  | ipv4 (v4 : Error)
  | neither

/-- A failure of hyper's, with the error of this client's own that it may wrap. -/
inductive HyperError where
  | new (isParse : Bool) (source : Option Error)

end

namespace Error

def new (kind : ErrorKind) (source : ErrorSource) : Error := .mk kind source false

def kind : Error → ErrorKind
  | .mk kind _ _ => kind

def isUnsent : Error → Bool
  | .mk _ _ isUnsent => isUnsent

def unsent : Error → Error
  | .mk kind source _ => .mk kind source true

@[simp] theorem kind_unsent (e : Error) : e.unsent.kind = e.kind := by
  cases e
  rfl

@[simp] theorem isUnsent_unsent (e : Error) : e.unsent.isUnsent = true := by
  cases e
  rfl

end Error

namespace ResolveErrors

def fromFamilies : Option Error → Option Error → ResolveErrors
  | some v6, some v4 => .both v6 v4
  | some v6, none => .ipv6 v6
  | none, some v4 => .ipv4 v4
  | none, none => .neither

def recorded : ResolveErrors → List Error
  | .both v6 v4 => [v6, v4]
  | .ipv6 v6 => [v6]
  | .ipv4 v4 => [v4]
  | .neither => []

def distinguishingError (errs : ResolveErrors) : Option Error :=
  errs.recorded.find? fun e => e.kind ≠ .resolve

@[simp] theorem recorded_fromFamilies (v6 v4 : Option Error) :
    (fromFamilies v6 v4).recorded = v6.toList ++ v4.toList := by
  cases v6 <;> cases v4 <;> rfl

end ResolveErrors

namespace HyperError

def isParse : HyperError → Bool
  | .new isParse _ => isParse

def source : HyperError → Option Error
  | .new _ source => source

end HyperError

end HClient.Native
