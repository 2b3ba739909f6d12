import HClient.Core.Http

/-!
# Request bodies and attempts

`hclient_core::body` as far as sending a body again goes, and `hooks::Attempt`, under which
each send is reported.
-/
namespace HClient.Client

/-- A factory is pure by its contract, so it is the body each of its calls makes. -/
inductive RequestBody where
  | empty
  | full (bytes : List UInt8)
  | rewindable (made : RequestBody)
  | streaming (content : List UInt8)
  deriving DecidableEq, Repr

inductive RetryKind where
  | free
  | viaFactory
  | impossible
  deriving DecidableEq, Repr

def RetryKind.mayReplay : RetryKind → Bool
  | .free | .viaFactory => true
  | .impossible => false

/-- What an authorization flow may see of a body. -/
inductive BodyView where
  | empty
  | bytes (bytes : List UInt8)
  | unseen
  deriving DecidableEq, Repr

namespace RequestBody

def retryKind : RequestBody → RetryKind
  | .empty | .full _ => .free
  | .rewindable _ => .viaFactory
  | .streaming _ => .impossible

def rewind : RequestBody → Option RequestBody
  | .empty => some .empty
  | .full bytes => some (.full bytes)
  | .rewindable made => some made
  | .streaming _ => none

def view : RequestBody → BodyView
  | .empty => .empty
  | .full bytes => .bytes bytes
  | .rewindable _ | .streaming _ => .unseen

end RequestBody

def authBody (snapshot : Option RequestBody) : BodyView :=
  (snapshot.map RequestBody.view).getD .unseen

/-- The body of a second send: the snapshot once more, where its kind allows that. -/
def replayForTooEarly (snapshot : Option RequestBody) : Option RequestBody :=
  snapshot.bind fun b => if b.retryKind.mayReplay then b.rewind else none

theorem rewind_isSome (b : RequestBody) : b.rewind.isSome = b.retryKind.mayReplay := by
  cases b <;> rfl

def u8Max : Nat := 255
def u16Max : Nat := 65535

structure Attempt where
  id : Nat
  hop : Nat
  resend : Nat
  deriving DecidableEq, Repr

namespace Attempt

def new (id : Nat) : Attempt := ⟨id, 0, 0⟩

def nextHop (a : Attempt) : Attempt := { a with hop := min (a.hop + 1) u8Max, resend := 0 }

def resent (a : Attempt) : Attempt := { a with resend := min (a.resend + 1) u16Max }

end Attempt
end HClient.Client
