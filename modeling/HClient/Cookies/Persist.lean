import HClient.Cookies.Jar

/-!
# Cookies that come back from storage

`cookie::persist`: a saved cookie as plain data, and what a jar checks again before it takes
one back.
-/
namespace HClient.Cookies

open Effect

structure CookieRecord where
  name : Text
  value : Text
  domain : Text
  path : Text
  expires : SystemTime
  creation : SystemTime
  lastAccess : SystemTime
  hostOnly : Bool
  secure : Bool
  httpOnly : Bool
  sameSite : Option SameSite
  deriving DecidableEq

/-- Which side supplies the creation time of a cookie that replaces one already held. -/
inductive Arrival where
  | setCookie
  | record
  deriving DecidableEq, Repr

/-- The arriving cookie with what it keeps of the one it replaces, but for its place. -/
def Arrival.settle (arrival : Arrival) (old cookie : Cookie) : Cookie :=
  match arrival with
  | .setCookie => { cookie with creation := old.creation }
  | .record => cookie

namespace CookieJar
variable (jar : CookieJar)

/-- `insert`, for either arrival. -/
def insertAs (arrival : Arrival) (cookie : Cookie) (now : SystemTime) : Script Unit :=
  (ask (.get [cookie.domain])).bind fun (held : List Cookie) =>
    match held.find? fun c => CookieKey.of c = CookieKey.of cookie with
    | some old => ask (.put { arrival.settle old cookie with seq := old.seq } now)
    | none => (ask .nextSeq).bind fun (seq : Nat) => ask (.put { cookie with seq } now)

theorem insertAs_setCookie (cookie : Cookie) (now : SystemTime) :
    insertAs .setCookie cookie now = insert cookie now := by
  unfold insertAs insert
  congr 1
  funext held
  unfold resolve
  cases held.find? fun c => CookieKey.of c = CookieKey.of cookie <;> rfl

/-- What `restore` decides about a record; an expired one is dropped, not refused. -/
def readRecord (record : CookieRecord) (now : SystemTime) : Except Rejected (Option Cookie) :=
  if record.name = [] then .error (.malformed .emptyName)
  else if (utf8Bytes record.name ++ utf8Bytes record.value).any isCtl then
    .error (.malformed .controlCharacter)
  else
    let bytes := byteLen record.name + byteLen record.value
    if jar.limits.maxNameValueBytes < bytes then
      .error (.tooLarge bytes jar.limits.maxNameValueBytes)
    else
      let domain :=
        ((Text.stripPrefix ['.'] record.domain).getD record.domain).toAsciiLowercase
      if domain = [] then .error .emptyDomain
      else if record.path.head? ≠ some '/' then .error (.relativePath record.path)
      else if !record.hostOnly && isIpLiteral domain then .error (.ipDomainNotHostOnly domain)
      else if !record.hostOnly && jar.suffixes.isPublicSuffix domain then
        if jar.suffixes.hasList then .error (.domainIsPublicSuffix domain)
        else .error (.noPublicSuffixList domain)
      else if hasNamePrefix "__secure-" record.name && !record.secure then .error .securePrefix
      else if hasNamePrefix "__host-" record.name &&
          !(record.secure && record.hostOnly && record.path = ['/']) then .error .hostPrefix
      else
        let expires :=
          match now.checkedAdd maxExpiry with
          | some cap => earlier record.expires cap
          | none => record.expires
        if expires ≤ now then .ok none
        else
          .ok (some {
            name := record.name
            value := record.value
            domain
            path := record.path
            expires := some expires
            creation := record.creation
            lastAccess := record.lastAccess
            seq := 0
            hostOnly := record.hostOnly
            persistent := true
            secure := record.secure
            httpOnly := record.httpOnly
            sameSite := record.sameSite })

def restore (record : CookieRecord) (now : SystemTime) : Script (Except Rejected Unit) :=
  match jar.readRecord record now with
  | .error e => pure (.error e)
  | .ok none => pure (.ok ())
  | .ok (some cookie) => (insertAs .record cookie now).bind fun _ => pure (.ok ())

end CookieJar
end HClient.Cookies
