import HClient.Core.Http

/-!
# The rules that decide where a cookie goes

`cookie::matching`: domain-match, path-match, the default path, and what counts as a secure
request.
-/
namespace HClient.Cookies

def isIpLiteral (host : Text) : Bool := (IpAddr.parse host).isSome

/-- Equal, or a suffix at a label boundary of a host that is a name. -/
def domainMatches (host domain : Text) : Bool :=
  if host = domain then true
  else
    match Text.stripSuffix domain host with
    | some before => before.getLast? = some '.' ∧ ¬ isIpLiteral host
    | none => false

def pathMatches (requestPath cookiePath : Text) : Bool :=
  if requestPath = cookiePath then true
  else
    match Text.stripPrefix cookiePath requestPath with
    | some after => cookiePath.getLast? = some '/' ∨ after.head? = some '/'
    | none => false

/-- Everything up to the rightmost `/`, or `/` where that is the first character. -/
def defaultPath (uriPath : Text) : Text :=
  if uriPath.head? ≠ some '/' then ['/']
  else
    match ((uriPath.reverse.dropWhile (· ≠ '/')).drop 1).reverse with
    | [] => ['/']
    | before => before

def requestPath (uri : Uri) : Text :=
  if uri.path = [] then ['/'] else uri.path

def canonicalHost (uri : Uri) : Option Text :=
  uri.host.bind fun host =>
    let host := bareHost ((Text.stripSuffix ['.'] host).getD host)
    if host = [] then none else some host.toAsciiLowercase

def isLoopback (host : Text) : Bool :=
  host = "localhost".toList || ".localhost".toList.isSuffixOf host ||
    match IpAddr.parse host with
    | some ip => ip.isLoopback
    | none => false

/-- `https`, `wss`, and the loopback hosts under any scheme. -/
def isSecureRequest (uri : Uri) : Bool :=
  match uri.scheme with
  | some .https => true
  | scheme =>
      if scheme = some (.other "wss".toList) then true
      else
        match canonicalHost uri with
        | some host => isLoopback host
        | none => false

/-- The host is the domain, or a name with the domain below it. -/
def Covers (domain host : Text) : Prop :=
  host = domain ∨ ((∃ labels, host = labels ++ '.' :: domain) ∧ isIpLiteral host = false)

theorem domainMatches_iff (host domain : Text) :
    domainMatches host domain = true ↔ Covers domain host := by
  unfold domainMatches Covers
  by_cases same : host = domain
  · simp [same]
  rw [if_neg same]
  by_cases finish : domain <:+ host
  · obtain ⟨before, rfl⟩ := finish
    have found : Text.stripSuffix domain (before ++ domain) = some before := by
      simp [Text.stripSuffix]
    simp only [found, same, false_or, decide_eq_true_eq, Bool.not_eq_true, and_congr_left_iff]
    intro _
    rw [List.getLast?_eq_some_iff]
    constructor
    · intro h
      obtain ⟨labels, rfl⟩ := h
      exact ⟨labels, by simp⟩
    · intro h
      obtain ⟨labels, split⟩ := h
      have dotted : labels ++ '.' :: domain = (labels ++ ['.']) ++ domain := by simp
      exact ⟨labels, (List.append_left_inj domain).mp (split.trans dotted)⟩
  · have missing : Text.stripSuffix domain host = none := by
      simpa [Text.stripSuffix] using finish
    simp only [missing, same, false_or, Bool.false_eq_true, false_iff]
    intro h
    obtain ⟨⟨labels, split⟩, -⟩ := h
    exact finish ⟨labels ++ ['.'], by simp [split]⟩

example : domainMatches "notexample.com".toList "example.com".toList = false ∧
    domainMatches "a.example.com".toList "example.com".toList = true ∧
    domainMatches "1.2.3.4".toList "3.4".toList = false := by decide
example : pathMatches "/foobar".toList "/foo".toList = false ∧
    pathMatches "/foo/bar".toList "/foo".toList = true ∧
    defaultPath "/a/b/c".toList = "/a/b".toList ∧ defaultPath "/a".toList = "/".toList := by decide

end HClient.Cookies
