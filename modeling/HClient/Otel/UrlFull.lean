import HClient.Core.Segments
import HClient.Core.Cuts
import HClient.Sansio.HttpUri

/-!
# The `url.full` attribute

The URL that a span reports, with the userinfo and the values of the sensitive query parameters
taken out: what stands in their place does not depend on them, and the rest of the URL stands in
the attribute as it is.
-/
namespace HClient.Otel
open HClient.Text HClient.Sansio Segments

def sensitiveQueryKeys : List Text :=
  ["X-Amz-Signature".toList, "X-Amz-Credential".toList, "X-Amz-Security-Token".toList,
    "AWSAccessKeyId".toList, "Signature".toList, "sig".toList, "X-Goog-Signature".toList]

def redacted : Text := "REDACTED".toList

def isSensitiveQueryKey (key : Text) : Bool := sensitiveQueryKeys.any (eqIgnoreAsciiCase · key)

/-- What `redact_query_into` pushes for one pair. -/
def redactPair (pair : Text) : Text :=
  match splitOnce '=' pair with
  | some (key, _) => if isSensitiveQueryKey key then key ++ '=' :: redacted else pair
  | none => pair

def redactQueryInto (out query : Text) : Text :=
  (query.splitOn '&').zipIdx.foldl
    (fun out entry => (if 0 < entry.2 then out ++ ['&'] else out) ++ redactPair entry.1) out

def urlFull (uri : HttpUri) : Text :=
  let out : Text := match uri.scheme with
    | some scheme => scheme ++ "://".toList
    | none => []
  let out := match uri.authority with
    | some authority =>
        match rsplitOnce '@' authority with
        | some (_, rest) => out ++ redacted ++ [':'] ++ redacted ++ ['@'] ++ rest
        | none => out ++ authority
    | none => out
  let out := out ++ uri.path
  match uri.query with
  | some query => redactQueryInto (out ++ ['?']) query
  | none => out

/-! ## The purpose -/

/-- A key that is on the list, in any case. -/
def Sensitive (key : Text) : Prop :=
  ∃ listed ∈ sensitiveQueryKeys, listed.toAsciiLowercase = key.toAsciiLowercase

/-- A parameter and what the attribute has for it. -/
inductive PairRedacted : Text → Text → Prop
  | secret {key : Text} (value : Text) (clean : '=' ∉ key) (sensitive : Sensitive key) :
      PairRedacted (key ++ '=' :: value) (key ++ '=' :: redacted)
  | valueless {pair : Text} (clean : '=' ∉ pair) : PairRedacted pair pair
  | plain {key : Text} (value : Text) (clean : '=' ∉ key) (other : ¬ Sensitive key) :
      PairRedacted (key ++ '=' :: value) (key ++ '=' :: value)

/-- An authority and what the attribute has for it. -/
inductive AuthorityRedacted : Text → Text → Prop
  | userinfo (info : Text) {host : Text} (clean : '@' ∉ host) :
      AuthorityRedacted (info ++ '@' :: host) (redacted ++ ':' :: redacted ++ '@' :: host)
  | plain {authority : Text} (clean : '@' ∉ authority) : AuthorityRedacted authority authority

/-- A URI and the one that the attribute displays. -/
structure Redacts (uri report : HttpUri) : Prop where
  scheme : report.scheme = uri.scheme
  authority : Option.Rel AuthorityRedacted uri.authority report.authority
  path : report.path = uri.path
  query : Option.Rel
    (fun query query' => List.Forall₂ PairRedacted (query.splitOn '&') (query'.splitOn '&'))
    uri.query report.query

/-- Two parameters that differ in a sensitive value at most. -/
inductive PairAlike : Text → Text → Prop
  | secret {key : Text} (value value' : Text) (clean : '=' ∉ key) (sensitive : Sensitive key) :
      PairAlike (key ++ '=' :: value) (key ++ '=' :: value')
  | same (pair : Text) : PairAlike pair pair

/-- Two authorities that differ in the userinfo at most, which both have or neither. -/
inductive AuthorityAlike : Text → Text → Prop
  | userinfo (info info' : Text) {host : Text} (clean : '@' ∉ host) :
      AuthorityAlike (info ++ '@' :: host) (info' ++ '@' :: host)
  | same (authority : Text) : AuthorityAlike authority authority

/-- Two URIs that differ in what is redacted at most. -/
structure Alike (uri uri' : HttpUri) : Prop where
  scheme : uri.scheme = uri'.scheme
  authority : Option.Rel AuthorityAlike uri.authority uri'.authority
  path : uri.path = uri'.path
  query : Option.Rel
    (fun query query' => List.Forall₂ PairAlike (query.splitOn '&') (query'.splitOn '&'))
    uri.query uri'.query

variable {key value pair pair' authority authority' query query' : Text} {uri uri' : HttpUri}

/-! ## Parameters -/

theorem isSensitiveQueryKey_iff (key : Text) : isSensitiveQueryKey key = true ↔ Sensitive key := by
  rw [isSensitiveQueryKey, List.any_eq_true]
  constructor
  · rintro ⟨listed, member, same⟩
    exact ⟨listed, member, (eqIgnoreAsciiCase_iff listed key).mp same⟩
  · rintro ⟨listed, member, same⟩
    exact ⟨listed, member, (eqIgnoreAsciiCase_iff listed key).mpr same⟩

theorem redactPair_secret (clean : '=' ∉ key) (sensitive : Sensitive key) (value : Text) :
    redactPair (key ++ '=' :: value) = key ++ '=' :: redacted := by
  rw [redactPair, splitOnce_append clean]
  dsimp only
  rw [if_pos ((isSensitiveQueryKey_iff key).mpr sensitive)]

theorem redactPair_redacted (pair : Text) : PairRedacted pair (redactPair pair) := by
  cases cut : splitOnce '=' pair with
  | none =>
      have same : redactPair pair = pair := by rw [redactPair, cut]
      rw [same]
      exact .valueless (splitOnce_eq_none.mp cut)
  | some parts =>
      obtain ⟨key, value⟩ := parts
      obtain ⟨clean, rfl⟩ := splitOnce_eq_some.mp cut
      by_cases sensitive : Sensitive key
      · rw [redactPair_secret clean sensitive]
        exact .secret value clean sensitive
      · have same : redactPair (key ++ '=' :: value) = key ++ '=' :: value := by
          rw [redactPair, cut]
          exact if_neg (mt (isSensitiveQueryKey_iff key).mp sensitive)
        rw [same]
        exact .plain value clean sensitive

theorem PairAlike.redactPair (alike : PairAlike pair pair') :
    Otel.redactPair pair = Otel.redactPair pair' := by
  cases alike with
  | secret value value' clean sensitive =>
      rw [redactPair_secret clean sensitive, redactPair_secret clean sensitive]
  | same pair => rfl

/-- What replaces a value does not cut the query. -/
theorem PairRedacted.unbroken (redacts : PairRedacted pair pair') (whole : '&' ∉ pair) :
    '&' ∉ pair' := by
  cases redacts with
  | secret value clean sensitive =>
      intro there
      rcases List.mem_append.mp there with inside | inside
      · exact whole (List.mem_append_left _ inside)
      · exact absurd inside (by decide)
  | valueless clean => exact whole
  | plain value clean other => exact whole

/-! ## The query -/

/-- The query with the values replaced. -/
def redactQuery (query : Text) : Text := ['&'].intercalate ((query.splitOn '&').map redactPair)

theorem foldl_pairs (out : Text) {n : Nat} (later : 0 < n) (pairs : List Text) :
    (pairs.zipIdx n).foldl
        (fun out entry => (if 0 < entry.2 then out ++ ['&'] else out) ++ redactPair entry.1) out =
      out ++ led '&' (pairs.map redactPair) := by
  induction pairs generalizing out n with
  | nil => exact (List.append_nil out).symm
  | cons pair pairs ih =>
      rw [List.zipIdx_cons, List.foldl_cons, if_pos later, ih _ (Nat.succ_pos n), List.map_cons,
        led_cons]
      simp only [List.append_assoc, List.cons_append, List.nil_append]

theorem redactQueryInto_eq (out query : Text) :
    redactQueryInto out query = out ++ redactQuery query := by
  rw [redactQueryInto, redactQuery]
  obtain ⟨first, rest, split⟩ := List.exists_cons_of_ne_nil (List.splitOn_ne_nil '&' query)
  rw [split, List.zipIdx_cons, List.foldl_cons, if_neg (Nat.lt_irrefl 0),
    foldl_pairs _ (Nat.succ_pos 0), List.map_cons, intercalate_cons, List.append_assoc]

theorem redactQuery_redacted (query : Text) :
    List.Forall₂ PairRedacted (query.splitOn '&') ((redactQuery query).splitOn '&') := by
  have pieces : (redactQuery query).splitOn '&' = (query.splitOn '&').map redactPair := by
    apply List.splitOn_intercalate
    · intro pair' member
      obtain ⟨pair, there, rfl⟩ := List.mem_map.mp member
      exact (redactPair_redacted pair).unbroken (not_mem_of_splitOn there)
    · exact mt List.map_eq_nil_iff.mp (List.splitOn_ne_nil '&' query)
  rw [pieces, List.forall₂_map_right_iff]
  exact List.forall₂_same.mpr fun pair member => redactPair_redacted pair

theorem map_redactPair {pairs pairs' : List Text} (alike : List.Forall₂ PairAlike pairs pairs') :
    pairs.map redactPair = pairs'.map redactPair := by
  induction alike with
  | nil => rfl
  | cons first rest ih => rw [List.map_cons, List.map_cons, first.redactPair, ih]

theorem redactQuery_alike
    (alike : List.Forall₂ PairAlike (query.splitOn '&') (query'.splitOn '&')) :
    redactQuery query = redactQuery query' := by
  rw [redactQuery, redactQuery, map_redactPair alike]

/-! ## The authority -/

/-- The authority with the userinfo replaced. -/
def redactAuthority (authority : Text) : Text :=
  match rsplitOnce '@' authority with
  | some (_, host) => redacted ++ ':' :: redacted ++ '@' :: host
  | none => authority

theorem redactAuthority_userinfo (info : Text) {host : Text} (clean : '@' ∉ host) :
    redactAuthority (info ++ '@' :: host) = redacted ++ ':' :: redacted ++ '@' :: host := by
  rw [redactAuthority, rsplitOnce_eq_some.mpr ⟨clean, rfl⟩]

theorem redactAuthority_redacted (authority : Text) :
    AuthorityRedacted authority (redactAuthority authority) := by
  cases cut : rsplitOnce '@' authority with
  | none =>
      rw [redactAuthority, cut]
      exact .plain (rsplitOnce_eq_none.mp cut)
  | some parts =>
      obtain ⟨info, host⟩ := parts
      obtain ⟨clean, rfl⟩ := rsplitOnce_eq_some.mp cut
      rw [redactAuthority_userinfo info clean]
      exact .userinfo info clean

theorem AuthorityAlike.redactAuthority (alike : AuthorityAlike authority authority') :
    Otel.redactAuthority authority = Otel.redactAuthority authority' := by
  cases alike with
  | userinfo info info' clean =>
      rw [redactAuthority_userinfo info clean, redactAuthority_userinfo info' clean]
  | same authority => rfl

/-! ## The attribute -/

/-- The URI that the attribute displays. -/
def report (uri : HttpUri) : HttpUri where
  scheme := uri.scheme
  authority := uri.authority.map redactAuthority
  path := uri.path
  query := uri.query.map redactQuery

theorem report_redacts (uri : HttpUri) : Redacts uri (report uri) where
  scheme := rfl
  authority := by
    cases there : uri.authority with
    | none =>
        rw [report, there]
        exact .none
    | some authority =>
        rw [report, there]
        exact .some (redactAuthority_redacted authority)
  path := rfl
  query := by
    cases there : uri.query with
    | none =>
        rw [report, there]
        exact .none
    | some query =>
        rw [report, there]
        exact .some (redactQuery_redacted query)

theorem urlFull_eq (uri : HttpUri) : urlFull uri = (report uri).display := by
  obtain ⟨scheme, authority, path, query⟩ := uri
  have before : ∀ out : Text, (match authority with
      | some authority =>
          match rsplitOnce '@' authority with
          | some (_, rest) => out ++ redacted ++ [':'] ++ redacted ++ ['@'] ++ rest
          | none => out ++ authority
      | none => out) = out ++ (authority.map redactAuthority).getD [] := by
    intro out
    cases authority with
    | none => exact (List.append_nil out).symm
    | some authority =>
        rw [Option.map_some, Option.getD_some, redactAuthority]
        dsimp only
        split
        · simp only [List.append_assoc, List.cons_append, List.nil_append]
        · rfl
  rw [urlFull, HttpUri.display, report]
  dsimp only
  rw [before]
  cases scheme <;> cases query <;>
    simp only [redactQueryInto_eq, Option.elim_none, Option.elim_some, Option.map_none,
      Option.map_some, List.append_nil, List.append_assoc, List.cons_append, List.nil_append] <;> rfl

theorem map_eq_of_rel {r : Text → Text → Prop} {f : Text → Text}
    (same : ∀ s t, r s t → f s = f t) {s t : Option Text} (rel : Option.Rel r s t) :
    s.map f = t.map f := by
  cases rel with
  | none => rfl
  | some related => rw [Option.map_some, Option.map_some, same _ _ related]

theorem report_alike (alike : Alike uri uri') : report uri = report uri' := by
  have authority := map_eq_of_rel (fun _ _ same => same.redactAuthority) alike.authority
  have query := map_eq_of_rel (fun _ _ same => redactQuery_alike same) alike.query
  rw [report, report, alike.scheme, alike.path, authority, query]

/-- The attribute is the same for two URIs that differ in what is redacted, and it displays a URI
that has everything else as it was. -/
theorem urlFull_redacts (uri uri' : HttpUri) :
    (Alike uri uri' → urlFull uri = urlFull uri') ∧
      ∃ displayed, Redacts uri displayed ∧ urlFull uri = displayed.display := by
  constructor
  · intro alike
    rw [urlFull_eq, urlFull_eq, report_alike alike]
  · exact ⟨report uri, report_redacts uri, urlFull_eq uri⟩

/-- Two users, each with a signature, leave the same attribute. -/
theorem urlFull_redacts_users :
    urlFull ⟨some "https".toList, some "u:p@h:1".toList, "/p".toList,
        some "a=b&SIG=s=t".toList⟩ =
      urlFull ⟨some "https".toList, some "v@x@h:1".toList, "/p".toList,
        some "a=b&SIG=".toList⟩ := by
  have sensitive : Sensitive "SIG".toList := (isSensitiveQueryKey_iff _).mp (by decide)
  have authority : AuthorityAlike "u:p@h:1".toList "v@x@h:1".toList :=
    .userinfo "u:p".toList "v@x".toList (by decide)
  have pair : PairAlike "SIG=s=t".toList "SIG=".toList :=
    .secret "s=t".toList [] (by decide) sensitive
  exact (urlFull_redacts _ _).1
    { scheme := rfl
      authority := .some authority
      path := rfl
      query := .some (.cons (.same _) (.cons pair .nil)) }

example : urlFull ⟨some "https".toList, some "u:p@x@h:1".toList, "/p".toList,
      some "a&sig&SIG=s=t&=&b=c@".toList⟩ =
    "https://REDACTED:REDACTED@h:1/p?a&sig&SIG=REDACTED&=&b=c@".toList := by decide

end HClient.Otel
