import HClient.Core.Percent

/-!
# An `http::Uri` and its text

A URI as the accessors of `http::Uri` show it, how a text splits into one by the forms that the
type documents (a path, an absolute URI, an authority, an asterisk), and how it is displayed.
-/
namespace HClient.Sansio
open HClient.Text

structure HttpUri where
  scheme : Option Text
  authority : Option Text
  path : Text
  query : Option Text
  deriving DecidableEq, Repr

namespace HttpUri

def isSchemeChar (c : Char) : Bool := c.isAlphanum || c = '+' || c = '-' || c = '.'

/-- The two schemes of HTTP are held in lower case, any other as it is written. -/
def normalScheme (scheme : Text) : Text :=
  if eqIgnoreAsciiCase scheme "http".toList then "http".toList
  else if eqIgnoreAsciiCase scheme "https".toList then "https".toList
  else scheme

/-- What ends an authority. -/
def authorityEnds : List Char := ['/', '?', '#']

/-- The scheme of an absolute URI and what follows its `://`. -/
def splitScheme (s : Text) : Option (Text × Text) :=
  if (upTo [':'] s).all isSchemeChar then
    (stripPrefix [':', '/', '/'] (onward [':'] s)).map fun rest => (upTo [':'] s, rest)
  else none

/-- A path and a query, the fragment dropped. -/
def splitQuery (s : Text) : Text × Option Text :=
  let s := upTo ['#'] s
  (upTo ['?'] s, (onward ['?'] s).tail?)

/-- `Uri::path` where there is a scheme. -/
def rooted (path : Text) : Text := if path = [] then ['/'] else path

def split (s : Text) : Option HttpUri :=
  if s = [] then none
  else if s.head? = some '/' then some ⟨none, none, (splitQuery s).1, (splitQuery s).2⟩
  else if s = ['*'] then some ⟨none, none, s, none⟩
  else
    match splitScheme s with
    | some (scheme, rest) =>
        let authority := upTo authorityEnds rest
        let tail := splitQuery (onward authorityEnds rest)
        if authority = [] then none
        else some ⟨some (normalScheme scheme), some authority, rooted tail.1, tail.2⟩
    | none => if onward authorityEnds s = [] then some ⟨none, some s, [], none⟩ else none

/-- The `Display` of a URI. -/
def display (u : HttpUri) : Text :=
  u.scheme.elim [] (· ++ [':', '/', '/']) ++ u.authority.getD [] ++ u.path ++
    u.query.elim [] ('?' :: ·)

example : split "HTTP://a@[::1]:80?x=1#y".toList =
    some ⟨some "http".toList, some "a@[::1]:80".toList, ['/'], some "x=1".toList⟩ := by decide

/-- What `http::Uri` keeps of each of its forms. -/
inductive Formed : HttpUri → Prop
  | origin {path : Text} {query : Option Text} (slash : path.head? = some '/')
      (plain : ['?', '#'].Disjoint path) (clear : ∀ q ∈ query, '#' ∉ q) :
      Formed ⟨none, none, path, query⟩
  | asterisk : Formed ⟨none, none, ['*'], none⟩
  | absolute {scheme authority path : Text} {query : Option Text}
      (legal : scheme.all isSchemeChar = true) (normal : normalScheme scheme = scheme)
      (named : authority ≠ []) (whole : authorityEnds.Disjoint authority)
      (slash : path.head? = some '/') (plain : ['?', '#'].Disjoint path)
      (clear : ∀ q ∈ query, '#' ∉ q) : Formed ⟨some scheme, some authority, path, query⟩
  | authority {authority : Text} (named : authority ≠ []) (whole : authorityEnds.Disjoint authority)
      (other : authority ≠ ['*']) : Formed ⟨none, some authority, [], none⟩

variable {s t scheme authority rest path : Text} {query : Option Text} {u : HttpUri} {c : Char}

/-! ## The pieces of a split -/

theorem isSchemeChar_ascii (legal : isSchemeChar c = true) : c.toNat < 128 := by
  simp only [isSchemeChar, Char.isAlphanum, Char.isAlpha, Char.isUpper, Char.isLower, Char.isDigit,
    Bool.or_eq_true, Bool.and_eq_true, decide_eq_true_eq, ge_iff_le, UInt32.le_iff_toNat_le]
    at legal
  rcases legal with ((((⟨-, upper⟩ | ⟨-, lower⟩) | ⟨-, digit⟩) | rfl) | rfl) | rfl
  · exact Nat.lt_of_le_of_lt upper (by decide)
  · exact Nat.lt_of_le_of_lt lower (by decide)
  · exact Nat.lt_of_le_of_lt digit (by decide)
  all_goals decide

theorem disjoint_scheme (legal : scheme.all isSchemeChar = true) {stops : List Char}
    (foreign : stops.all (fun c => !isSchemeChar c) = true) : stops.Disjoint scheme := by
  intro c stop member
  have one := List.all_eq_true.mp foreign c stop
  rw [List.all_eq_true.mp legal c member] at one
  cases one

theorem splitScheme_eq_some :
    splitScheme s = some (scheme, rest) ↔
      scheme.all isSchemeChar = true ∧ s = scheme ++ ':' :: '/' :: '/' :: rest := by
  constructor
  · intro found
    rw [splitScheme] at found
    split at found
    next legal =>
      obtain ⟨tail, stripped, same⟩ := Option.map_eq_some_iff.mp found
      cases same
      refine ⟨legal, ?_⟩
      conv_lhs => rw [← upTo_append_onward [':'] s, stripPrefix_eq_some.mp stripped]
      rfl
    · cases found
  · rintro ⟨legal, rfl⟩
    have free : [':'].Disjoint scheme := disjoint_scheme legal (by decide)
    have stripped : stripPrefix [':', '/', '/'] (':' :: '/' :: '/' :: rest) = some rest :=
      stripPrefix_eq_some.mpr rfl
    rw [splitScheme, upTo_stop free (List.mem_singleton_self _),
      onward_stop free (List.mem_singleton_self _), if_pos legal, stripped]
    rfl

theorem splitQuery_eq (plain : ['?', '#'].Disjoint path) (clear : ∀ q ∈ query, '#' ∉ q) :
    splitQuery (path ++ query.elim [] ('?' :: ·)) = (path, query) := by
  have no_query : ['?'].Disjoint path := List.disjoint_of_subset_left (by simp) plain
  have no_fragment : ['#'].Disjoint path := List.disjoint_of_subset_left (by simp) plain
  cases query with
  | none =>
      rw [Option.elim_none, List.append_nil, splitQuery, upTo_of_disjoint no_fragment,
        upTo_of_disjoint no_query, onward_of_disjoint no_query]
      rfl
  | some q =>
      have whole : ['#'].Disjoint (path ++ '?' :: q) := by
        refine List.disjoint_append_right.mpr ⟨no_fragment, List.disjoint_cons_right.mpr ⟨?_, ?_⟩⟩
        · decide
        · exact List.singleton_disjoint.mpr (clear q rfl)
      rw [Option.elim_some, splitQuery, upTo_of_disjoint whole,
        upTo_stop no_query (List.mem_singleton_self _),
        onward_stop no_query (List.mem_singleton_self _)]
      rfl

theorem splitQuery_plain (s : Text) : ['?', '#'].Disjoint (splitQuery s).1 := by
  have no_query : ['?'].Disjoint (splitQuery s).1 := disjoint_upTo _ _
  have no_fragment : ['#'].Disjoint (splitQuery s).1 := by
    intro c stop member
    exact disjoint_upTo ['#'] s stop ((List.takeWhile_sublist _).subset member)
  intro c stop member
  rcases List.mem_cons.mp stop with rfl | stop
  · exact no_query (List.mem_singleton_self _) member
  · exact no_fragment stop member

theorem splitQuery_clear (s : Text) : ∀ q ∈ (splitQuery s).2, '#' ∉ q := by
  intro q found member
  have inside : '#' ∈ onward ['?'] (upTo ['#'] s) := by
    change (onward ['?'] (upTo ['#'] s)).tail? = some q at found
    cases tail : onward ['?'] (upTo ['#'] s) with
    | nil =>
        rw [tail] at found
        cases found
    | cons c rest =>
        rw [tail, List.tail?_cons, Option.some.injEq] at found
        rw [found]
        exact List.mem_cons_of_mem _ member
  exact disjoint_upTo ['#'] s (List.mem_singleton_self _) ((List.dropWhile_sublist _).subset inside)

/-- A slash in front stays in front. -/
theorem splitQuery_slash (slash : s.head? = some '/') : (splitQuery s).1.head? = some '/' := by
  obtain ⟨rest, rfl⟩ : ∃ rest, s = '/' :: rest := by
    cases s with
    | nil => cases slash
    | cons c rest => exact ⟨rest, by rw [Option.some.inj slash]⟩
  rfl

theorem normalScheme_cases (scheme : Text) :
    normalScheme scheme = "http".toList ∨ normalScheme scheme = "https".toList ∨
      normalScheme scheme = scheme := by
  unfold normalScheme
  split
  · exact .inl rfl
  · split
    · exact .inr (.inl rfl)
    · exact .inr (.inr rfl)

theorem normalScheme_legal (legal : scheme.all isSchemeChar = true) :
    (normalScheme scheme).all isSchemeChar = true := by
  rcases normalScheme_cases scheme with http | https | same
  · rw [http]
    decide
  · rw [https]
    decide
  · rw [same, legal]

@[simp] theorem normalScheme_idem (scheme : Text) :
    normalScheme (normalScheme scheme) = normalScheme scheme := by
  rcases normalScheme_cases scheme with http | https | same
  · rw [http]
    decide
  · rw [https]
    decide
  · rw [same, same]

/-- The tail of an absolute URI is what its authority ends before. -/
theorem split_absolute (legal : scheme.all isSchemeChar = true)
    (whole : authorityEnds.Disjoint authority) (begins : upTo authorityEnds rest = []) :
    split (scheme ++ ':' :: '/' :: '/' :: (authority ++ rest)) =
      if authority = [] then none
      else some ⟨some (normalScheme scheme), some authority, rooted (splitQuery rest).1,
        (splitQuery rest).2⟩ := by
  have first : (scheme ++ ':' :: '/' :: '/' :: (authority ++ rest)).head? ≠ some '/' := by
    cases scheme with
    | nil => exact fun same => absurd (Option.some.inj same) (by decide)
    | cons c scheme =>
        rw [List.cons_append, List.head?_cons, ne_eq, Option.some.injEq]
        rintro rfl
        cases legal
  have found : splitScheme (scheme ++ ':' :: '/' :: '/' :: (authority ++ rest)) =
      some (scheme, authority ++ rest) := splitScheme_eq_some.mpr ⟨legal, rfl⟩
  have tail : onward authorityEnds rest = rest := by
    conv_rhs => rw [← upTo_append_onward authorityEnds rest, begins, List.nil_append]
  have long : scheme ++ ':' :: '/' :: '/' :: (authority ++ rest) ≠ ['*'] := by
    intro same
    have := congrArg List.length same
    simp at this
    omega
  rw [split, if_neg (by simp), if_neg first, if_neg long, found]
  dsimp only
  rw [upTo_append whole, onward_append whole, begins, List.append_nil, tail]

/-! ## What a split gives -/

theorem rooted_slash (head : path = [] ∨ path.head? = some '/') :
    (rooted path).head? = some '/' := by
  rcases head with rfl | slash
  · rfl
  · rw [rooted, if_neg (by rintro rfl; cases slash), slash]

/-- The tail of an authority begins with its path, or has none. -/
theorem splitQuery_onward (s : Text) :
    (splitQuery (onward authorityEnds s)).1 = [] ∨
      (splitQuery (onward authorityEnds s)).1.head? = some '/' := by
  rcases onward_cases authorityEnds s with none | ⟨c, stop, rest, found⟩
  · rw [none]
    exact .inl rfl
  · rw [found]
    rcases List.mem_cons.mp stop with rfl | stop
    · exact .inr (splitQuery_slash rfl)
    rcases List.mem_cons.mp stop with rfl | stop
    · exact .inl rfl
    · obtain rfl := List.mem_singleton.mp stop
      exact .inl rfl

theorem rooted_plain (plain : ['?', '#'].Disjoint path) : ['?', '#'].Disjoint (rooted path) := by
  rw [rooted]
  split
  · simp [List.Disjoint]
  · exact plain

theorem formed_of_split (found : split s = some u) : u.Formed := by
  unfold split at found
  split at found
  · cases found
  split at found
  next slash =>
    cases found
    exact .origin (splitQuery_slash slash) (splitQuery_plain s) (splitQuery_clear s)
  split at found
  next star =>
    cases found
    rw [star]
    exact .asterisk
  split at found
  next scheme rest absolute =>
    dsimp only at found
    split at found
    · cases found
    next named =>
      cases found
      exact .absolute (normalScheme_legal (splitScheme_eq_some.mp absolute).1)
        (normalScheme_idem scheme) named (disjoint_upTo _ _)
        (rooted_slash (splitQuery_onward rest)) (rooted_plain (splitQuery_plain _))
        (splitQuery_clear _)
  next nonempty _ star _ _ =>
    split at found
    next whole =>
      cases found
      refine .authority nonempty ?_ star
      have alone := upTo_append_onward authorityEnds s
      rw [whole, List.append_nil] at alone
      exact alone ▸ disjoint_upTo authorityEnds s
    · cases found

/-- `http::Uri` reads what it displays. -/
theorem split_display (formed : u.Formed) : split u.display = some u := by
  cases formed with
  | origin slash plain clear =>
      rename_i path query
      have text : display ⟨none, none, path, query⟩ = path ++ query.elim [] ('?' :: ·) := rfl
      have front : (path ++ query.elim [] ('?' :: ·)).head? = some '/' := by
        rw [List.head?_append, slash]
        rfl
      rw [text, split, if_neg (by intro none; rw [none] at front; cases front), if_pos front,
        splitQuery_eq plain clear]
  | asterisk => decide
  | absolute legal normal named whole slash plain clear =>
      rename_i scheme authority path query
      have text : display ⟨some scheme, some authority, path, query⟩ =
          scheme ++ ':' :: '/' :: '/' :: (authority ++ (path ++ query.elim [] ('?' :: ·))) := by
        simp [display]
      have begins : upTo authorityEnds (path ++ query.elim [] ('?' :: ·)) = [] := by
        cases path with
        | nil => cases slash
        | cons c rest =>
            rw [Option.some.inj slash]
            exact upTo_cons List.mem_cons_self _
      rw [text, split_absolute legal whole begins, if_neg named, splitQuery_eq plain clear, normal,
        rooted, if_neg (by rintro rfl; cases slash)]
  | authority named whole other =>
      rename_i authority
      have text : display ⟨none, some authority, [], none⟩ = authority := by simp [display]
      have first : authority.head? ≠ some '/' := by
        intro slash
        exact whole List.mem_cons_self (List.mem_of_mem_head? slash)
      have bare : splitScheme authority = none := by
        cases absolute : splitScheme authority with
        | none => rfl
        | some parts =>
            have same := (splitScheme_eq_some.mp absolute).2
            exact (whole List.mem_cons_self (same ▸ by simp)).elim
      rw [text, split, if_neg named, if_neg first, if_neg other, bare]
      exact if_pos (onward_of_disjoint whole)

/-! ## Encoding goes piece by piece -/

/-- A URI with every piece of its text encoded. -/
def encoded (u : HttpUri) : HttpUri :=
  ⟨u.scheme, u.authority.map percentEncode, percentEncode u.path, u.query.map percentEncode⟩

theorem splitScheme_percentEncode (s : Text) :
    splitScheme (percentEncode s) =
      (splitScheme s).map fun parts => (parts.1, percentEncode parts.2) := by
  have known : [':'] ⊆ delimiters := by simp [delimiters]
  rw [splitScheme, splitScheme, upTo_percentEncode known, onward_percentEncode known,
    all_percentEncode (fun c legal => isSchemeChar_ascii legal) (by decide)]
  by_cases legal : (upTo [':'] s).all isSchemeChar = true
  · have ascii : isAscii (upTo [':'] s) = true := List.all_eq_true.mpr fun c member =>
      decide_eq_true (isSchemeChar_ascii (List.all_eq_true.mp legal c member))
    rw [if_pos legal, if_pos legal, stripPrefix_percentEncode (by simp [delimiters]),
      percentEncode_ascii ascii, Option.map_map, Option.map_map]
    rfl
  · rw [if_neg legal, if_neg legal]
    rfl

theorem splitQuery_percentEncode (s : Text) :
    splitQuery (percentEncode s) =
      (percentEncode (splitQuery s).1, (splitQuery s).2.map percentEncode) := by
  have fragment : ['#'] ⊆ delimiters := by simp [delimiters]
  have question : ['?'] ⊆ delimiters := by simp [delimiters]
  rw [splitQuery, splitQuery, upTo_percentEncode fragment]
  dsimp only
  rw [upTo_percentEncode question, onward_percentEncode question]
  rcases onward_cases ['?'] (upTo ['#'] s) with none | ⟨c, stop, rest, found⟩
  · rw [none]
    rfl
  · obtain rfl := List.mem_singleton.mp stop
    rw [found, percentEncode_cons_ascii (by decide)]
    rfl

theorem rooted_percentEncode (path : Text) :
    rooted (percentEncode path) = percentEncode (rooted path) := by
  by_cases empty : path = []
  · rw [empty]
    rfl
  · rw [rooted, rooted, if_neg empty, if_neg (by simpa using empty)]

theorem percentEncode_eq_star : percentEncode s = ['*'] ↔ s = ['*'] := by
  constructor
  · intro same
    cases ascii : s.isAscii with
    | true => rwa [percentEncode_ascii ascii] at same
    | false =>
        have escape := percent_mem ascii
        rw [same] at escape
        exact absurd escape (by decide)
  · rintro rfl
    rfl

theorem split_percentEncode (s : Text) : split (percentEncode s) = (split s).map encoded := by
  have ends : authorityEnds ⊆ delimiters := by simp [authorityEnds, delimiters]
  unfold split
  simp only [percentEncode_eq_nil, head?_percentEncode (d := '/') (by decide) (by decide),
    percentEncode_eq_star, splitScheme_percentEncode]
  by_cases empty : s = []
  · simp [empty]
  by_cases slash : s.head? = some '/'
  · simp [empty, slash, encoded, splitQuery_percentEncode]
  by_cases star : s = ['*']
  · simp only [star, if_pos]
    decide
  rw [if_neg empty, if_neg empty, if_neg slash, if_neg slash, if_neg star, if_neg star]
  cases absolute : splitScheme s with
  | none =>
      simp only [Option.map_none, onward_percentEncode ends, percentEncode_eq_nil]
      by_cases whole : onward authorityEnds s = []
      · simp [whole, encoded]
      · simp [whole]
  | some parts =>
      obtain ⟨scheme, rest⟩ := parts
      simp only [Option.map_some, upTo_percentEncode ends, onward_percentEncode ends,
        percentEncode_eq_nil, splitQuery_percentEncode, rooted_percentEncode]
      by_cases named : upTo authorityEnds rest = []
      · simp [named]
      · simp [named, encoded]

end HttpUri
end HClient.Sansio
