import HClient.Core.Cuts
import HClient.Egress.Prefixes

/-!
# What the bypass dialect says

The patterns of the dialect and what each of them matches, apart from the code; how a pattern is
written; and that the normaliser takes nothing that is not written so, and the matcher matches
what is meant.
-/
namespace HClient.Egress

open Text (toAsciiLowercase isAsciiDigit numberOf)

/-! ## The patterns -/

inductive Pattern where
  | subnet (net : IpAddr) (len : Nat)
  | domain (name : Text) (port : Option Nat)
  | host (name : Text) (port : Option Nat)

/-- Names are the same in either case. -/
def SameName (a b : Text) : Prop := Text.eqIgnoreAsciiCase a b = true

/-- A host without the brackets of an authority. -/
def unbracketed (host : Text) : Text := Text.trimEndMatches ']' (Text.trimStartMatches '[' host)

/-- A pattern with a port is for that port only. -/
def AtPort (want : Option Nat) (port : Nat) : Prop := ∀ p ∈ want, p = port

/-- A subnet matches the addresses that begin with its bits, a domain its name and what ends with
it behind a dot, and a host itself. -/
def Pattern.Matches : Pattern → Text → Nat → Prop
  | .subnet net len, target, _ =>
      ∃ ip, IpAddr.parse (unbracketed target) = some ip ∧ InSubnet net len ip
  | .domain name want, target, port =>
      AtPort want port ∧
        (SameName target name ∨ ∃ front tail, target = front ++ '.' :: tail ∧ SameName tail name)
  | .host name want, target, port => AtPort want port ∧ SameName target name

/-! ## How they are written -/

/-- One octet, in decimal and without leading zeros. -/
def Octet (part : Text) (o : Nat) : Prop :=
  part ≠ [] ∧ part.all isAsciiDigit = true ∧ ¬ (1 < part.length ∧ part.head? = some '0') ∧
    numberOf part < 256 ∧ o = numberOf part

/-- An address, or the first octets of one: the others are zero. -/
inductive Network : Text → IpAddr → Prop
  | address {addr : Text} {ip : IpAddr} : IpAddr.parse addr = some ip → Network addr ip
  | abbreviated {parts : List Text} {os : List Nat} : parts ≠ [] → parts.length < 4 →
      List.Forall₂ Octet parts os → ':' ∉ ['.'].intercalate parts →
      IpAddr.parse (['.'].intercalate parts) = none →
      Network (['.'].intercalate parts) (.v4 (os ++ List.replicate (4 - os.length) 0))

/-- A character that no host pattern refuses. -/
def isPlain (c : Char) : Bool :=
  !(Text.isAsciiWhitespace c || Text.isAsciiControl c || c = '<' || c = '>') && c ≠ '/' && c ≠ '*'

def Name (name : Text) : Prop :=
  name ≠ [] ∧ ∀ c ∈ name, isPlain c = true ∧ c ≠ ':' ∧ c ≠ '[' ∧ c ≠ ']'

/-- What stands before a port, with the port or without one. -/
inductive Ported (body : Text) : Option Nat → Text → Prop
  | without : Ported body none body
  | port {digits : Text} : digits ≠ [] → digits.all isAsciiDigit = true →
      numberOf digits < 65536 → Ported body (some (numberOf digits)) (body ++ ':' :: digits)

/-- A pattern as it is written, in lower case. -/
inductive Written : Pattern → Text → Prop
  | subnet {addr digits : Text} {net : IpAddr} : Network addr net → '/' ∉ addr → digits ≠ [] →
      digits.all isAsciiDigit = true → numberOf digits ≤ width net →
      Written (.subnet net (numberOf digits)) (addr ++ '/' :: digits)
  | host {name s : Text} {port : Option Nat} : Name name → name.head? ≠ some '.' →
      Ported name port s → Written (.host name port) s
  | domain {name s : Text} {port : Option Nat} : Name name → Ported ('.' :: name) port s →
      Written (.domain name port) s
  | wildcard {name s : Text} {port : Option Nat} : Name name →
      Ported ('*' :: '.' :: name) port s → Written (.domain name port) s
  | literal {s : Text} : isIpv6 s = true → s.all isPlain = true → 1 < s.count ':' →
      Written (.host s none) s
  | bracketed {address s : Text} {port : Option Nat} : isIpv6 address = true →
      address.all isPlain = true → ']' ∉ address → Ported ('[' :: (address ++ [']'])) port s →
      Written (.host address port) s

/-! ## Networks -/

section Networks
variable {addr part : Text} {net : IpAddr} {o : Nat}

theorem prefixOctet_eq_some : prefixOctet part = some o ↔ Octet part o := by
  unfold prefixOctet Octet
  by_cases occupied : part = []
  · subst occupied
    constructor
    · intro read
      cases read
    · intro octet
      exact absurd rfl octet.1
  by_cases digit : part.all isAsciiDigit = true
  · rw [Text.parseUnsigned_digits occupied digit]
    simp only [digit, occupied, ne_eq, not_true_eq_false, false_or, not_false_eq_true, true_and]
    by_cases zero : 1 < part.length ∧ part.head? = some '0'
    · simp [zero]
    · rw [if_neg zero]
      by_cases small : numberOf part < 256
      · rw [if_neg (Nat.not_le.mpr small), Option.some.injEq]
        exact ⟨fun same => ⟨zero, small, same.symm⟩, fun octet => octet.2.2.symm⟩
      · rw [if_pos (Nat.le_of_not_lt small)]
        constructor
        · intro none
          cases none
        · intro octet
          exact absurd octet.2.1 small
  · simp [digit]

theorem mapM_prefixOctet {parts : List Text} {os : List Nat} :
    parts.mapM prefixOctet = some os ↔ List.Forall₂ Octet parts os := by
  induction parts generalizing os with
  | nil =>
      rw [List.mapM_nil, List.forall₂_nil_left_iff]
      exact ⟨fun same => (Option.some.inj same).symm, fun same => congrArg some same.symm⟩
  | cons part parts ih =>
      rw [List.mapM_cons, List.forall₂_cons_left_iff]
      simp only [Option.bind_eq_bind, Option.bind_eq_some_iff, prefixOctet_eq_some, ih]
      constructor
      · rintro ⟨o, octet, os', rest, same⟩
        exact ⟨o, os', octet, rest, (Option.some.inj same).symm⟩
      · rintro ⟨o, os', octet, rest, rfl⟩
        exact ⟨o, octet, os', rest, rfl⟩

theorem Octet.of_mem {parts : List Text} {os : List Nat} (octets : List.Forall₂ Octet parts os) :
    (∀ part ∈ parts, ∃ o, Octet part o) ∧ ∀ o ∈ os, ∃ part, Octet part o := by
  induction octets with
  | nil =>
      exact ⟨fun _ member => absurd member List.not_mem_nil,
        fun _ member => absurd member List.not_mem_nil⟩
  | @cons part o parts os octet _ ih =>
      constructor
      · intro part' member
        rcases List.mem_cons.mp member with rfl | member
        · exact ⟨o, octet⟩
        · exact ih.1 part' member
      · intro o' member
        rcases List.mem_cons.mp member with rfl | member
        · exact ⟨part, octet⟩
        · exact ih.2 o' member

theorem parsePrefix_eq_some : parsePrefix addr = some net ↔ Network addr net := by
  constructor
  · intro read
    unfold parsePrefix at read
    cases whole : IpAddr.parse addr with
    | some ip =>
        rw [whole] at read
        cases read
        exact .address whole
    | none =>
        rw [whole] at read
        dsimp only at read
        split at read
        · cases read
        next short =>
          obtain ⟨os, octets, rfl⟩ := Option.map_eq_some_iff.mp read
          rw [not_or, List.contains_iff_mem] at short
          have joined : ['.'].intercalate (addr.splitOn '.') = addr := List.intercalate_splitOn '.'
          have network := @Network.abbreviated (addr.splitOn '.') os
            (List.splitOn_ne_nil _ _) (Nat.lt_of_not_le short.2) (mapM_prefixOctet.mp octets)
            (by rw [joined]; exact short.1) (by rw [joined]; exact whole)
          rwa [joined] at network
  · intro network
    unfold parsePrefix
    cases network with
    | address whole => rw [whole]
    | @abbreviated parts os occupied short octets colon other =>
        have dotless : ∀ part ∈ parts, '.' ∉ part := by
          intro part member dot
          obtain ⟨o, -, digit, -⟩ := (Octet.of_mem octets).1 part member
          exact absurd (List.all_eq_true.mp digit '.' dot) (by decide)
        have cut : (['.'].intercalate parts).splitOn '.' = parts :=
          List.splitOn_intercalate '.' dotless occupied
        rw [other]
        dsimp only
        rw [cut, if_neg (by rw [not_or, List.contains_iff_mem]; exact ⟨colon, Nat.not_le.mpr short⟩),
          mapM_prefixOctet.mpr octets]
        rfl

theorem sized_of_parsePrefix (read : parsePrefix addr = some net) : net.Sized := by
  cases parsePrefix_eq_some.mp read with
  | address whole => exact IpAddr.sized_parse whole
  | @abbreviated parts os occupied short octets colon other =>
      have length : os.length = parts.length := octets.length_eq.symm
      constructor
      · rw [List.length_append, List.length_replicate]
        omega
      · intro o member
        rcases List.mem_append.mp member with member | zero
        · obtain ⟨part, -, -, -, small, rfl⟩ := (Octet.of_mem octets).2 o member
          exact small
        · rw [List.eq_of_mem_replicate zero]
          decide

theorem begins_of_digit {c : Char} (digit : isAsciiDigit c = true) : IpAddr.Begins c := by
  have range := of_decide_eq_true digit
  have below : c.toNat ≤ 57 := range.2
  have small : c.toNat - '0'.toNat < 16 := by
    have zero : '0'.toNat = 48 := rfl
    omega
  refine .inl ?_
  rw [IpAddr.toDigit, if_pos range]
  simp only [Option.filter, small, decide_true, if_true, Option.isSome_some]

/-- A network begins as an address does. -/
theorem Network.begins (network : Network addr net) : ∃ c rest, addr = c :: rest ∧ IpAddr.Begins c := by
  cases network with
  | address whole =>
      cases addr with
      | nil =>
          rw [IpAddr.parse_nil] at whole
          cases whole
      | cons c rest =>
          refine ⟨c, rest, rfl, ?_⟩
          by_contra other
          rw [IpAddr.parse_other other] at whole
          cases whole
  | @abbreviated parts os occupied short octets colon other =>
      cases octets with
      | nil => exact absurd rfl occupied
      | @cons part o parts os octet rest =>
          obtain ⟨some_, digit, -⟩ := octet
          obtain ⟨c, part, rfl⟩ := List.exists_cons_of_ne_nil some_
          have first := begins_of_digit (List.all_eq_true.mp digit c List.mem_cons_self)
          cases parts with
          | nil => exact ⟨c, _, rfl, first⟩
          | cons next parts => exact ⟨c, _, rfl, first⟩

end Networks

/-! ## The matcher -/

section Matcher
variable {s name body target host : Text} {port : Option Nat} {at_ : Nat} {form : Pattern}

/-- What a pattern in lower case is made of stands in lower case. -/
def Lowered (s : Text) : Prop := ∀ c ∈ s, c.toLower = c

theorem Lowered.eq (lowered : Lowered s) : toAsciiLowercase s = s := by
  unfold toAsciiLowercase
  conv_rhs => rw [← List.map_id s]
  exact List.map_congr_left lowered

theorem lowered_toAsciiLowercase (s : Text) : Lowered (toAsciiLowercase s) := by
  intro c member
  obtain ⟨d, -, rfl⟩ := List.mem_map.mp member
  exact Char.toLower_toLower_eq_toLower d

theorem Lowered.sub {t : Text} (lowered : Lowered s) (part : ∀ c ∈ t, c ∈ s) : Lowered t :=
  fun c member => lowered c (part c member)

theorem sameName_iff (lowered : Lowered name) :
    SameName target name ↔ toAsciiLowercase target = name := by
  rw [SameName, Text.eqIgnoreAsciiCase_iff, lowered.eq]

theorem Ported.sub (ported : Ported body port s) : ∀ c ∈ body, c ∈ s := by
  cases ported with
  | without => exact fun c member => member
  | port _ _ _ => exact fun c member => List.mem_append_left _ member

theorem colon_not_mem_digits {digits : Text} (digit : digits.all isAsciiDigit = true) :
    ':' ∉ digits := by
  intro member
  exact absurd (List.all_eq_true.mp digit ':' member) (by decide)

/-- A host and its port are cut where they are put together. -/
theorem splitPattern_ported (ported : Ported body port s) (clean : ':' ∉ body)
    (occupied : body ≠ []) (open_ : body.head? ≠ some '[') : splitPattern s = (body, port) := by
  have first : ∀ rest, s ≠ '[' :: rest := by
    intro rest same
    have begins : s.head? = body.head? := by
      cases ported with
      | without => rfl
      | port _ _ _ => exact List.head?_append_of_ne_nil _ occupied
    rw [same] at begins
    exact open_ begins.symm
  unfold splitPattern
  split
  next rest => exact absurd rfl (first rest)
  · cases ported with
    | without =>
        rw [if_neg (by rw [List.count_eq_zero.mpr clean]; decide), Text.rsplitOnce_eq_none.mpr clean]
    | @port digits some_ digit small =>
        have free := colon_not_mem_digits digit
        have once : (body ++ ':' :: digits).count ':' = 1 := by
          rw [List.count_append, List.count_cons_self, List.count_eq_zero.mpr clean,
            List.count_eq_zero.mpr free]
        rw [if_neg (by rw [once]; decide), Text.rsplitOnce_eq_some.mpr ⟨free, rfl⟩]
        dsimp only
        rw [Text.parseUnsigned_digits some_ digit, if_neg (Nat.not_le.mpr small)]

theorem splitPattern_bracketed {address : Text} (clean : ']' ∉ address)
    (ported : Ported ('[' :: (address ++ [']'])) port s) : splitPattern s = (address, port) := by
  cases ported with
  | without =>
      have cut : Text.splitOnce ']' (address ++ [']']) = some (address, []) :=
        Text.splitOnce_append clean []
      simp only [splitPattern, cut]
  | @port digits some_ digit small =>
      have cut : Text.splitOnce ']' (address ++ [']'] ++ ':' :: digits) =
          some (address, ':' :: digits) := by
        rw [List.append_assoc]
        exact Text.splitOnce_append clean _
      have read : Text.parseUnsigned 65536 digits = some (numberOf digits) := by
        rw [Text.parseUnsigned_digits some_ digit, if_neg (Nat.not_le.mpr small)]
      have stripped : Text.stripPrefix [':'] (':' :: digits) = some digits :=
        Text.stripPrefix_eq_some.mpr rfl
      simp only [splitPattern, List.cons_append, cut, stripped, Option.bind_some, read]

theorem hostMatches_host (dotless : name.head? ≠ some '.') :
    hostMatches name host = true ↔ host = name := by
  have unstripped : Text.stripPrefix ['.'] name = none := by
    apply Option.eq_none_iff_forall_ne_some.mpr
    intro rest stripped
    rw [Text.stripPrefix_eq_some.mp stripped] at dotless
    exact dotless rfl
  rw [hostMatches, unstripped]
  exact decide_eq_true_iff

theorem hostMatches_domain : hostMatches ('.' :: name) host = true ↔
    host = name ∨ '.' :: name <:+ host := by
  have stripped : Text.stripPrefix ['.'] ('.' :: name) = some name :=
    Text.stripPrefix_eq_some.mpr rfl
  rw [hostMatches, stripped]
  dsimp only
  rw [Bool.or_eq_true, decide_eq_true_iff, List.isSuffixOf_iff_suffix]

/-- What ends with a name behind a dot does so in either case. -/
theorem suffix_lower_iff (lowered : Lowered name) : '.' :: name <:+ toAsciiLowercase target ↔
    ∃ front tail, target = front ++ '.' :: tail ∧ SameName tail name := by
  constructor
  · rintro ⟨front, same⟩
    obtain ⟨front', back, rfl, -, behind⟩ := List.map_eq_append_iff.mp same.symm
    cases back with
    | nil => cases behind
    | cons c tail =>
        injection behind with dot tail_
        rw [Text.toLower_eq_iff (by decide)] at dot
        rw [dot]
        exact ⟨front', tail, rfl, (sameName_iff lowered).mpr tail_⟩
  · rintro ⟨front, tail, rfl, same⟩
    refine ⟨toAsciiLowercase front, ?_⟩
    rw [← (sameName_iff lowered).mp same]
    have dot : '.'.toLower = '.' := by decide
    unfold toAsciiLowercase
    rw [List.map_append, List.map_cons, dot]

/-- What the normaliser makes of a pattern in lower case, before it looks at it. -/
def unstarred (s : Text) : Text :=
  match Text.stripPrefix ['*', '.'] s with
  | some rest => '.' :: rest
  | none => s

theorem unstarred_plain (plain : s.head? ≠ some '*') : unstarred s = s := by
  have unstripped : Text.stripPrefix ['*', '.'] s = none := by
    apply Option.eq_none_iff_forall_ne_some.mpr
    intro rest stripped
    rw [Text.stripPrefix_eq_some.mp stripped] at plain
    exact plain rfl
  rw [unstarred, unstripped]

theorem unstarred_star (rest : Text) : unstarred ('*' :: '.' :: rest) = '.' :: rest := by
  have stripped : Text.stripPrefix ['*', '.'] ('*' :: '.' :: rest) = some rest :=
    Text.stripPrefix_eq_some.mpr rfl
  rw [unstarred, stripped]

theorem toLower_beq {c : Char} (other : c.isAlpha = false) :
    (fun d => d == c) ∘ Char.toLower = fun d => d == c := by
  funext d
  rw [Function.comp_apply, Bool.eq_iff_iff, beq_iff_eq, beq_iff_eq, Text.toLower_eq_iff other]

theorem unbracketed_lower (host : Text) :
    unbracketed (toAsciiLowercase host) = toAsciiLowercase (unbracketed host) := by
  unfold unbracketed Text.trimEndMatches Text.trimStartMatches toAsciiLowercase
  rw [List.dropWhile_map, toLower_beq (by decide), ← List.map_reverse, List.dropWhile_map,
    toLower_beq (by decide), ← List.map_reverse]

/-- A subnet matches as its bits do. -/
theorem matchesSubnet_iff {addr digits : Text} {net : IpAddr} (network : Network addr net)
    (clean : '/' ∉ addr) (some_ : digits ≠ []) (digit : digits.all isAsciiDigit = true)
    (within : numberOf digits ≤ width net) (target : Text) :
    matchesSubnet (addr ++ '/' :: digits) (toAsciiLowercase target) = true ↔
      (Pattern.subnet net (numberOf digits)).Matches target at_ := by
  have small : ¬ 2 ^ 32 ≤ numberOf digits := by
    have widest : width net ≤ 128 := by
      cases net with
      | v4 os => exact (by decide : 32 ≤ 128)
      | v6 gs => exact Nat.le_refl 128
    omega
  have sized := sized_of_parsePrefix (parsePrefix_eq_some.mpr network)
  have named : IpAddr.parse (Text.trimEndMatches ']' (Text.trimStartMatches '['
      (toAsciiLowercase target))) = IpAddr.parse (unbracketed target) := by
    rw [← IpAddr.parse_caseless (unbracketed target), ← unbracketed_lower]
    rfl
  unfold matchesSubnet
  rw [Text.splitOnce_append clean]
  dsimp only
  rw [Text.parseUnsigned_digits some_ digit, if_neg small]
  dsimp only
  rw [parsePrefix_eq_some.mpr network, named]
  change _ ↔ ∃ ip, IpAddr.parse (unbracketed target) = some ip ∧ InSubnet net (numberOf digits) ip
  cases read : IpAddr.parse (unbracketed target) with
  | none => simp
  | some ip =>
      have sized' := IpAddr.sized_parse read
      have means : (∃ ip', some ip = some ip' ∧ InSubnet net (numberOf digits) ip') ↔
          InSubnet net (numberOf digits) ip := by simp
      rw [means]
      cases net with
      | v4 os =>
          cases ip with
          | v4 os' =>
              have same := samePrefix_octets sized sized' (.v4 os os') within
              dsimp only
              rw [Bool.and_eq_true, decide_eq_true_iff]
              exact ⟨fun h => ⟨.v4 os os', same.mp h.2⟩, fun h => ⟨within, same.mpr h.2⟩⟩
          | v6 gs' =>
              constructor
              · intro no
                cases no
              · intro inside
                cases inside.1
      | v6 gs =>
          cases ip with
          | v4 os' =>
              constructor
              · intro no
                cases no
              · intro inside
                cases inside.1
          | v6 gs' =>
              have same := samePrefix_octets sized sized' (.v6 gs gs') within
              dsimp only
              rw [Bool.and_eq_true, decide_eq_true_iff]
              exact ⟨fun h => ⟨.v6 gs gs', same.mp h.2⟩, fun h => ⟨within, same.mpr h.2⟩⟩

theorem matchesBypass_split {want : Option Nat} (clean : '/' ∉ s)
    (split : splitPattern s = (body, want)) (target : Text) (at_ : Nat) :
    matchesBypass s target at_ = true ↔
      AtPort want at_ ∧ hostMatches body (toAsciiLowercase target) = true := by
  have slashless : ¬ s.contains '/' = true := by rwa [List.contains_iff_mem]
  unfold matchesBypass
  dsimp only
  rw [if_neg slashless, split]
  cases want with
  | none => simp [AtPort]
  | some p => simp [AtPort]

theorem Name.slashless (called : Name name) : '/' ∉ name := by
  intro member
  have plain := (called.2 _ member).1
  cases plain

theorem Ported.slashless (ported : Ported body port s) (clean : '/' ∉ body) : '/' ∉ s := by
  cases ported with
  | without => exact clean
  | @port digits some_ digit small =>
      intro member
      rcases List.mem_append.mp member with member | member
      · exact clean member
      · rcases List.mem_cons.mp member with same | member
        · cases same
        · exact absurd (List.all_eq_true.mp digit '/' member) (by decide)

/-- Putting something else before the port. -/
theorem Ported.unstar {rest : Text} (ported : Ported ('*' :: '.' :: rest) port s) :
    Ported ('.' :: rest) port (unstarred s) := by
  cases ported with
  | without =>
      rw [unstarred_star]
      exact .without
  | @port digits some_ digit small =>
      have star : unstarred ('*' :: '.' :: rest ++ ':' :: digits) = '.' :: rest ++ ':' :: digits :=
        unstarred_star (rest ++ ':' :: digits)
      rw [star]
      exact .port some_ digit small

theorem matches_domain (called : Name name) (lowered : Lowered name)
    (ported : Ported ('.' :: name) port s) (target : Text) (at_ : Nat) :
    matchesBypass s target at_ = true ↔ (Pattern.domain name port).Matches target at_ := by
  have clean : ':' ∉ '.' :: name := by
    intro member
    rcases List.mem_cons.mp member with same | member
    · cases same
    · exact (called.2 _ member).2.1 rfl
  have slashless : '/' ∉ '.' :: name := by
    intro member
    rcases List.mem_cons.mp member with same | member
    · cases same
    · exact called.slashless member
  have open_ : ('.' :: name).head? ≠ some '[' := by
    intro bracket
    exact absurd (Option.some.inj bracket) (by decide)
  have split := splitPattern_ported ported clean (List.cons_ne_nil _ _) open_
  rw [matchesBypass_split (ported.slashless slashless) split, hostMatches_domain,
    ← sameName_iff lowered, suffix_lower_iff lowered]
  rfl

theorem begins_of_isIpv6 (six : isIpv6 s = true) :
    ∃ c rest, s = c :: rest ∧ IpAddr.Begins c := by
  cases s with
  | nil => cases six
  | cons c rest =>
      refine ⟨c, rest, rfl, ?_⟩
      by_contra other
      rw [isIpv6, IpAddr.readIpv6Addr_other other] at six
      cases six

theorem slashless_of_plain (plain : s.all isPlain = true) : '/' ∉ s := by
  intro member
  exact absurd (List.all_eq_true.mp plain '/' member) (by decide)

/-- What is written is matched as it is meant. -/
theorem Written.matches_iff (written : Written form s) (lowered : Lowered s) (target : Text)
    (at_ : Nat) : matchesBypass (unstarred s) target at_ = true ↔ form.Matches target at_ := by
  cases written with
  | @subnet addr digits net network clean some_ digit within =>
      obtain ⟨c, rest, rfl, begins⟩ := network.begins
      have plain : (c :: rest ++ '/' :: digits).head? ≠ some '*' := by
        intro star
        rw [Option.some.inj star] at begins
        exact absurd begins (by decide)
      have slash : (c :: rest ++ '/' :: digits).contains '/' = true :=
        List.contains_iff_mem.mpr (List.mem_append_right _ List.mem_cons_self)
      rw [unstarred_plain plain, matchesBypass, if_pos slash]
      exact matchesSubnet_iff network clean some_ digit within target
  | @host name s port called dotless ported =>
      have clean : ':' ∉ name := fun member => (called.2 _ member).2.1 rfl
      obtain ⟨c, rest, rfl⟩ := List.exists_cons_of_ne_nil called.1
      have first := called.2 c List.mem_cons_self
      have open_ : (c :: rest).head? ≠ some '[' := by
        intro bracket
        exact first.2.2.1 (Option.some.inj bracket)
      have plain : s.head? ≠ some '*' := by
        intro star
        have begins : s.head? = some c := by
          cases ported <;> rfl
        rw [begins] at star
        rw [Option.some.inj star] at first
        exact absurd first.1 (by decide)
      have split := splitPattern_ported ported clean called.1 open_
      rw [unstarred_plain plain, matchesBypass_split (ported.slashless called.slashless) split,
        hostMatches_host dotless, ← sameName_iff (lowered.sub ported.sub)]
      rfl
  | @domain name s port called ported =>
      have plain : s.head? ≠ some '*' := by
        intro star
        have begins : s.head? = some '.' := by
          cases ported <;> rfl
        rw [begins] at star
        exact absurd (Option.some.inj star) (by decide)
      have within := lowered.sub ported.sub
      rw [unstarred_plain plain]
      exact matches_domain called (within.sub fun c => List.mem_cons_of_mem _) ported target at_
  | @wildcard name s port called ported =>
      have within := lowered.sub ported.sub
      have part : ∀ c ∈ name, c ∈ '*' :: '.' :: name := fun c member =>
        List.mem_cons_of_mem _ (List.mem_cons_of_mem _ member)
      exact matches_domain called (within.sub part) ported.unstar target at_
  | @literal _ six plain colons =>
      obtain ⟨c, rest, rfl, begins⟩ := begins_of_isIpv6 six
      have first (d : Char) (other : ¬ IpAddr.Begins d) : (c :: rest).head? ≠ some d := by
        intro same
        rw [Option.some.inj same] at begins
        exact other begins
      have split : splitPattern (c :: rest) = (c :: rest, none) := by
        unfold splitPattern
        split
        next rest' same => exact absurd (congrArg List.head? same) (first '[' (by decide))
        · rw [if_pos colons]
      rw [unstarred_plain (first '*' (by decide)), matchesBypass_split (slashless_of_plain plain) split,
        hostMatches_host (first '.' (by decide)), ← sameName_iff lowered]
      rfl
  | @bracketed address s port six plain clean ported =>
      obtain ⟨c, rest, rfl, begins⟩ := begins_of_isIpv6 six
      have dotless : (c :: rest).head? ≠ some '.' := by
        intro same
        rw [Option.some.inj same] at begins
        exact absurd begins (by decide)
      have head : s.head? ≠ some '*' := by
        intro star
        have bracket : s.head? = some '[' := by
          cases ported <;> rfl
        rw [bracket] at star
        exact absurd (Option.some.inj star) (by decide)
      have slashless : '/' ∉ '[' :: (c :: rest ++ [']']) := by
        intro member
        rcases List.mem_cons.mp member with same | member
        · cases same
        rcases List.mem_append.mp member with member | member
        · exact slashless_of_plain plain member
        · cases List.mem_singleton.mp member
      have within : ∀ d ∈ c :: rest, d ∈ '[' :: (c :: rest ++ [']']) := fun d member =>
        List.mem_cons_of_mem _ (List.mem_append_left _ member)
      rw [unstarred_plain head, matchesBypass_split (ported.slashless slashless)
        (splitPattern_bracketed clean ported), hostMatches_host dotless,
        ← sameName_iff ((lowered.sub ported.sub).sub within)]
      rfl

end Matcher

/-! ## The normaliser -/

section Normaliser
variable {p q s addr len host : Text}

/-- What the normaliser asks of a pattern. -/
def wellFormed (q : Text) : Bool :=
  match Text.splitOnce '/' q with
  | some (addr, len) => subnetIsWellFormed addr len
  | none => hostPatternIsWellFormed q

theorem normalizeBypass_eq_ok : normalizeBypass p = .ok q ↔
    q = unstarred (toAsciiLowercase p) ∧ '*' ∉ q ∧ wellFormed q = true := by
  have spelled : normalizeBypass p = if (unstarred (toAsciiLowercase p)).contains '*' then
        .error .wildcard
      else if wellFormed (unstarred (toAsciiLowercase p)) then .ok (unstarred (toAsciiLowercase p))
      else .error .malformed := rfl
  rw [spelled]
  generalize unstarred (toAsciiLowercase p) = t
  constructor
  · intro accepted
    split_ifs at accepted with star formed
    cases accepted
    exact ⟨rfl, fun member => star (List.contains_iff_mem.mpr member), formed⟩
  · rintro ⟨rfl, star, formed⟩
    rw [if_neg (by rwa [List.contains_iff_mem]), if_pos formed]

/-- Nothing is left to take off of what has been normalised. -/
theorem unstarred_idem (star : '*' ∉ q) : unstarred q = q := by
  apply unstarred_plain
  intro first
  exact star (List.mem_of_mem_head? first)

theorem lowered_unstarred (lowered : Lowered s) : Lowered (unstarred s) := by
  unfold unstarred
  split
  next rest stripped =>
    rw [Text.stripPrefix_eq_some.mp stripped] at lowered
    exact lowered.sub fun c member => List.mem_cons_of_mem _ member
  · exact lowered

theorem normalizeBypass_idem (accepted : normalizeBypass p = .ok q) : normalizeBypass q = .ok q := by
  obtain ⟨rfl, star, formed⟩ := normalizeBypass_eq_ok.mp accepted
  have lowered := lowered_unstarred (lowered_toAsciiLowercase p)
  apply normalizeBypass_eq_ok.mpr
  rw [lowered.eq, unstarred_idem star]
  exact ⟨rfl, star, formed⟩

/-- The pattern begins with a star that a dot stands for, or it is what it was. -/
theorem unstarred_cases (same : unstarred s = q) :
    (∃ rest, s = '*' :: '.' :: rest ∧ q = '.' :: rest) ∨ s = q := by
  unfold unstarred at same
  split at same
  next rest stripped => exact .inl ⟨rest, Text.stripPrefix_eq_some.mp stripped, same.symm⟩
  · exact .inr same

theorem subnet_wellFormed (formed : subnetIsWellFormed addr len = true) :
    ∃ net, Network addr net ∧ len ≠ [] ∧ len.all isAsciiDigit = true ∧
      numberOf len ≤ width net := by
  unfold subnetIsWellFormed at formed
  split at formed
  · cases formed
  next n read =>
    split_ifs at read with digit
    obtain ⟨occupied, digit⟩ := of_decide_eq_true digit
    rw [Text.parseUnsigned_digits occupied digit] at read
    split_ifs at read
    cases read
    split at formed
    next os net => exact ⟨_, parsePrefix_eq_some.mp net, occupied, digit, of_decide_eq_true formed⟩
    next gs net => exact ⟨_, parsePrefix_eq_some.mp net, occupied, digit, of_decide_eq_true formed⟩
    · cases formed

theorem portOk_iff {port : Text} : portOk port = true ↔
    port ≠ [] ∧ port.all isAsciiDigit = true ∧ numberOf port < 65536 := by
  unfold portOk digits
  rw [Bool.and_eq_true, decide_eq_true_iff]
  constructor
  · rintro ⟨⟨occupied, digit⟩, small⟩
    rw [Text.parseUnsigned_digits occupied digit] at small
    split_ifs at small with large
    · cases small
    · exact ⟨occupied, digit, Nat.lt_of_not_le large⟩
  · rintro ⟨occupied, digit, small⟩
    rw [Text.parseUnsigned_digits occupied digit, if_neg (Nat.not_le.mpr small)]
    exact ⟨⟨occupied, digit⟩, rfl⟩

theorem nameOk_iff : hostPatternIsWellFormed.nameOk host = true ↔
    ((Text.stripPrefix ['.'] host).getD host) ≠ [] ∧
      '[' ∉ (Text.stripPrefix ['.'] host).getD host ∧
      ']' ∉ (Text.stripPrefix ['.'] host).getD host := by
  unfold hostPatternIsWellFormed.nameOk
  simp only [decide_eq_true_iff, List.contains_iff_mem]

theorem Ported.star {body rest : Text} {port : Option Nat}
    (ported : Ported ('.' :: body) port ('.' :: rest)) :
    Ported ('*' :: '.' :: body) port ('*' :: '.' :: rest) := by
  generalize '.' :: rest = t at ported
  cases ported with
  | without => exact .without
  | port some_ digit small => exact .port some_ digit small

theorem name_written {body : Text} {port : Option Nat} (ported : Ported body port q)
    (clean : ':' ∉ body) (ok : hostPatternIsWellFormed.nameOk body = true)
    (plain : q.all isPlain = true) (same : unstarred s = q) : ∃ form, Written form s := by
  obtain ⟨occupied, open_, close⟩ := nameOk_iff.mp ok
  have called (name : Text) (part : ∀ c ∈ name, c ∈ body)
      (is : (Text.stripPrefix ['.'] body).getD body = name) : Name name := by
    rw [is] at occupied open_ close
    refine ⟨occupied, fun c member => ⟨List.all_eq_true.mp plain c (ported.sub c (part c member)), ?_,
      ?_, ?_⟩⟩
    · rintro rfl
      exact clean (part _ member)
    · rintro rfl
      exact open_ member
    · rintro rfl
      exact close member
  cases stripped : Text.stripPrefix ['.'] body with
  | some name =>
      have dotted : body = '.' :: name := Text.stripPrefix_eq_some.mp stripped
      have name_ := called name (fun c member => by rw [dotted]; exact List.mem_cons_of_mem _ member)
        (by rw [stripped]; rfl)
      rw [dotted] at ported
      rcases unstarred_cases same with ⟨rest, rfl, rfl⟩ | rfl
      · exact ⟨_, .wildcard name_ ported.star⟩
      · exact ⟨_, .domain name_ ported⟩
  | none =>
      have name_ := called body (fun c member => member) (by rw [stripped]; rfl)
      have dotless : body.head? ≠ some '.' := by
        intro dot
        cases body with
        | nil => cases dot
        | cons c body =>
            have front : Text.stripPrefix ['.'] (c :: body) = some body := by
              rw [Option.some.inj dot]
              exact Text.stripPrefix_eq_some.mpr rfl
            rw [front] at stripped
            cases stripped
      rcases unstarred_cases same with ⟨rest, rfl, rfl⟩ | rfl
      · exfalso
        apply dotless
        have begins : ('.' :: rest : Text).head? = body.head? := by
          generalize '.' :: rest = t at ported
          cases ported with
          | without => rfl
          | port _ _ _ => exact List.head?_append_of_ne_nil _ name_.1
        exact begins.symm
      · exact ⟨_, .host name_ dotless ported⟩

theorem hostPattern_written (formed : hostPatternIsWellFormed q = true) (slashless : '/' ∉ q)
    (star : '*' ∉ q) (same : unstarred s = q) : ∃ form, Written form s := by
  unfold hostPatternIsWellFormed at formed
  split_ifs at formed with bad
  rw [not_or] at bad
  have plain : q.all isPlain = true := by
    rw [List.all_eq_true]
    intro c member
    have other := Bool.eq_false_iff.mpr (List.any_eq_false.mp (Bool.eq_false_iff.mpr bad.2) c member)
    have noSlash : c ≠ '/' := by
      rintro rfl
      exact slashless member
    have noStar : c ≠ '*' := by
      rintro rfl
      exact star member
    unfold isPlain
    simp [other, noSlash, noStar]
  split at formed
  next rest =>
    split at formed
    next host tail cut =>
      obtain ⟨clean, rfl⟩ := Text.splitOnce_eq_some.mp cut
      rw [Bool.and_eq_true, Bool.or_eq_true, decide_eq_true_iff] at formed
      obtain ⟨six, ends⟩ := formed
      have inner : host.all isPlain = true := by
        rw [List.all_eq_true]
        intro c member
        exact List.all_eq_true.mp plain c (List.mem_cons_of_mem _ (List.mem_append_left _ member))
      have whole : s = '[' :: (host ++ ']' :: tail) := by
        rcases unstarred_cases same with ⟨rest, -, dot⟩ | whole
        · cases dot
        · exact whole
      rcases ends with rfl | ends
      · rw [whole]
        exact ⟨_, .bracketed six inner clean .without⟩
      · obtain ⟨port, stripped, ok⟩ := (Option.any_eq_true _ _).mp ends
        obtain ⟨occupied, digit, small⟩ := portOk_iff.mp ok
        have split : s = '[' :: (host ++ [']']) ++ ':' :: port := by
          rw [whole, Text.stripPrefix_eq_some.mp stripped]
          simp
        rw [split]
        exact ⟨_, .bracketed six inner clean (.port occupied digit small)⟩
    · cases formed
  · split_ifs at formed with colons
    · obtain ⟨c, rest, rfl, begins⟩ := begins_of_isIpv6 formed
      rcases unstarred_cases same with ⟨rest', -, dot⟩ | rfl
      · injection dot with dot
        rw [dot] at begins
        exact absurd begins (by decide)
      · exact ⟨_, .literal formed plain colons⟩
    · split at formed
      next host port cut =>
        obtain ⟨free, rfl⟩ := Text.rsplitOnce_eq_some.mp cut
        rw [Bool.and_eq_true] at formed
        obtain ⟨occupied, digit, small⟩ := portOk_iff.mp formed.1
        have clean : ':' ∉ host := by
          rw [List.count_append, List.count_cons_self] at colons
          apply List.count_eq_zero.mp
          omega
        exact name_written (.port occupied digit small) clean formed.2 plain same
      next uncut =>
        exact name_written .without (Text.rsplitOnce_eq_none.mp uncut) formed plain same

/-- Nothing is taken that is not written as a pattern. -/
theorem exists_written (accepted : normalizeBypass p = .ok q) :
    ∃ form, Written form (toAsciiLowercase p) := by
  obtain ⟨same, star, formed⟩ := normalizeBypass_eq_ok.mp accepted
  unfold wellFormed at formed
  split at formed
  next addr len cut =>
    obtain ⟨clean, rfl⟩ := Text.splitOnce_eq_some.mp cut
    obtain ⟨net, network, occupied, digit, within⟩ := subnet_wellFormed formed
    obtain ⟨c, rest, rfl, begins⟩ := network.begins
    rcases unstarred_cases same.symm with ⟨rest', -, dot⟩ | whole
    · injection dot with dot
      rw [dot] at begins
      exact absurd begins (by decide)
    · rw [whole]
      exact ⟨_, .subnet network clean occupied digit within⟩
  next uncut => exact hostPattern_written formed (Text.splitOnce_eq_none.mp uncut) star same.symm

end Normaliser

/-! ## Without failure -/

/-- `matches_subnet` as it is computed. -/
def matchesSubnetChecked (pattern host : Text) : Option Bool :=
  match Text.splitOnce '/' pattern with
  | none => some false
  | some (addr, len) =>
      match Text.parseUnsigned (2 ^ 32) len with
      | none => some false
      | some len =>
          let host := Text.trimEndMatches ']' (Text.trimStartMatches '[' host)
          match parsePrefix addr, IpAddr.parse host with
          | some (.v4 net), some (.v4 h) =>
              if len ≤ 32 then samePrefixChecked net h len else some false
          | some (.v6 net), some (.v6 h) =>
              if len ≤ 128 then samePrefixChecked (octets (.v6 net)) (octets (.v6 h)) len
              else some false
          | _, _ => some false

/-- `matches_bypass` as it is computed: without an answer where the comparison of two prefixes
fails. -/
def matchesBypassChecked (pattern host : Text) (port : Nat) : Option Bool :=
  let host := toAsciiLowercase host
  if pattern.contains '/' then matchesSubnetChecked pattern host
  else
    match splitPattern pattern with
    | (pHost, some want) => some (want = port && hostMatches pHost host)
    | (pHost, none) => some (hostMatches pHost host)

theorem matchesSubnetChecked_eq (pattern host : Text) :
    matchesSubnetChecked pattern host = some (matchesSubnet pattern host) := by
  unfold matchesSubnetChecked matchesSubnet
  cases Text.splitOnce '/' pattern with
  | none => rfl
  | some cut =>
      obtain ⟨addr, digits⟩ := cut
      dsimp only
      cases Text.parseUnsigned (2 ^ 32) digits with
      | none => rfl
      | some len =>
          dsimp only
          generalize Text.trimEndMatches ']' (Text.trimStartMatches '[' host) = bare
          cases net : parsePrefix addr with
          | none => rfl
          | some net' =>
              cases ip : IpAddr.parse bare with
              | none => cases net' <;> rfl
              | some ip' =>
                  obtain ⟨length, -⟩ := octets_sized (sized_of_parsePrefix net)
                  obtain ⟨length', -⟩ := octets_sized (IpAddr.sized_parse ip)
                  cases net' with
                  | v4 os =>
                      cases ip' with
                      | v4 os' =>
                          change 8 * os.length = 32 at length
                          change 8 * os'.length = 32 at length'
                          dsimp only
                          split
                          next within =>
                            rw [samePrefixChecked_eq (by omega) (by omega), decide_eq_true within,
                              Bool.true_and]
                          next beyond => rw [decide_eq_false beyond, Bool.false_and]
                      | v6 gs' => rfl
                  | v6 gs =>
                      cases ip' with
                      | v4 os' => rfl
                      | v6 gs' =>
                          change 8 * (octets (.v6 gs)).length = 128 at length
                          change 8 * (octets (.v6 gs')).length = 128 at length'
                          dsimp only
                          split
                          next within =>
                            rw [samePrefixChecked_eq (by omega) (by omega), decide_eq_true within,
                              Bool.true_and]
                          next beyond => rw [decide_eq_false beyond, Bool.false_and]

theorem matchesBypassChecked_eq (pattern host : Text) (port : Nat) :
    matchesBypassChecked pattern host port = some (matchesBypass pattern host port) := by
  unfold matchesBypassChecked matchesBypass
  dsimp only
  split
  · exact matchesSubnetChecked_eq _ _
  · generalize splitPattern pattern = cut
    obtain ⟨pHost, want⟩ := cut
    cases want <;> rfl

/-- What is accepted stays as it is normalised and is a pattern of the dialect; every way to read
it says what it matches; and no pattern and no host make the matcher fail. -/
theorem accepted_dialect {p q : Text} (accepted : normalizeBypass p = .ok q) :
    normalizeBypass q = .ok q ∧ (∃ form, Written form (toAsciiLowercase p)) ∧
      (∀ form, Written form (toAsciiLowercase p) → ∀ host port,
        matchesBypass q host port = true ↔ form.Matches host port) ∧
      ∀ pattern host port,
        matchesBypassChecked pattern host port = some (matchesBypass pattern host port) := by
  refine ⟨normalizeBypass_idem accepted, exists_written accepted, ?_, matchesBypassChecked_eq⟩
  intro form written host port
  obtain ⟨rfl, -, -⟩ := normalizeBypass_eq_ok.mp accepted
  exact written.matches_iff (lowered_toAsciiLowercase p) host port

theorem accepted_wildcard : normalizeBypass ".example.com:8080".toList =
    .ok ".example.com:8080".toList := by
  have accepted : normalizeBypass "*.Example.com:8080".toList =
      .ok ".example.com:8080".toList := by decide +kernel
  exact (accepted_dialect accepted).1

end HClient.Egress
