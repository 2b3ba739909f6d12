import HClient.Proxy.Connect

/-!
# What the proxy's replies come to

The two SOCKS handshakes come to the same however the stream is cut, since each message says its
own length and is taken once it is whole. `CONNECT` does within its bound.
-/
namespace HClient.Proxy

/-! ## SOCKS4a -/

namespace Socks4

theorem framed : Framed (H := Socks4) fun _ _ => True where
  waits {h h' buf rest} advanced := by
    change advance h buf = _ at advanced
    unfold advance at advanced
    split at advanced
    · cases advanced
    · split at advanced
      · split at advanced
        · cases advanced
          exact ⟨rfl, rfl⟩
        · split at advanced
          · cases advanced
          · split at advanced <;> cases advanced
      · cases advanced
        exact ⟨rfl, rfl⟩
  keeps _ _ := trivial
  settles {h buf more} _ moves := by
    change advance h (buf ++ more) = (advance h buf).map _
    change ¬ NeedsMore (advance h buf) at moves
    unfold advance at moves ⊢
    by_cases awaits : h.awaitingReply
    case neg =>
      rw [if_pos awaits, if_pos awaits]
      rfl
    case pos =>
      rw [if_neg (not_not.mpr awaits)] at moves ⊢
      rw [if_neg (not_not.mpr awaits)]
      match buf with
      | [] => exact absurd ⟨_, _, rfl⟩ moves
      | [_] => exact absurd ⟨_, _, rfl⟩ moves
      | vn :: cd :: rest =>
          dsimp only [List.cons_append] at moves ⊢
          by_cases short : (vn :: cd :: rest).length < replyLen
          · rw [if_pos short] at moves
            exact absurd ⟨_, _, rfl⟩ moves
          · have whole : ¬ (vn :: cd :: (rest ++ more)).length < replyLen := by
              simp only [List.length_cons, List.length_append] at short ⊢
              omega
            rw [if_neg short, if_neg whole]
            split
            · rfl
            · split
              · rfl
              · change Except.ok _ = Except.ok _
                rw [withMore, ← List.drop_append_of_le_length (by omega)]
                rfl

theorem leaves : Leaves (H := Socks4) fun h stream left =>
    left = if h.awaitingReply then stream.drop replyLen else stream where
  waits := framed.waits
  wrote {h h' buf bytes rest} advanced := by
    change advance h buf = _ at advanced
    unfold advance at advanced
    split at advanced
    · cases advanced
    · split at advanced
      · split at advanced
        · cases advanced
        · split at advanced
          · cases advanced
          · split at advanced <;> cases advanced
      · cases advanced
  done {h h' buf rest} advanced more := by
    change advance h buf = _ at advanced
    unfold advance at advanced
    split at advanced
    next ended =>
      cases advanced
      rw [if_neg ended]
    next awaits =>
      rw [if_pos (not_not.mp awaits)]
      split at advanced
      next =>
        split at advanced
        · cases advanced
        next whole =>
          split at advanced
          · cases advanced
          · split at advanced <;> cases advanced
            rw [List.drop_append_of_le_length (by omega)]
      next => cases advanced

end Socks4

/-! ## SOCKS5 -/

namespace Socks5

/-- What a handshake does with a whole message, whatever stands behind it. -/
inductive Advances (h : Socks5) : List UInt8 → Step → State → List UInt8 → Prop
  | chosePassword {v : UInt8} {rest} (state : h.state = .awaitingMethod) (request : List UInt8) :
      Advances h (v :: methodPassword :: rest) (.write request) .awaitingAuthReply rest
  | choseNone {v method : UInt8} {rest} (state : h.state = .awaitingMethod)
      (other : method ≠ methodPassword) :
      Advances h (v :: method :: rest) (.write h.request) .awaitingReply rest
  | authorized {v status : UInt8} {rest} (state : h.state = .awaitingAuthReply) :
      Advances h (v :: status :: rest) (.write h.request) .awaitingReply rest
  | replied {v rep reserved atyp : UInt8} {more : List UInt8} {n : Nat}
      (state : h.state = .awaitingReply) (address : addrLen atyp more = .ok (some n))
      (whole : 4 + n + 2 ≤ (v :: rep :: reserved :: atyp :: more).length) :
      Advances h (v :: rep :: reserved :: atyp :: more) .done .done
        ((v :: rep :: reserved :: atyp :: more).drop (4 + n + 2))
  | ended {stream} (state : h.state = .done) : Advances h stream .done .done stream

theorem expectVersion_cases (v : UInt8) :
    expectVersion v = .ok () ∨ expectVersion v = .error (refusal (.badVersion v)) := by
  unfold expectVersion
  split
  · exact .inl rfl
  · exact .inr rfl

theorem addrLen_append {atyp : UInt8} {bytes more : List UInt8}
    (said : addrLen atyp bytes ≠ .ok none) : addrLen atyp (bytes ++ more) = addrLen atyp bytes := by
  unfold addrLen at said ⊢
  cases bytes with
  | cons b bytes => rfl
  | nil =>
      split
      · rfl
      next four =>
        split
        · rfl
        next sixteen =>
          split
          next name =>
            rw [if_neg four, if_neg sixteen, if_pos name] at said
            exact absurd rfl said
          · rfl

/-- It fails, it needs more and has taken nothing, or it takes a whole message. -/
theorem advance_cases (h : Socks5) (buf : List UInt8) :
    ((∃ e, ∀ more, advance h (buf ++ more) = .error e) ∨
      advance h buf = .ok (.needMore, h, buf)) ∨
      ∃ step h' rest, Advances h buf step h'.state rest ∧
        ∀ more, advance h (buf ++ more) = .ok (step, h', rest ++ more) := by
  cases state : h.state with
  | fresh => exact .inl (.inr (by simp only [advance, state]))
  | done => exact .inr ⟨.done, h, buf, state ▸ .ended state, fun more => by simp only [advance, state]⟩
  | awaitingMethod =>
      rcases buf with _ | ⟨v, _ | ⟨method, rest⟩⟩
      · exact .inl (.inr (by simp only [advance, state]))
      · exact .inl (.inr (by simp only [advance, state]))
      · obtain version | version := expectVersion_cases v
        case inr =>
          refine .inl (.inl ⟨refusal (.badVersion v), fun more => ?_⟩)
          simp only [advance, state, List.cons_append, version]
          rfl
        by_cases unacceptable : method = methodUnacceptable
        · refine .inl (.inl ⟨refusal .noAcceptableMethods, fun more => ?_⟩)
          simp only [advance, state, List.cons_append, version, unacceptable]
          rfl
        by_cases offers : method ∈ h.offered
        case neg =>
          refine .inl (.inl ⟨refusal (.unofferedMethod method), fun more => ?_⟩)
          simp only [advance, state, List.cons_append, version]
          change (if _ then _ else if _ : _ then _ else _) = _
          rw [if_neg unacceptable, dif_neg offers]
          rfl
        by_cases password : method = methodPassword
        · let auth := h.auth.get (h.credentials (password ▸ offers))
          refine .inr ⟨.write (authRequest auth.1 auth.2),
            ⟨h.auth, .awaitingAuthReply, h.offered, h.request, h.credentials⟩, rest,
            password ▸ .chosePassword state _, fun more => ?_⟩
          simp only [advance, state, List.cons_append, version]
          change (if _ then _ else if _ : _ then _ else _) = _
          rw [if_neg unacceptable, dif_pos offers, dif_pos password]
          rfl
        · refine .inr ⟨.write h.request,
            ⟨h.auth, .awaitingReply, h.offered, h.request, h.credentials⟩, rest,
            .choseNone state password, fun more => ?_⟩
          simp only [advance, state, List.cons_append, version]
          change (if _ then _ else if _ : _ then _ else _) = _
          rw [if_neg unacceptable, dif_pos offers, dif_neg password]
          rfl
  | awaitingAuthReply =>
      rcases buf with _ | ⟨v, _ | ⟨status, rest⟩⟩
      · exact .inl (.inr (by simp only [advance, state]))
      · exact .inl (.inr (by simp only [advance, state]))
      · by_cases bad : status ≠ 0x00
        · refine .inl (.inl ⟨refusal .badCredentials, fun more => ?_⟩)
          simp only [advance, state, List.cons_append]
          exact if_pos bad
        · refine .inr ⟨.write h.request,
            ⟨h.auth, .awaitingReply, h.offered, h.request, h.credentials⟩, rest,
            .authorized state, fun more => ?_⟩
          simp only [advance, state, List.cons_append]
          exact if_neg bad
  | awaitingReply =>
      rcases buf with _ | ⟨v, _ | ⟨rep, _ | ⟨reserved, _ | ⟨atyp, rest⟩⟩⟩⟩
      · exact .inl (.inr (by simp only [advance, state]))
      · exact .inl (.inr (by simp only [advance, state]))
      · exact .inl (.inr (by simp only [advance, state]))
      · exact .inl (.inr (by simp only [advance, state]))
      · obtain version | version := expectVersion_cases v
        case inr =>
          refine .inl (.inl ⟨refusal (.badVersion v), fun more => ?_⟩)
          simp only [advance, state, List.cons_append, version]
          rfl
        by_cases refused : rep ≠ 0x00
        · refine .inl (.inl ⟨⟨.connect, .socks5Refused rep⟩, fun more => ?_⟩)
          simp only [advance, state, List.cons_append, version]
          exact if_pos refused
        have reads : ∀ bytes, advance h (v :: rep :: reserved :: atyp :: bytes) =
            addrLen atyp bytes >>= fun len =>
              len.elim (pure (.needMore, h, v :: rep :: reserved :: atyp :: bytes)) fun n =>
                if (v :: rep :: reserved :: atyp :: bytes).length < 4 + n + 2 then
                  pure (.needMore, h, v :: rep :: reserved :: atyp :: bytes)
                else pure (.done, { h with state := .done },
                  (v :: rep :: reserved :: atyp :: bytes).drop (4 + n + 2)) := by
          intro bytes
          simp only [advance, state, version]
          refine (if_neg refused).trans ?_
          cases addrLen atyp bytes with
          | error e => rfl
          | ok len => cases len <;> rfl
        rcases address : addrLen atyp rest with e | _ | n
        · refine .inl (.inl ⟨e, fun more => ?_⟩)
          rw [List.cons_append, List.cons_append, List.cons_append, List.cons_append, reads,
            addrLen_append (by rw [address]; nofun), address]
          rfl
        · refine .inl (.inr ?_)
          rw [reads, address]
          rfl
        · by_cases short : (v :: rep :: reserved :: atyp :: rest).length < 4 + n + 2
          · refine .inl (.inr ?_)
            rw [reads, address]
            exact if_pos short
          · refine .inr ⟨.done, ⟨h.auth, .done, h.offered, h.request, h.credentials⟩, _,
              .replied state address (Nat.le_of_not_lt short), fun more => ?_⟩
            rw [List.cons_append, List.cons_append, List.cons_append, List.cons_append, reads,
              addrLen_append (by rw [address]; nofun), address]
            have whole : ¬ (v :: rep :: reserved :: atyp :: (rest ++ more)).length < 4 + n + 2 := by
              simp only [List.length_cons, List.length_append] at short ⊢
              omega
            refine (if_neg whole).trans ?_
            rw [← List.drop_append_of_le_length (by omega)]
            rfl

/-- What a call answers is that it needs more, or a whole message. -/
theorem advance_ok {h h' : Socks5} {buf rest : List UInt8} {step : Step}
    (advanced : advance h buf = .ok (step, h', rest)) :
    (step = .needMore ∧ h' = h ∧ rest = buf) ∨ Advances h buf step h'.state rest := by
  obtain (⟨e, failed⟩ | waits) | ⟨step, next, rest', advances, moved⟩ := advance_cases h buf
  · have := failed []
    rw [List.append_nil, advanced] at this
    cases this
  · rw [waits] at advanced
    cases advanced
    exact .inl ⟨rfl, rfl, rfl⟩
  · have := moved []
    rw [List.append_nil, List.append_nil, advanced] at this
    cases this
    exact .inr advances

theorem framed : Framed (H := Socks5) fun _ _ => True where
  waits {h h' buf rest} advanced := by
    obtain ⟨-, rfl, rfl⟩ | advances := advance_ok advanced
    · exact ⟨rfl, rfl⟩
    · cases advances
  keeps _ _ := trivial
  settles {h buf more} _ moves := by
    change advance h (buf ++ more) = (advance h buf).map _
    obtain (⟨e, failed⟩ | waits) | ⟨step, next, rest, -, moved⟩ := advance_cases h buf
    · have here := failed []
      rw [List.append_nil] at here
      rw [failed, here]
      rfl
    · exact absurd ⟨h, buf, waits⟩ moves
    · have here := moved []
      rw [List.append_nil, List.append_nil] at here
      rw [moved, here]
      rfl

/-- The length of the last reply. -/
def replyLen (stream : List UInt8) : Nat :=
  match addrLen ((stream[3]?).getD 0) (stream.drop 4) with
  | .ok (some n) => 4 + n + 2
  | _ => 0

/-- How much of the stream is replies. -/
def repliesLen : State → List UInt8 → Nat
  | .awaitingMethod, stream =>
      if stream[1]? = some methodPassword then 4 + replyLen (stream.drop 4)
      else 2 + replyLen (stream.drop 2)
  | .awaitingAuthReply, stream => 2 + replyLen (stream.drop 2)
  | .awaitingReply, stream => replyLen stream
  | _, _ => 0

theorem leaves : Leaves (H := Socks5) fun h stream left =>
    left = stream.drop (repliesLen h.state stream) where
  waits := framed.waits
  done {h h' buf rest} advanced more := by
    obtain ⟨none_, -, -⟩ | advances := advance_ok advanced
    · cases none_
    · generalize finished : h'.state = state' at advances
      cases advances with
      | ended state => rw [state]; rfl
      | @replied v rep reserved atyp bytes n state address whole =>
          rw [state, ← List.drop_append_of_le_length whole]
          have len : replyLen (v :: rep :: reserved :: atyp :: bytes ++ more) = 4 + n + 2 := by
            change (match addrLen atyp (bytes ++ more) with
              | .ok (some n) => 4 + n + 2
              | _ => 0) = _
            rw [addrLen_append (by rw [address]; nofun), address]
          rw [repliesLen, len]
  wrote {h h' buf bytes rest} advanced more left := by
    rintro rfl
    obtain ⟨none_, -, -⟩ | advances := advance_ok advanced
    · cases none_
    · generalize finished : h'.state = state' at advances ⊢
      cases advances with
      | @chosePassword v rest state =>
          rw [state]
          change _ = List.drop (4 + replyLen ((rest ++ more).drop 2)) (v :: _ :: (rest ++ more))
          rw [show 4 = 2 + 2 from rfl, Nat.add_assoc, Nat.add_comm 2, List.drop_succ_cons,
            List.drop_succ_cons]
          rfl
      | @choseNone v method rest state other =>
          rw [state]
          have second : (v :: method :: rest ++ more)[1]? ≠ some methodPassword := fun same =>
            other (Option.some.inj same)
          rw [repliesLen, repliesLen, if_neg second, Nat.add_comm 2]
          rfl
      | @authorized v status rest state =>
          rw [state, repliesLen, repliesLen, Nat.add_comm 2]
          rfl

theorem begins_state {h h' : Socks5} {host : Text} {port : UInt16} {io : Io}
    (begins : Begins h host port io h') : h'.state = .awaitingMethod := by
  obtain ⟨request, begun, -⟩ := begins
  change begin h host port = _ at begun
  unfold begin at begun
  dsimp only at begun
  split at begun
  · cases begun
  · split at begun <;> cases begun <;> rfl

end Socks5

theorem Socks4.begins_awaits {h h' : Socks4} {host : Text} {port : UInt16} {io : Io}
    (begins : Begins h host port io h') : h'.awaitingReply = true := by
  obtain ⟨request, begun, -⟩ := begins
  change begin h host port = _ at begun
  unfold begin at begun
  dsimp only at begun
  split at begun
  · cases begun
  · split at begun <;> cases begun
    rfl

/-! ## The three of them -/

/-- `CONNECT` comes to the same over any two ways of cutting the stream where it writes nothing or
the head is decided within the bound and a byte, and only there; the SOCKS handshakes always do.
On every cut what is handed on and what is not read yet are what follows the replies. -/
theorem handshakes_agree_iff (isAuthority : Text → Bool) (host : Text) (port : UInt16) (io : Io)
    (stream : List UInt8) :
    (∀ h : HttpConnect isAuthority,
      (Agree h host port io stream ↔
        ((∃ h', Begins h host port io h') → HttpConnect.Decides stream)) ∧
      ∀ reads left io', Cut stream reads →
        drive h host port { io with reads } = (.established left, io') →
          ∃ head n, parseResponse stream = .ok (some (head, n)) ∧
            left ++ io'.reads.flatten = stream.drop n) ∧
    (∀ h : Socks5,
      Agree h host port io stream ∧
      ∀ reads left io', Cut stream reads →
        drive h host port { io with reads } = (.established left, io') →
          left ++ io'.reads.flatten = stream.drop (Socks5.repliesLen .awaitingMethod stream)) ∧
    (∀ h : Socks4,
      Agree h host port io stream ∧
      ∀ reads left io', Cut stream reads →
        drive h host port { io with reads } = (.established left, io') →
          left ++ io'.reads.flatten = stream.drop Socks4.replyLen) := by
  refine ⟨fun h => ⟨⟨fun agree begins => ?_, fun decides => ?_⟩, fun reads left io' cut drove => ?_⟩,
    fun h => ⟨?_, fun reads left io' cut drove => ?_⟩,
    fun h => ⟨?_, fun reads left io' cut drove => ?_⟩⟩
  · obtain ⟨h', begins⟩ := begins
    by_contra undecided
    exact HttpConnect.not_agree undecided begins agree
  · exact drive_agree HttpConnect.framed fun h' begins _ => decides ⟨h', begins⟩
  · obtain ⟨h', begins, behind⟩ := drive_left HttpConnect.leaves cut drove
    rw [if_pos (HttpConnect.begins_awaits begins)] at behind
    obtain ⟨head, n, parsed, -, behind⟩ := behind
    exact ⟨head, n, parsed, behind⟩
  · exact drive_agree Socks5.framed fun _ _ => trivial
  · obtain ⟨h', begins, behind⟩ := drive_left Socks5.leaves cut drove
    rw [Socks5.begins_state begins] at behind
    exact behind
  · exact drive_agree Socks4.framed fun _ _ => trivial
  · obtain ⟨h', begins, behind⟩ := drive_left Socks4.leaves cut drove
    rw [if_pos (Socks4.begins_awaits begins)] at behind
    exact behind

/-! ## A head that ends just past the bound -/

namespace HttpConnect

/-- A head with so long a reason, and what ends it. -/
def reasonHead (n : Nat) (tail : List UInt8) : List UInt8 :=
  Bytes.ascii "HTTP/1.1 200 " ++ (List.replicate n 97 ++ 13 :: tail)

theorem takeWhile0_reason (n : Nat) (tail : List UInt8) :
    (Grammar.takeWhile0 Head.isLineByte : Head.Parser _).run (List.replicate n 97 ++ 13 :: tail) =
      .parsed (List.replicate n 97) n := by
  have all : ∀ b ∈ List.replicate n (97 : UInt8), Head.isLineByte b = true := fun b member => by
    rw [List.eq_of_mem_replicate member]
    rfl
  change (if _ then _ else _) = _
  rw [if_neg]
  · rw [List.takeWhile_append_of_pos all]
    simp [Head.isLineByte]
  · simp [Head.isLineByte]

theorem statusLine_reason (n : Nat) (tail : List UInt8) :
    Head.statusLine.run (reasonHead n tail) = .parsed (.http11, 200) (13 + n) := by
  have version : Head.version.run (Bytes.ascii "HTTP/1.1 200 ") = .parsed .http11 8 := by
    decide +kernel
  have space : (Head.literal " ").run (Bytes.ascii " 200 ") = .parsed () 1 := by decide +kernel
  have status : Head.statusCode.run (Bytes.ascii "200 ") = .parsed 200 3 := by decide +kernel
  have last : (Head.literal " ").run (Bytes.ascii " ") = .parsed () 1 := by decide +kernel
  have reason : (Grammar.opt ((Head.literal " ").bind fun _ =>
      Grammar.takeWhile0 Head.isLineByte)).run
        (Bytes.ascii " " ++ (List.replicate n 97 ++ 13 :: tail)) =
      .parsed (some (List.replicate n 97)) (1 + n) := by
    refine Grammar.run_opt ?_
    rw [Grammar.run_bind (Grammar.run_append last _)]
    change Grammar.Answer.after 1 (Grammar.run _ (List.replicate n 97 ++ 13 :: tail)) = _
    rw [takeWhile0_reason]
    rfl
  change (Head.version.bind fun v => (Head.literal " ").bind fun _ => Head.statusCode.bind fun s =>
    (Grammar.opt ((Head.literal " ").bind fun _ => Grammar.takeWhile0 Head.isLineByte)).bind
      fun _ => Grammar.pure (v, s)).run _ = _
  rw [reasonHead, Grammar.run_bind (Grammar.run_append version _)]
  change Grammar.Answer.after 8 (Grammar.run _ (Bytes.ascii " 200 " ++ _)) = _
  rw [Grammar.run_bind (Grammar.run_append space _)]
  change Grammar.Answer.after 8 (Grammar.Answer.after 1 (Grammar.run _ (Bytes.ascii "200 " ++ _))) = _
  rw [Grammar.run_bind (Grammar.run_append status _)]
  change Grammar.Answer.after 8 (Grammar.Answer.after 1 (Grammar.Answer.after 3
    (Grammar.run _ (Bytes.ascii " " ++ _)))) = _
  rw [Grammar.run_bind reason]
  change Grammar.Answer.parsed _ (8 + (1 + (3 + (1 + n + 0)))) = _
  congr 1
  omega

/-- What follows the status line is all that is left to parse. -/
theorem parseResponse_reason (n : Nat) :
    parseResponse (reasonHead n [10, 13]) = .ok none ∧
      parseResponse (reasonHead n [10, 13, 10]) = .ok (some (⟨200, .http11, []⟩, n + 17)) := by
  have behind : ∀ tail, (reasonHead n tail).drop (13 + n) = 13 :: tail := by
    intro tail
    have front : (Bytes.ascii "HTTP/1.1 200 " ++ List.replicate n 97).length = 13 + n := by
      rw [List.length_append, List.length_replicate]
      rfl
    rw [reasonHead, ← List.append_assoc, ← front, List.drop_left]
  let after (line : HttpVersion × StatusCode) : Head.Parser ResponseParts :=
    Head.crlf.bind fun _ => (Grammar.many Head.field Head.field_advances).bind fun fields =>
      Head.crlf.bind fun _ =>
        Grammar.pure ⟨line.2, line.1, fields.foldl (fun headers f => headers.append f.1 f.2) []⟩
  have run : ∀ tail, Head.head.run (reasonHead n tail) =
      ((after (.http11, 200)).run (13 :: tail)).after (13 + n) := by
    intro tail
    change (Head.statusLine.bind after).run _ = _
    rw [Grammar.run_bind (statusLine_reason n tail), behind]
  have incomplete : (after (.http11, 200)).run [13, 10, 13] = .incomplete := by decide +kernel
  have complete : (after (.http11, 200)).run [13, 10, 13, 10] =
      .parsed ⟨200, .http11, []⟩ 4 := by decide +kernel
  constructor
  · rw [parseResponse, run, incomplete]
    rfl
  · rw [parseResponse, run, complete]
    change Except.ok (some (_, 13 + n + 4)) = _
    rw [show 13 + n + 4 = n + 17 by omega]

/-- It takes one byte more than the bound lets it take unnoticed. -/
def lateHead : List UInt8 := reasonHead 65521 [10, 13, 10]

theorem length_reasonHead (n : Nat) (tail : List UInt8) :
    (reasonHead n tail).length = n + tail.length + 14 := by
  rw [reasonHead, List.length_append, List.length_append, List.length_replicate, List.length_cons]
  change 13 + (n + (tail.length + 1)) = _
  omega

theorem reasonHead_concat (n : Nat) : reasonHead n [10, 13, 10] = reasonHead n [10, 13] ++
    [10] := by
  simp [reasonHead]

theorem lateHead_undecided : ¬ Decides lateHead := by
  have cut : lateHead = reasonHead 65521 [10, 13] ++ [10] := reasonHead_concat 65521
  have size : (reasonHead 65521 [10, 13]).length = maxHead + 1 := length_reasonHead _ _
  rintro (decided | short)
  · rw [cut, List.take_left' size] at decided
    exact decided (parseResponse_reason 65521).1
  · rw [cut, List.length_append, size] at short
    exact absurd short (Nat.not_le.mpr (Nat.lt_succ_self _))

/-- The head of a granted tunnel is refused for its length where a read ends just past the bound,
and taken where none does. -/
theorem late_head_is_refused_or_granted : ∃ reads reads', Cut lateHead reads ∧
    Cut lateHead reads' ∧
    (drive (⟨none, false⟩ : HttpConnect fun _ => true) ['a'] 443
      ⟨reads, .quiet, [.ok 64, .ok 0], []⟩).1 = .refused (refusal (.headTooLong 65537)) ∧
    (drive (⟨none, false⟩ : HttpConnect fun _ => true) ['a'] 443
      ⟨reads', .quiet, [.ok 64, .ok 0], []⟩).1 = .established [] := by
  have long := undecided_long lateHead_undecided
  have whole : parseResponse lateHead = .ok (some (⟨200, .http11, []⟩, 65538)) :=
    (parseResponse_reason 65521).2
  have size : lateHead.length = maxHead + 2 := length_reasonHead _ _
  obtain ⟨h', io', begins, drove⟩ | ⟨never, -⟩ := drive_cases
    (⟨none, false⟩ : HttpConnect fun _ => true) ['a'] 443 ⟨[], .quiet, [.ok 64, .ok 0], []⟩
  case inr => exact absurd ⟨_, rfl, by decide +kernel⟩ (never ⟨none, true⟩)
  have awaits := begins_awaits begins
  refine ⟨_, _, cut_bytes lateHead, cut_pastBound long, ?_, ?_⟩
  · exact (congrArg Prod.fst (drove _)).trans (drive_bytes lateHead_undecided awaits io')
  · obtain ⟨rest, past⟩ := drive_pastBound lateHead_undecided awaits io'
    refine (congrArg Prod.fst ((drove _).trans past)).trans ?_
    rw [← size, List.take_length]
    have granted : Handshake.advance h' lateHead =
        .ok (.done, { h' with awaitingHead := false }, []) := by
      change advance h' lateHead = _
      unfold advance
      rw [if_neg (not_not.mpr awaits), whole]
      dsimp only
      rw [List.drop_eq_nil_of_le (show lateHead.length ≤ 65538 from Nat.le_of_eq size)]
      rfl
    rw [driveLoop_done granted]

end HttpConnect
end HClient.Proxy
