import HClient.Core.Trimming
import HClient.Core.Words
import HClient.Client.Run

/-!
# The credential file

`auth::netrc`: the file's lines are read one by one, each as its words. Beside the reader stands
the file as one stream of words, whatever lines they are on, and what the items of that stream
come to as entries. The two are the same where every keyword has its value on its own line.
-/
namespace HClient

structure Netrc.Entry where
  machine : Option Text
  login : Text
  password : Text
  account : Option Text
  deriving DecidableEq, Repr

structure Netrc where
  entries : List Netrc.Entry
  deriving DecidableEq, Repr

namespace Netrc

inductive Field where
  | login
  | password
  | account
  deriving DecidableEq, Repr

inductive Keyword where
  | machine
  | default
  | field (field : Field)
  | macdef
  deriving DecidableEq, Repr

def keyword (token : Text) : Option Keyword :=
  if token = "machine".toList then some .machine
  else if token = "default".toList then some .default
  else if token = "login".toList then some (.field .login)
  else if token = "password".toList then some (.field .password)
  else if token = "account".toList then some (.field .account)
  else if token = "macdef".toList then some .macdef
  else none

def Entry.named (machine : Option Text) : Entry := ⟨machine, [], [], none⟩

/-- The first value wins. -/
def Entry.fill (e : Entry) : Field → Text → Entry
  | .login, value => if e.login.isEmpty then { e with login := value } else e
  | .password, value => if e.password.isEmpty then { e with password := value } else e
  | .account, value => if e.account.isNone then { e with account := some value } else e

/-- `entries.last_mut()`. -/
def onLast (f : Entry → Entry) : List Entry → List Entry
  | [] => []
  | [e] => [f e]
  | e :: next :: entries => e :: onLast f (next :: entries)

/-- The loop of `parse` between two lines. -/
structure Parser where
  entries : List Entry
  inMacdef : Bool
  deriving DecidableEq, Repr

namespace Parser

def start : Parser := ⟨[], false⟩

def push (s : Parser) (machine : Option Text) : Parser :=
  { s with entries := s.entries ++ [Entry.named machine] }

def fill (s : Parser) (field : Field) (value : Text) : Parser :=
  { s with entries := onLast (fun e => e.fill field value) s.entries }

/-- The words of one line. What a keyword takes is the next word of the same line. -/
def readTokens (s : Parser) : List Text → Parser
  | [] => s
  | token :: tokens =>
      match keyword token, tokens with
      | some .machine, name :: tokens => readTokens (s.push (some name)) tokens
      | some .default, tokens => readTokens (s.push none) tokens
      | some (.field field), value :: tokens => readTokens (s.fill field value) tokens
      | some .macdef, _ :: tokens => readTokens { s with inMacdef := true } tokens
      | some .macdef, [] => { s with inMacdef := true }
      | some .machine, [] => s
      | some (.field _), [] => s
      | none, tokens => readTokens s tokens

end Parser

/-- `line.trim_start().starts_with('#')`. -/
def isComment (line : Text) : Bool := (line.dropWhile Text.isWhitespace).head? = some '#'

def Parser.readLine (s : Parser) (line : Text) : Parser :=
  if s.inMacdef then
    -- A macro's body ends at the first null line.
    if (Text.trim line).isEmpty then { s with inMacdef := false } else s
  else if isComment line then s
  else s.readTokens (Text.splitWhitespace line)

def retain (e : Entry) : Bool := e.machine.isNone || !e.login.isEmpty || !e.password.isEmpty

/-- The lines as the loop reads them, less a return at the end. -/
def fileLines (text : Text) : List Text := (Text.lines text).map Text.dropReturn

def parse (text : Text) : Netrc :=
  ⟨((fileLines text).foldl Parser.readLine .start).entries.filter retain⟩

/-- The loop of `entries_lookup`, with the first default met so far. -/
def entriesLookup (host : Text) (fallback : Option Entry) : List Entry → Option Entry
  | [] => fallback
  | e :: entries =>
      match e.machine with
      | some name => if name = host then some e else entriesLookup host fallback entries
      | none =>
          if fallback.isNone then entriesLookup host (some e) entries
          else entriesLookup host fallback entries

def lookup (netrc : Netrc) (host : Text) : Option Entry := entriesLookup host none netrc.entries

/-! ## The stream of words -/

/-- What a file is made of, on whatever lines it stands. -/
inductive Item where
  | opens (machine : Option Text)
  | gives (field : Field) (value : Text)
  | macdef
  deriving DecidableEq, Repr

/-- A keyword takes the next word, and words that no keyword takes are dropped. -/
def items : List Text → List Item
  | [] => []
  | token :: tokens =>
      match keyword token, tokens with
      | some .machine, name :: tokens => .opens (some name) :: items tokens
      | some .default, tokens => .opens none :: items tokens
      | some (.field field), value :: tokens => .gives field value :: items tokens
      | some .macdef, _ :: tokens => .macdef :: items tokens
      | some .macdef, [] => [.macdef]
      | some .machine, [] => []
      | some (.field _), [] => []
      | none, tokens => items tokens

/-- No keyword stands at the end without the word it takes. -/
def Whole : List Text → Prop
  | [] => True
  | token :: tokens =>
      match keyword token, tokens with
      | some .machine, _ :: tokens => Whole tokens
      | some .default, tokens => Whole tokens
      | some (.field _), _ :: tokens => Whole tokens
      | some .macdef, _ :: tokens => Whole tokens
      | some .machine, [] => False
      | some (.field _), [] => False
      | some .macdef, [] => False
      | none, tokens => Whole tokens

/-- The values up to the next opening, which belong to the entry before them. -/
def own : List Item → List (Field × Text)
  | [] => []
  | .opens _ :: _ => []
  | .gives field value :: items => (field, value) :: own items
  | .macdef :: items => own items

/-- An entry with the first value of each field. -/
def entryOf (machine : Option Text) (values : List (Field × Text)) : Entry where
  machine := machine
  login := (values.lookup .login).getD []
  password := (values.lookup .password).getD []
  account := values.lookup .account

/-- An opening makes an entry of the values behind it. Values before any belong to none. -/
def entriesOf : List Item → List Entry
  | [] => []
  | .opens machine :: items => entryOf machine (own items) :: entriesOf items
  | .gives _ _ :: items => entriesOf items
  | .macdef :: items => entriesOf items

/-- The file read as a stream. An entry of a machine with neither half is not kept. -/
def streamEntries (tokens : List Text) : List Entry := (entriesOf (items tokens)).filter retain

/-- Word by word, each keyword with what it takes. -/
@[elab_as_elim]
theorem words_induction {motive : List Text → Prop} (nil : motive [])
    (machine : ∀ token name tokens, keyword token = some .machine → motive tokens →
      motive (token :: name :: tokens))
    (default_ : ∀ token tokens, keyword token = some .default → motive tokens →
      motive (token :: tokens))
    (field : ∀ token field value tokens, keyword token = some (.field field) → motive tokens →
      motive (token :: value :: tokens))
    (macdef : ∀ token name tokens, keyword token = some .macdef → motive tokens →
      motive (token :: name :: tokens))
    (lastMacdef : ∀ token, keyword token = some .macdef → motive [token])
    (lastMachine : ∀ token, keyword token = some .machine → motive [token])
    (lastField : ∀ token field, keyword token = some (.field field) → motive [token])
    (other : ∀ token tokens, keyword token = none → motive tokens → motive (token :: tokens))
    (tokens : List Text) : motive tokens :=
  items.induct motive nil machine default_ field macdef lastMacdef lastMachine lastField other tokens

theorem items_append {tokens : List Text} (whole : Whole tokens) (rest : List Text) :
    items (tokens ++ rest) = items tokens ++ items rest := by
  induction tokens using words_induction with
  | nil => rfl
  | machine token name tokens word ih =>
      simp only [Whole, word] at whole
      simp only [List.cons_append, items, word, ih whole]
  | default_ token tokens word ih =>
      simp only [Whole, word] at whole
      simp only [List.cons_append, items, word, ih whole]
  | field token field value tokens word ih =>
      unfold Whole at whole
      simp only [word] at whole
      simp [items, word, ih whole]
  | macdef token name tokens word ih =>
      simp only [Whole, word] at whole
      simp only [List.cons_append, items, word, ih whole]
  | lastMacdef token word => simp only [Whole, word] at whole
  | lastMachine token word => simp only [Whole, word] at whole
  | lastField token field word =>
      unfold Whole at whole
      simp only [word] at whole
  | other token tokens word ih =>
      simp only [Whole, word] at whole
      simp only [List.cons_append, items, word, ih whole]

/-- What a field is given is one of the words. -/
theorem mem_of_gives {tokens : List Text} {field : Field} {value : Text}
    (given : .gives field value ∈ items tokens) : value ∈ tokens := by
  induction tokens using words_induction with
  | nil => cases given
  | machine token name tokens word ih =>
      simp only [items, word, List.mem_cons, reduceCtorEq, false_or] at given
      exact List.mem_cons_of_mem _ (List.mem_cons_of_mem _ (ih given))
  | default_ token tokens word ih =>
      simp only [items, word, List.mem_cons, reduceCtorEq, false_or] at given
      exact List.mem_cons_of_mem _ (ih given)
  | field token field' value' tokens word ih =>
      unfold items at given
      simp only [word, List.mem_cons] at given
      apply List.mem_cons_of_mem
      cases given with
      | inl same =>
          cases same
          exact List.mem_cons_self
      | inr given => exact List.mem_cons_of_mem _ (ih given)
  | macdef token name tokens word ih =>
      simp only [items, word, List.mem_cons, reduceCtorEq, false_or] at given
      exact List.mem_cons_of_mem _ (List.mem_cons_of_mem _ (ih given))
  | lastMacdef token word => simp [items, word] at given
  | lastMachine token word => simp [items, word] at given
  | lastField token field word => simp [items, word] at given
  | other token tokens word ih =>
      simp only [items, word] at given
      exact List.mem_cons_of_mem _ (ih given)

/-! ## One line -/

/-- What an item does to the entries so far. -/
def take (entries : List Entry) : Item → List Entry
  | .opens machine => entries ++ [Entry.named machine]
  | .gives field value => onLast (fun e => e.fill field value) entries
  | .macdef => entries

theorem readTokens_eq (tokens : List Text) (s : Parser) : s.readTokens tokens =
    ⟨(items tokens).foldl take s.entries, s.inMacdef || (items tokens).contains .macdef⟩ := by
  induction tokens using words_induction generalizing s with
  | nil => simp [items, Parser.readTokens]
  | machine token name tokens word ih =>
      simp [items, Parser.readTokens, word, ih, Parser.push, take]
  | default_ token tokens word ih => simp [items, Parser.readTokens, word, ih, Parser.push, take]
  | field token field value tokens word ih =>
      simp [items, Parser.readTokens, word, ih, Parser.fill, take]
  | macdef token name tokens word ih => simp [items, Parser.readTokens, word, ih, take]
  | lastMacdef token word => simp [items, Parser.readTokens, word, take]
  | lastMachine token word => simp [items, Parser.readTokens, word]
  | lastField token field word => simp [items, Parser.readTokens, word]
  | other token tokens word ih => simp [items, Parser.readTokens, word, ih]

theorem onLast_concat (f : Entry → Entry) (entries : List Entry) (e : Entry) :
    onLast f (entries ++ [e]) = entries ++ [f e] := by
  induction entries with
  | nil => rfl
  | cons first entries ih =>
      cases entries with
      | nil => rfl
      | cons next entries => exact congrArg (first :: ·) ih

theorem onLast_id (entries : List Entry) : onLast (fun e => e) entries = entries := by
  cases List.eq_nil_or_concat' entries with
  | inl empty =>
      rw [empty]
      rfl
  | inr split =>
      obtain ⟨front, last, rfl⟩ := split
      exact onLast_concat _ front last

theorem onLast_onLast (f g : Entry → Entry) (entries : List Entry) :
    onLast g (onLast f entries) = onLast (fun e => g (f e)) entries := by
  cases List.eq_nil_or_concat' entries with
  | inl empty =>
      rw [empty]
      rfl
  | inr split =>
      obtain ⟨front, last, rfl⟩ := split
      simp only [onLast_concat]

/-! ## The entries of a stream -/

def Entry.filled (e : Entry) (values : List (Field × Text)) : Entry :=
  values.foldl (fun e given => e.fill given.1 given.2) e

theorem lookup_other {field other : Field} (apart : field ≠ other) (value : Text)
    (values : List (Field × Text)) :
    List.lookup field ((other, value) :: values) = List.lookup field values := by
  rw [List.lookup_cons, beq_false_of_ne apart]

/-- Where no value is empty, an empty half is one that was not given. -/
theorem Entry.filled_eq {values : List (Field × Text)} (occupied : ∀ given ∈ values, given.2 ≠ [])
    (e : Entry) : e.filled values =
      { machine := e.machine
        login := if e.login = [] then (values.lookup .login).getD [] else e.login
        password := if e.password = [] then (values.lookup .password).getD [] else e.password
        account := e.account.or (values.lookup .account) } := by
  induction values generalizing e with
  | nil =>
      cases e with
      | mk machine login password account => simp [filled]
  | cons given values ih =>
      obtain ⟨field, value⟩ := given
      have some_ : value ≠ [] := occupied _ List.mem_cons_self
      have step : e.filled ((field, value) :: values) = (e.fill field value).filled values := rfl
      rw [step, ih fun given member => occupied given (List.mem_cons_of_mem _ member)]
      cases e with
      | mk machine login password account =>
          cases field with
          | login => by_cases empty : login = [] <;> simp [fill, lookup_other, empty, some_]
          | password => by_cases empty : password = [] <;> simp [fill, lookup_other, empty, some_]
          | account => cases account <;> simp [fill, lookup_other]

theorem filled_named {values : List (Field × Text)} (occupied : ∀ given ∈ values, given.2 ≠ [])
    (machine : Option Text) : (Entry.named machine).filled values = entryOf machine values := by
  rw [Entry.filled_eq occupied]
  rfl

theorem gives_of_mem_own {stream : List Item} {given : Field × Text} (member : given ∈ own stream) :
    .gives given.1 given.2 ∈ stream := by
  induction stream with
  | nil => cases member
  | cons item stream ih =>
      cases item with
      | opens machine => cases member
      | gives field value =>
          cases List.mem_cons.mp member with
          | inl same =>
              rw [same]
              exact List.mem_cons_self
          | inr behind => exact List.mem_cons_of_mem _ (ih behind)
      | macdef => exact List.mem_cons_of_mem _ (ih member)

/-- What the items come to behind entries that are there: values up to the first opening go to the
last of these. -/
theorem foldl_take {stream : List Item}
    (occupied : ∀ field value, .gives field value ∈ stream → value ≠ []) (entries : List Entry) :
    stream.foldl take entries =
      onLast (fun e => e.filled (own stream)) entries ++ entriesOf stream := by
  induction stream generalizing entries with
  | nil => exact ((List.append_nil _).trans (onLast_id entries)).symm
  | cons item stream ih =>
      have behind : ∀ field value, .gives field value ∈ stream → value ≠ [] :=
        fun field value member => occupied field value (List.mem_cons_of_mem _ member)
      have owned : ∀ given ∈ own stream, given.2 ≠ [] := fun given member =>
        behind given.1 given.2 (gives_of_mem_own member)
      rw [List.foldl_cons, ih behind]
      cases item with
      | opens machine =>
          have kept : onLast (fun e => e.filled []) entries = entries := onLast_id entries
          rw [take, onLast_concat, filled_named owned, own, kept, List.append_assoc]
          rfl
      | gives field value =>
          rw [take, onLast_onLast]
          rfl
      | macdef => rfl

/-! ## The lines -/

def Blank (line : Text) : Prop := ∀ c ∈ line, Text.isWhitespace c = true

def DefinesMacro (line : Text) : Prop := .macdef ∈ items (Text.splitWhitespace line)

/-- The lines that are read, each as its words: no comment, and none of a macro's body, which goes
on from the line behind the definition to the first blank one or to the end. -/
inductive Read : List Text → List (List Text) → Prop where
  | done : Read [] []
  | comment {line lines read} : isComment line = true → Read lines read → Read (line :: lines) read
  | plain {line lines read} : isComment line = false → ¬ DefinesMacro line → Read lines read →
      Read (line :: lines) (Text.splitWhitespace line :: read)
  | unended {line body} : isComment line = false → DefinesMacro line → (∀ l ∈ body, ¬ Blank l) →
      Read (line :: body) [Text.splitWhitespace line]
  | defined {line body blank lines read} : isComment line = false → DefinesMacro line →
      (∀ l ∈ body, ¬ Blank l) → Blank blank → Read lines read →
      Read (line :: (body ++ blank :: lines)) (Text.splitWhitespace line :: read)

theorem trim_isEmpty_iff (line : Text) : (Text.trim line).isEmpty = true ↔ Blank line := by
  rw [List.isEmpty_iff]
  constructor
  · intro trimmed c member
    obtain ⟨lead, trail, split, before, behind⟩ := Runs.trim_split Text.isWhitespace line
    have empty : Runs.trim Text.isWhitespace line = [] := trimmed
    rw [empty, List.nil_append] at split
    rw [split] at member
    cases List.mem_append.mp member with
    | inl member => exact before c member
    | inr member => exact behind c member
  · intro blank
    have dropped : line.dropWhile Text.isWhitespace = [] := List.dropWhile_eq_nil_iff.mpr blank
    rw [Text.trim, dropped]
    rfl

section
variable {s : Parser} {line : Text} {lines body : List Text} {read : List (List Text)}

theorem readLine_comment (outside : s.inMacdef = false) (comment : isComment line = true) :
    s.readLine line = s := by
  rw [Parser.readLine, outside, if_neg Bool.false_ne_true, if_pos comment]

theorem readLine_read (outside : s.inMacdef = false) (other : isComment line = false) :
    s.readLine line = ⟨(items (Text.splitWhitespace line)).foldl take s.entries,
      (items (Text.splitWhitespace line)).contains .macdef⟩ := by
  rw [Parser.readLine, outside, if_neg Bool.false_ne_true, other, if_neg Bool.false_ne_true,
    readTokens_eq, outside, Bool.false_or]

theorem readLine_body (inside : s.inMacdef = true) (filled : ¬ Blank line) : s.readLine line = s := by
  rw [Parser.readLine, if_pos inside, if_neg (mt (trim_isEmpty_iff line).mp filled)]

theorem readLine_blank (inside : s.inMacdef = true) (blank : Blank line) :
    s.readLine line = { s with inMacdef := false } := by
  rw [Parser.readLine, if_pos inside, if_pos ((trim_isEmpty_iff line).mpr blank)]

/-- A macro's body leaves no trace. -/
theorem foldl_body (inside : s.inMacdef = true) (filled : ∀ l ∈ body, ¬ Blank l) :
    body.foldl Parser.readLine s = s := by
  induction body with
  | nil => rfl
  | cons l body ih =>
      rw [List.foldl_cons, readLine_body inside (filled l List.mem_cons_self),
        ih fun l member => filled l (List.mem_cons_of_mem _ member)]

theorem foldl_readLine (reads : Read lines read) (outside : s.inMacdef = false) :
    (lines.foldl Parser.readLine s).entries = (read.flatMap items).foldl take s.entries := by
  induction reads generalizing s with
  | done => rfl
  | comment comment _ ih => rw [List.foldl_cons, readLine_comment outside comment, ih outside]
  | plain other undefined _ ih =>
      have still : (items (Text.splitWhitespace _)).contains .macdef = false :=
        Bool.eq_false_iff.mpr (mt List.contains_iff_mem.mp undefined)
      rw [List.foldl_cons, readLine_read outside other, ih still, List.flatMap_cons,
        List.foldl_append]
  | unended other defines filled =>
      have inside : (items (Text.splitWhitespace _)).contains .macdef = true :=
        List.contains_iff_mem.mpr defines
      rw [List.foldl_cons, readLine_read outside other, foldl_body inside filled,
        List.flatMap_singleton]
  | defined other defines filled blank _ ih =>
      have inside : (items (Text.splitWhitespace _)).contains .macdef = true :=
        List.contains_iff_mem.mpr defines
      rw [List.foldl_cons, readLine_read outside other, List.foldl_append,
        foldl_body inside filled, List.foldl_cons, readLine_blank inside blank, ih rfl,
        List.flatMap_cons, List.foldl_append]

end

/-- Every file divides into lines that are read and lines that are not. -/
theorem exists_read (lines : List Text) : ∃ read, Read lines read := by
  classical
  induction bound : lines.length using Nat.strong_induction_on generalizing lines with
  | _ n ih =>
      cases lines with
      | nil => exact ⟨[], .done⟩
      | cons line lines =>
          have shorter (rest : List Text) (le : rest.length ≤ lines.length) :
              ∃ read, Read rest read :=
            ih rest.length (bound ▸ Nat.lt_succ_of_le le) rest rfl
          cases comment : isComment line with
          | true =>
              obtain ⟨read, reads⟩ := shorter lines le_rfl
              exact ⟨read, .comment comment reads⟩
          | false =>
              by_cases defines : DefinesMacro line
              · have split := List.takeWhile_append_dropWhile (p := fun l => ¬ Blank l) (l := lines)
                have filled : ∀ l ∈ lines.takeWhile fun l => ¬ Blank l, ¬ Blank l :=
                  fun l member => of_decide_eq_true
                    (List.mem_takeWhile_imp (p := fun l => decide (¬ Blank l)) member)
                cases ended : lines.dropWhile fun l => ¬ Blank l with
                | nil =>
                    rw [ended, List.append_nil] at split
                    rw [← split]
                    exact ⟨_, .unended comment defines filled⟩
                | cons blank rest =>
                    have first := Runs.dropWhile_ends (fun l => decide (¬ Blank l)) lines blank
                      (by rw [ended]; rfl)
                    have len := congrArg List.length split
                    rw [ended, List.length_append, List.length_cons] at len
                    obtain ⟨read, reads⟩ := shorter rest (by omega)
                    rw [ended] at split
                    rw [← split]
                    exact ⟨_, .defined comment defines filled
                      (not_not.mp (of_decide_eq_false first)) reads⟩
              · obtain ⟨read, reads⟩ := shorter lines le_rfl
                exact ⟨_, .plain comment defines reads⟩

/-- No keyword has its word on a later line. -/
def Unbroken (lines : List Text) : Prop :=
  ∀ line later, (line :: later) <:+ lines →
    Whole (Text.splitWhitespace line) ∨ later.flatMap Text.splitWhitespace = []

theorem unbroken_cons {line : Text} {lines : List Text} : Unbroken (line :: lines) ↔
    (Whole (Text.splitWhitespace line) ∨ lines.flatMap Text.splitWhitespace = []) ∧
      Unbroken lines := by
  constructor
  · intro unbroken
    exact ⟨unbroken line lines List.suffix_rfl, fun first later cut =>
      unbroken first later (cut.trans (List.suffix_cons line lines))⟩
  · rintro ⟨front, behind⟩ first later cut
    cases List.suffix_cons_iff.mp cut with
    | inl same =>
        cases same
        exact front
    | inr cut => exact behind first later cut

theorem flatMap_items {lines : List Text} (unbroken : Unbroken lines) :
    (lines.map Text.splitWhitespace).flatMap items = items (lines.flatMap Text.splitWhitespace) := by
  induction lines with
  | nil => rfl
  | cons line lines ih =>
      obtain ⟨front, behind⟩ := unbroken_cons.mp unbroken
      rw [List.map_cons, List.flatMap_cons, List.flatMap_cons, ih behind]
      cases front with
      | inl whole => exact (items_append whole _).symm
      | inr last => rw [last, List.append_nil, items, List.append_nil]

theorem read_plain {lines : List Text} (uncommented : ∀ line ∈ lines, isComment line = false)
    (undefined : .macdef ∉ (lines.map Text.splitWhitespace).flatMap items) :
    Read lines (lines.map Text.splitWhitespace) := by
  induction lines with
  | nil => exact .done
  | cons line lines ih =>
      rw [List.map_cons, List.flatMap_cons, List.mem_append, not_or] at undefined
      exact .plain (uncommented line List.mem_cons_self) undefined.1
        (ih (fun l member => uncommented l (List.mem_cons_of_mem _ member)) undefined.2)

theorem flatMap_fileLines (text : Text) :
    (fileLines text).flatMap Text.splitWhitespace = Text.splitWhitespace text := by
  rw [fileLines, List.flatMap_map]
  simp only [Text.splitWhitespace_dropReturn]
  exact Text.flatMap_splitWhitespace_lines text

theorem Read.words {lines : List Text} {read : List (List Text)} (reads : Read lines read) :
    ∀ words ∈ read, ∃ line, words = Text.splitWhitespace line := by
  induction reads with
  | done =>
      intro words member
      cases member
  | comment _ _ ih => exact ih
  | @plain line _ _ _ _ _ ih =>
      intro words member
      cases List.mem_cons.mp member with
      | inl same => exact ⟨line, same⟩
      | inr member => exact ih words member
  | @unended line _ _ _ _ =>
      intro words member
      exact ⟨line, List.mem_singleton.mp member⟩
  | @defined line _ _ _ _ _ _ _ _ _ ih =>
      intro words member
      cases List.mem_cons.mp member with
      | inl same => exact ⟨line, same⟩
      | inr member => exact ih words member

/-- The entries are those of the lines that are read. -/
theorem parse_of_read {text : Text} {read : List (List Text)} (reads : Read (fileLines text) read) :
    (parse text).entries = (entriesOf (read.flatMap items)).filter retain := by
  have occupied : ∀ field value, .gives field value ∈ read.flatMap items → value ≠ [] := by
    intro field value given
    obtain ⟨words, member, given⟩ := List.mem_flatMap.mp given
    obtain ⟨line, rfl⟩ := reads.words words member
    exact Runs.ne_nil_of_mem_words (mem_of_gives given)
  rw [parse, foldl_readLine reads rfl, foldl_take occupied]
  rfl

/-! ## The lookup -/

theorem entriesLookup_eq (host : Text) (fallback : Option Entry) (entries : List Entry) :
    entriesLookup host fallback entries =
      ((entries.find? fun e => e.machine = some host) <|> fallback <|>
        entries.find? fun e => e.machine = none) := by
  induction entries generalizing fallback with
  | nil => cases fallback <;> rfl
  | cons e entries ih =>
      rw [entriesLookup]
      cases named : e.machine with
      | none => cases fallback <;> simp [named, ih]
      | some name => by_cases same : name = host <;> simp [named, same, ih]

theorem lookup_eq (netrc : Netrc) (host : Text) : netrc.lookup host =
    ((netrc.entries.find? fun e => e.machine = some host) <|>
      netrc.entries.find? fun e => e.machine = none) := entriesLookup_eq host none netrc.entries

/-- The halves that the client sends. -/
def Entry.credential (e : Entry) : Client.NetrcEntry := ⟨e.machine, e.login, e.password⟩

/-! ## What the parser reads -/

/-- Without comments and macros, and with each keyword's word on the keyword's line. -/
structure Streamed (text : Text) : Prop where
  uncommented : ∀ line ∈ fileLines text, isComment line = false
  undefined : .macdef ∉ items (Text.splitWhitespace text)
  unbroken : Unbroken (fileLines text)

/-- A file whose keywords have their words on the same line is read as the stream of its words,
wherever its lines end. Macros' bodies are not read in any file. And a lookup finds the first entry
for the host, or else the first default. -/
theorem parse_entries (text : Text) :
    (Streamed text → (parse text).entries = streamEntries (Text.splitWhitespace text)) ∧
      (∃ read, Read (fileLines text) read) ∧
      (∀ read, Read (fileLines text) read →
        (parse text).entries = (entriesOf (read.flatMap items)).filter retain) ∧
      ∀ host, (parse text).lookup host =
        (((parse text).entries.find? fun e => e.machine = some host) <|>
          (parse text).entries.find? fun e => e.machine = none) := by
  refine ⟨?_, exists_read _, fun read reads => parse_of_read reads, lookup_eq _⟩
  intro streamed
  have stream := flatMap_items streamed.unbroken
  rw [flatMap_fileLines] at stream
  have undefined := streamed.undefined
  rw [← stream] at undefined
  rw [parse_of_read (read_plain streamed.uncommented undefined), stream]
  rfl

/-- An entry on two lines. -/
theorem parse_entries_halves : (parse "machine a login bob\n password secret".toList).entries =
    streamEntries (Text.splitWhitespace "machine a login bob\n password secret".toList) := by
  refine (parse_entries _).1 ⟨by decide, by decide, ?_⟩
  have halves : fileLines "machine a login bob\n password secret".toList =
      ["machine a login bob".toList, " password secret".toList] := by decide
  have first : Text.splitWhitespace "machine a login bob".toList =
      ["machine".toList, "a".toList, "login".toList, "bob".toList] := by decide
  rw [halves, unbroken_cons, unbroken_cons, first]
  exact ⟨.inl trivial, .inr rfl, fun line later cut => nomatch List.suffix_nil.mp cut⟩

/-- A login that stands on the line behind its keyword is dropped, and the entry is kept without
one. -/
theorem login_cut_off :
    let text := "machine a login\nbob password secret".toList
    (∀ line ∈ fileLines text, isComment line = false) ∧
      .macdef ∉ items (Text.splitWhitespace text) ∧
      streamEntries (Text.splitWhitespace text) =
        [⟨some ['a'], "bob".toList, "secret".toList, none⟩] ∧
      (parse text).entries = [⟨some ['a'], [], "secret".toList, none⟩] := by decide

end Netrc
end HClient
