import YServer.BaseNet.Basic
import YServer.Machinery.Cut
import Mathlib.Data.List.TakeWhile

/-!
# BaseNet/HttpParser — the request parser

`http_parser` appends every packet to the bytes it has kept, and once what a C reader of them sees
ends in an empty line it splits that text into a request and forgets all of it:

    packet ──append──▸ raw ──up to NUL──▸ view ──split CRLF──▸ lines ──split ' ' / ':'──▸ request

`parsePacket` follows the code; `parsePacket_eq` restates it with the two scanning loops replaced by
`pieces` (`split_eq_pieces`), which is how every result about requests reads it.
-/

namespace YServer

open Machinery

/-! ## Characters -/

def nul : Byte := 0

def sp : Byte := 0x20

def colon : Byte := 0x3a

def cr : Byte := 0x0d

def lf : Byte := 0x0a

def crlf : Bytes := [cr, lf]

def crlfcrlf : Bytes := [cr, lf, cr, lf]

theorem crlf_ne_nil : crlf ≠ [] := List.cons_ne_nil _ _

/-- `std::isspace` in the "C" locale. -/
def isspace (c : Byte) : Bool := c == sp || (0x09 ≤ c && c ≤ 0x0d)

/-! ## std::string_view -/

/-- `std::string_view::find`: the first position from `pos` on at which `needle` stands. -/
def find (string needle : Bytes) (pos : ℕ) : Option ℕ :=
  (List.range' pos (string.length + 1 - pos)).find? fun i => decide (needle <+: string.drop i)

/-- …and its overload for a character. -/
def findChar (string : Bytes) (ch : Byte) (pos : ℕ) : Option ℕ :=
  (List.range' pos (string.length - pos)).find? fun i => decide (string[i]? = some ch)

/-- `std::string_view::substr`. -/
def substr (string : Bytes) (pos count : ℕ) : Bytes := (string.drop pos).take count

/-- What `std::string_view(const char*)` sees of a string: everything before the first NUL. -/
def cStringView (string : Bytes) : Bytes := string.takeWhile (· != nul)

theorem cStringView_of_notMem {string : Bytes} (h : nul ∉ string) : cStringView string = string :=
  List.takeWhile_eq_self_iff.mpr fun _ hc => bne_iff_ne.mpr fun heq => h (heq ▸ hc)

/-- `list[i]`; outside the list it is undefined behaviour. -/
def elementAt (list : List Bytes) (i : ℕ) : Except Fault Bytes :=
  match list[i]? with
  | some element => .ok element
  | none => .error .outOfRange

/-! ## http_parser.cpp -/

/-- `trim_whitespace`. -/
def trimWhitespace (string : Bytes) : Bytes :=
  let first := string.findIdx (!isspace ·)
  let last := string.length - string.reverse.findIdx (!isspace ·)
  if last ≤ first then [] else substr string first (last - first)

/-- The loop of `split`, with as many turns as `fuel` allows: `next` finds the delimiter, and
`delimiterLength` is how far the loop steps over it. -/
def splitLoop (string : Bytes) (next : ℕ → Option ℕ) (delimiterLength : ℕ) :
    ℕ → ℕ → List Bytes → Option (List Bytes)
  | 0, _, _ => none
  | fuel + 1, segmentStart, result =>
    match next segmentStart with
    | some segmentEnd =>
      let token := substr string segmentStart (segmentEnd - segmentStart)
      splitLoop string next delimiterLength fuel (segmentEnd + delimiterLength) (result ++ [token])
    | none => some (result ++ [string.drop segmentStart])

/-- A loop given a turn for every position of the string; one that wants more never ends. -/
def runSplit (string : Bytes) (next : ℕ → Option ℕ) (delimiterLength : ℕ) :
    Except Fault (List Bytes) :=
  match splitLoop string next delimiterLength (string.length + 1) 0 [] with
  | some result => .ok result
  | none => .error .hangs

/-- `split(std::string_view, std::string_view)`. -/
def split (string delimiter : Bytes) : Except Fault (List Bytes) :=
  runSplit string (find string delimiter) delimiter.length

/-- `split(std::string_view, char)`. -/
def splitChar (string : Bytes) (delimiter : Byte) : Except Fault (List Bytes) :=
  runSplit string (findChar string delimiter) 1

/-- `http_request`. -/
structure HttpRequest where
  method : Bytes
  url : Bytes
  version : Bytes
  headerList : List (Bytes × Bytes)
  deriving DecidableEq, Repr

/-- One turn of the loop over the header lines: the line is kept if it splits in two at `':'`. -/
def parseHeaderLine (headerList : List (Bytes × Bytes)) (headerLine : Bytes) :
    Except Fault (List (Bytes × Bytes)) := do
  let header ← splitChar headerLine colon
  if header.length = 2 then
    let name ← elementAt header 0
    let value ← elementAt header 1
    return headerList ++ [(name, trimWhitespace value)]
  else
    return headerList

/-- The part of `parse_packet` that reads a request out of a complete text. -/
def parseText (rawHttpRequest : Bytes) : Except Fault HttpRequest := do
  let requestLineList ← split rawHttpRequest crlf
  let statusLineList ← splitChar (← elementAt requestLineList 0) sp
  let method ← elementAt statusLineList 0
  let url ← elementAt statusLineList 1
  let version ← elementAt statusLineList 2
  let headerList ← (requestLineList.drop 1).foldlM parseHeaderLine []
  return ⟨method, url, version, headerList⟩

/-- `http_parser::parse_packet`: what it returns, and the bytes it keeps in `raw_http_request_`. -/
def parsePacket (rawHttpRequest packet : Bytes) : Except Fault (Option HttpRequest × Bytes) :=
  let raw := rawHttpRequest ++ packet
  let view := cStringView raw
  if ¬ crlfcrlf <:+ view then
    .ok (none, raw)
  else do
    let request ← parseText view
    return (some request, [])

/-! ## The scanning loops cut into pieces -/

theorem find_eq_some_iff {string needle : Bytes} {pos e : ℕ} : find string needle pos = some e
    ↔ pos ≤ e ∧ e ≤ string.length ∧ needle <+: string.drop e ∧
      ∀ i, pos ≤ i → i < e → ¬ needle <+: string.drop i := by
  rw [find, List.find?_range'_eq_some]
  simp only [decide_eq_true_eq, List.mem_range'_1, Bool.not_eq_true', decide_eq_false_iff_not]
  constructor
  · rintro ⟨h, hmem, hfirst⟩
    exact ⟨hmem.1, by omega, h, hfirst⟩
  · rintro ⟨hl, hr, h, hfirst⟩
    exact ⟨h, by omega, hfirst⟩

theorem find_eq_none_iff {string needle : Bytes} {pos : ℕ} : find string needle pos = none
    ↔ ∀ i, pos ≤ i → i ≤ string.length → ¬ needle <+: string.drop i := by
  rw [find, List.find?_range'_eq_none]
  simp only [Bool.not_eq_true', decide_eq_false_iff_not]
  exact ⟨fun h i hl hr => h i hl (by omega), fun h i hl hr => h i hl (by omega)⟩

theorem singleton_prefix_drop_iff {string : Bytes} {ch : Byte} {i : ℕ} :
    [ch] <+: string.drop i ↔ string[i]? = some ch := by
  rw [← List.head?_drop]
  cases string.drop i with
  | nil => simp
  | cons c s => simp [List.cons_prefix_cons, eq_comm]

/-- The two overloads of `find` agree on a single character: the end of the string, which only the
one for views looks at, holds no character. -/
theorem findChar_eq_find (string : Bytes) (ch : Byte) (pos : ℕ) :
    findChar string ch pos = find string [ch] pos := by
  have hpred : ∀ i, decide (string[i]? = some ch) = decide ([ch] <+: string.drop i) := fun i =>
    decide_eq_decide.mpr singleton_prefix_drop_iff.symm
  rw [findChar, find, funext hpred]
  rcases Nat.lt_or_ge string.length pos with hlt | hge
  · rw [Nat.sub_eq_zero_of_le hlt.le, Nat.sub_eq_zero_of_le hlt]
  · have hend : pos + (string.length - pos) = string.length := by omega
    rw [Nat.succ_sub hge, List.range'_concat, Nat.one_mul, hend, List.find?_append]
    simp

section Loop

variable {string delimiter : Bytes}

/-- **The loop cuts what is left of the string into pieces** — by induction on its turns; each one
spends the delimiter it found, so there is a position less to scan. -/
theorem splitLoop_eq_pieces (hd : delimiter ≠ []) (fuel segmentStart : ℕ) (result : List Bytes)
    (hle : segmentStart ≤ string.length) (hfuel : string.length < segmentStart + fuel) :
    splitLoop string (find string delimiter) delimiter.length fuel segmentStart result
      = some (result ++ pieces delimiter (string.drop segmentStart)) := by
  induction fuel generalizing segmentStart result with
  | zero => omega
  | succ fuel ih =>
    rw [splitLoop]
    split
    case h_1 e he =>
      obtain ⟨hl, -, ⟨rest, hrest⟩, hfirst⟩ := find_eq_some_iff.mp he
      have hlen : e + delimiter.length + rest.length = string.length := by
        have := congrArg List.length hrest
        rw [List.length_append, List.length_drop] at this
        have := List.length_pos_iff.mpr hd
        omega
      have hpos := List.length_pos_iff.mpr hd
      -- the string from here on is the token, the delimiter and the rest
      have hrest' : string.drop (e + delimiter.length) = rest := by
        rw [← List.drop_drop, ← hrest, List.drop_left]
      have htoken : substr string segmentStart (e - segmentStart) ++ delimiter ++ rest
          = string.drop segmentStart := by
        have hdrop : string.drop e = (string.drop segmentStart).drop (e - segmentStart) := by
          rw [List.drop_drop]
          exact congrArg string.drop (by omega)
        rw [List.append_assoc, hrest, substr, hdrop, List.take_append_drop]
      have htokenLength : (substr string segmentStart (e - segmentStart)).length
          = e - segmentStart := by
        rw [substr, List.length_take, List.length_drop]
        omega
      rw [ih _ _ (by omega) (by omega), hrest', ← htoken, pieces_of_first hd, List.append_assoc]
      · rfl
      · intro i hi
        rw [htoken, List.drop_drop]
        exact hfirst _ (by omega) (by omega)
    case h_2 hnone =>
      have hno := find_eq_none_iff.mp hnone
      rw [pieces_of_forall_not fun i hi => ?_]
      rw [List.drop_drop]
      rw [List.length_drop] at hi
      exact hno _ (by omega) (by omega)

end Loop

/-- **`split` returns, and returns the pieces**, whenever the delimiter is not empty. -/
theorem split_eq_pieces (string : Bytes) {delimiter : Bytes} (hd : delimiter ≠ []) :
    split string delimiter = .ok (pieces delimiter string) := by
  rw [split, runSplit, splitLoop_eq_pieces hd _ _ _ (Nat.zero_le _) (by omega), List.nil_append,
    List.drop_zero]

/-- The overload for a character is the overload for that one-letter delimiter. -/
theorem splitChar_eq_split (string : Bytes) (delimiter : Byte) :
    splitChar string delimiter = split string [delimiter] := by
  rw [splitChar, split, funext (findChar_eq_find string delimiter), List.length_singleton]

theorem splitChar_eq_pieces (string : Bytes) (delimiter : Byte) :
    splitChar string delimiter = .ok (pieces [delimiter] string) := by
  rw [splitChar_eq_split, split_eq_pieces string (List.cons_ne_nil _ _)]

/-- **`split` undoes a join, and a join undoes `split`**: it returns pieces without the delimiter
whose join is the string, the character overload the same ones; and pieces joined with a delimiter
that does not overlap itself come back as they were. -/
theorem split_inverse_of_join :
    (∀ string delimiter : Bytes, delimiter ≠ [] →
      ∃ list, split string delimiter = .ok list ∧ list ≠ []
        ∧ (∀ piece ∈ list, ¬ delimiter <:+: piece) ∧ delimiter.intercalate list = string)
      ∧ (∀ string : Bytes, ∀ delimiter : Byte,
        splitChar string delimiter = split string [delimiter])
      ∧ ∀ (delimiter : Bytes) (list : List Bytes), delimiter ≠ [] → Unbordered delimiter →
        list ≠ [] → (∀ piece ∈ list, ¬ delimiter <:+: piece) →
        split (delimiter.intercalate list) delimiter = .ok list := by
  refine ⟨fun string delimiter hd => ?_, splitChar_eq_split,
    fun delimiter list hd hborder hlist hfree => ?_⟩
  · exact ⟨pieces delimiter string, split_eq_pieces string hd, pieces_ne_nil delimiter string,
      not_infix_of_mem_pieces hd, intercalate_pieces hd string⟩
  · rw [split_eq_pieces _ hd, pieces_intercalate hd hborder hlist hfree]

/-- Lines that end in a lone CR, joined by CRLF. -/
theorem split_lone_cr :
    split (crlf.intercalate [[cr], [], [cr, cr]]) crlf = .ok [[cr], [], [cr, cr]] :=
  split_inverse_of_join.2.2 crlf _ crlf_ne_nil (unbordered_pair (by decide))
    (List.cons_ne_nil _ _) (by decide)

/-! ## The request a text holds -/

/-- What the header loop makes of a line. -/
def headerOf (line : Bytes) : Option (Bytes × Bytes) :=
  match pieces [colon] line with
  | [name, value] => some (name, trimWhitespace value)
  | _ => none

/-- What `parse_packet` makes of a complete text; none if its first line has fewer than three
tokens. -/
def requestOf (text : Bytes) : Option HttpRequest :=
  let lines := pieces crlf text
  match pieces [sp] (lines.headD []) with
  | method :: url :: version :: _ => some ⟨method, url, version, lines.tail.filterMap headerOf⟩
  | _ => none

theorem parseHeaderLine_eq (headerList : List (Bytes × Bytes)) (line : Bytes) :
    parseHeaderLine headerList line = .ok (headerList ++ (headerOf line).toList) := by
  rw [parseHeaderLine, splitChar_eq_pieces, headerOf]
  change (if (pieces [colon] line).length = 2 then _ else _) = _
  rcases pieces [colon] line with _ | ⟨name, _ | ⟨value, _ | ⟨extra, rest⟩⟩⟩
  · simp [pure, Except.pure]
  · simp [pure, Except.pure]
  · rfl
  · simp [pure, Except.pure]

/-- **The header loop keeps the lines that split in two, in order.** -/
theorem foldlM_parseHeaderLine (headerList : List (Bytes × Bytes)) (lines : List Bytes) :
    lines.foldlM parseHeaderLine headerList = .ok (headerList ++ lines.filterMap headerOf) := by
  induction lines generalizing headerList with
  | nil => simp [pure, Except.pure]
  | cons line lines ih =>
    rw [List.foldlM_cons, parseHeaderLine_eq]
    change lines.foldlM parseHeaderLine (headerList ++ (headerOf line).toList) = _
    rw [ih, List.append_assoc]
    cases h : headerOf line <;> simp [h]

theorem parseText_eq (text : Bytes) : parseText text
    = match requestOf text with
      | some request => .ok request
      | none => .error .outOfRange := by
  obtain ⟨line, lines, hlines⟩ := List.exists_cons_of_ne_nil (pieces_ne_nil crlf text)
  rw [parseText, split_eq_pieces text crlf_ne_nil, requestOf, hlines]
  change (do
    let statusLineList ← splitChar line sp
    let method ← elementAt statusLineList 0
    let url ← elementAt statusLineList 1
    let version ← elementAt statusLineList 2
    let headerList ← lines.foldlM parseHeaderLine []
    pure (⟨method, url, version, headerList⟩ : HttpRequest)) = _
  rw [splitChar_eq_pieces, foldlM_parseHeaderLine, List.headD_cons, List.tail_cons]
  rcases pieces [sp] line with _ | ⟨method, _ | ⟨url, _ | ⟨version, rest⟩⟩⟩ <;> rfl

/-- **`parse_packet` in one equation.** -/
theorem parsePacket_eq (rawHttpRequest packet : Bytes) : parsePacket rawHttpRequest packet
    = if crlfcrlf <:+ cStringView (rawHttpRequest ++ packet) then
        match requestOf (cStringView (rawHttpRequest ++ packet)) with
        | some request => .ok (some request, [])
        | none => .error .outOfRange
      else .ok (none, rawHttpRequest ++ packet) := by
  rw [parsePacket]
  by_cases h : crlfcrlf <:+ cStringView (rawHttpRequest ++ packet)
  · rw [if_neg (not_not_intro h), if_pos h, parseText_eq]
    cases requestOf (cStringView (rawHttpRequest ++ packet)) <;> rfl
  · rw [if_pos h, if_neg h]

/-- The only fault of the parser is the access behind the tokens of the request line. -/
theorem eq_outOfRange_of_parsePacket {rawHttpRequest packet : Bytes} {fault : Fault}
    (h : parsePacket rawHttpRequest packet = .error fault) : fault = .outOfRange := by
  rw [parsePacket_eq] at h
  split at h
  · split at h
    · cases h
    · exact (Except.error.inj h).symm
  · cases h

end YServer
