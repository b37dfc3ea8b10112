import YServer.BaseNet.HttpParser
import YServer.Machinery.Cut

/-!
# BaseNet/HttpMessage — the response, its text, and what a client reads in it

    version ' ' status ' ' statusText CRLF
    key ':' value CRLF                        one line for every header, in order
    CRLF
    body

`serialize` writes the fields as the setters got them, and `send` puts the body behind the empty
line.  A client reads the text back with cuts (`readMessage`): a field comes back exactly when it
does not contain what ends it, and `readMessage_append_iff` says that this is all it takes.
-/

namespace YServer

open Machinery

/-! ## http_message.cpp -/

/-- `std::to_string`. -/
def decimal (n : ℤ) : Bytes := ascii (toString n)

/-- `http_response`, without the socket it is sent on. -/
@[ext] structure HttpResponse where
  version : Bytes
  status : Bytes
  statusText : Bytes
  headerList : List (Bytes × Bytes)
  deriving DecidableEq, Repr

/-- One of the calls that set a response up. -/
inductive ResponseCall
  | setStatus (code : ℤ)
  | setStatusText (text : Bytes)
  | setVersion (version : Bytes)
  | setHeader (key value : Bytes)
  deriving DecidableEq, Repr

/-- The text of one header. -/
def headerText (header : Bytes × Bytes) : Bytes := header.1 ++ [colon] ++ header.2

/-- The headers as `serialize` writes them, one line each. -/
def headerLines (headerList : List (Bytes × Bytes)) : Bytes :=
  (headerList.map fun header => headerText header ++ crlf).flatten

namespace HttpResponse

/-- `http_response::http_response`. -/
def new : HttpResponse where
  version := ascii "HTTP/1.0"
  status := ascii "200"
  statusText := ascii "OK"
  headerList := []

def setStatus (r : HttpResponse) (code : ℤ) : HttpResponse := { r with status := decimal code }

def setStatusText (r : HttpResponse) (text : Bytes) : HttpResponse := { r with statusText := text }

def setVersion (r : HttpResponse) (version : Bytes) : HttpResponse := { r with version := version }

/-- `set_Header`: the header is appended, whatever headers of that name there are. -/
def setHeader (r : HttpResponse) (key value : Bytes) : HttpResponse :=
  { r with headerList := r.headerList ++ [(key, value)] }

/-- `serialize`. -/
def serialize (r : HttpResponse) : Bytes :=
  r.version ++ [sp] ++ r.status ++ [sp] ++ r.statusText ++ crlf ++ headerLines r.headerList ++ crlf

/-- `send`: the response it leaves, and the message it hands to `client_socket::send`. -/
def send (r : HttpResponse) (body : Bytes) : HttpResponse × Bytes :=
  let r' := r.setHeader (ascii "Content-Length") (decimal body.length)
  (r', r'.serialize ++ body)

/-- What one of the setters does. -/
def apply (r : HttpResponse) : ResponseCall → HttpResponse
  | .setStatus code => r.setStatus code
  | .setStatusText text => r.setStatusText text
  | .setVersion version => r.setVersion version
  | .setHeader key value => r.setHeader key value

/-- The response a sequence of setter calls builds. -/
def built (calls : List ResponseCall) : HttpResponse := calls.foldl apply new

end HttpResponse

/-! ## The client's reader -/

/-- The header lines up to the first empty line, each cut at its first `':'`, and the rest; as many
lines as `fuel` allows. -/
def readHeadersLoop : ℕ → Bytes → Option (List (Bytes × Bytes) × Bytes)
  | 0, _ => none
  | fuel + 1, text => do
    let (line, rest) ← cut crlf text
    if line = [] then
      return ([], rest)
    let header ← cut [colon] line
    let (headers, body) ← readHeadersLoop fuel rest
    return (header :: headers, body)

/-- A reader given a turn for every line there can be. -/
def readHeaders (text : Bytes) : Option (List (Bytes × Bytes) × Bytes) :=
  readHeadersLoop (text.length + 1) text

/-- What a client reads: the status line cut at its first two spaces, the headers, the body. -/
def readMessage (text : Bytes) : Option (HttpResponse × Bytes) := do
  let (statusLine, rest) ← cut crlf text
  let (version, statusLine) ← cut [sp] statusLine
  let (status, statusText) ← cut [sp] statusLine
  let (headerList, body) ← readHeaders rest
  return (⟨version, status, statusText, headerList⟩, body)

/-! ### …and its equations -/

theorem cr_ne_lf : cr ≠ lf := by decide

theorem length_lt_of_cut_crlf {text line rest : Bytes} (h : cut crlf text = some (line, rest)) :
    rest.length < text.length := by
  have := congrArg List.length (eq_append_of_cut h)
  simp only [List.length_append, crlf, List.length_cons, List.length_nil] at this
  omega

/-- One turn of the reader reads one line. -/
theorem readHeadersLoop_of_cut {text line rest : Bytes} (h : cut crlf text = some (line, rest))
    (fuel : ℕ) : readHeadersLoop (fuel + 1) text = if line = [] then some ([], rest) else
      (cut [colon] line).bind fun header =>
        (readHeadersLoop fuel rest).map (Prod.map (header :: ·) id) := by
  rw [readHeadersLoop, h]
  change (if line = [] then some ([], rest) else (cut [colon] line).bind fun header =>
    (readHeadersLoop fuel rest).bind fun (headers, body) => some (header :: headers, body)) = _
  refine if_congr Iff.rfl rfl (Option.bind_congr fun header _ => ?_)
  rw [Option.map_eq_bind]
  rfl

theorem readHeadersLoop_of_cut_eq_none {text : Bytes} (h : cut crlf text = none) (fuel : ℕ) :
    readHeadersLoop fuel text = none := by
  cases fuel with
  | zero => rfl
  | succ fuel => rw [readHeadersLoop, h]; rfl

/-- **Enough turns are enough** — by induction on the turns; every line read leaves less text. -/
theorem readHeadersLoop_of_lt {fuel : ℕ} {text : Bytes} (h : text.length < fuel) :
    readHeadersLoop fuel text = readHeaders text := by
  have key : ∀ (n m : ℕ) (text : Bytes), text.length < n → text.length < m →
      readHeadersLoop n text = readHeadersLoop m text := by
    intro n
    induction n with
    | zero => exact fun m text hn => absurd hn (Nat.not_lt_zero _)
    | succ n ih =>
      intro m text hn hm
      obtain ⟨m, rfl⟩ := Nat.exists_eq_add_one_of_ne_zero (Nat.ne_zero_of_lt hm)
      cases hcut : cut crlf text with
      | none => rw [readHeadersLoop_of_cut_eq_none hcut, readHeadersLoop_of_cut_eq_none hcut]
      | some pr =>
        obtain ⟨line, rest⟩ := pr
        have hlt := length_lt_of_cut_crlf hcut
        rw [readHeadersLoop_of_cut hcut, readHeadersLoop_of_cut hcut,
          ih m rest (by omega) (by omega)]
  exact key _ _ text h (Nat.lt_succ_self _)

/-- One line is read after the other. -/
theorem readHeaders_of_cut {text line rest : Bytes} (h : cut crlf text = some (line, rest)) :
    readHeaders text = if line = [] then some ([], rest) else
      (cut [colon] line).bind fun header =>
        (readHeaders rest).map (Prod.map (header :: ·) id) := by
  rw [readHeaders, readHeadersLoop_of_cut h, readHeadersLoop_of_lt (length_lt_of_cut_crlf h)]

theorem readHeaders_of_cut_eq_none {text : Bytes} (h : cut crlf text = none) :
    readHeaders text = none := by
  rw [readHeaders, readHeadersLoop_of_cut_eq_none h]

theorem readHeaders_eq_nil_iff {text body : Bytes} :
    readHeaders text = some ([], body) ↔ cut crlf text = some ([], body) := by
  cases hcut : cut crlf text with
  | none => simp [readHeaders_of_cut_eq_none hcut]
  | some pr =>
    obtain ⟨line, rest⟩ := pr
    rw [readHeaders_of_cut hcut]
    by_cases hline : line = []
    · simp [hline]
    · simp [hline, Option.bind_eq_some_iff]

theorem readHeaders_eq_cons_iff {text body : Bytes} {header : Bytes × Bytes}
    {headers : List (Bytes × Bytes)} : readHeaders text = some (header :: headers, body)
    ↔ ∃ line rest, cut crlf text = some (line, rest) ∧ cut [colon] line = some header ∧
      readHeaders rest = some (headers, body) := by
  cases hcut : cut crlf text with
  | none => simp [readHeaders_of_cut_eq_none hcut]
  | some pr =>
    obtain ⟨line, rest⟩ := pr
    rw [readHeaders_of_cut hcut]
    by_cases hline : line = []
    · subst hline
      simp [cut]
    · rw [if_neg hline, Option.bind_eq_some_iff]
      simp [Option.map_eq_some_iff, Prod.map, and_assoc]

theorem readMessage_eq_some_iff {text body : Bytes} {r : HttpResponse} :
    readMessage text = some (r, body) ↔ ∃ line rest tail, cut crlf text = some (line, rest) ∧
      cut [sp] line = some (r.version, tail) ∧ cut [sp] tail = some (r.status, r.statusText) ∧
      readHeaders rest = some (r.headerList, body) := by
  constructor
  · intro h
    obtain ⟨⟨line, rest⟩, hline, h⟩ := Option.bind_eq_some_iff.mp h
    obtain ⟨⟨version, tail⟩, hversion, h⟩ := Option.bind_eq_some_iff.mp h
    obtain ⟨⟨status, statusText⟩, hstatus, h⟩ := Option.bind_eq_some_iff.mp h
    obtain ⟨⟨headerList, body'⟩, hheaders, h⟩ := Option.bind_eq_some_iff.mp h
    obtain ⟨rfl, rfl⟩ := Prod.mk.inj (Option.some.inj h)
    exact ⟨line, rest, tail, hline, hversion, hstatus, hheaders⟩
  · rintro ⟨line, rest, tail, hline, hversion, hstatus, hheaders⟩
    simp [readMessage, hline, hversion, hstatus, hheaders]

/-! ## What comes back -/

/-- **A response whose fields do not contain what ends them.** -/
structure HttpResponse.Readable (r : HttpResponse) : Prop where
  version : sp ∉ r.version ∧ ¬ crlf <:+: r.version
  statusText : ¬ crlf <:+: r.statusText
  headers : ∀ header ∈ r.headerList,
    colon ∉ header.1 ∧ ¬ crlf <:+: header.1 ∧ ¬ crlf <:+: header.2

@[simp] theorem headerLines_nil : headerLines [] = [] := rfl

@[simp] theorem headerLines_cons (header : Bytes × Bytes) (headerList : List (Bytes × Bytes)) :
    headerLines (header :: headerList) = headerText header ++ crlf ++ headerLines headerList := rfl

theorem crlf_infix_headerText_iff (header : Bytes × Bytes) :
    crlf <:+: headerText header ↔ crlf <:+: header.1 ∨ crlf <:+: header.2 := by
  rw [headerText, List.append_assoc]
  exact infix_append_cons_iff (by decide) (by decide)

/-- A line comes back from the lines behind it iff it has no line break. -/
theorem cut_crlf_append_iff {line rest : Bytes} :
    cut crlf (line ++ crlf ++ rest) = some (line, rest) ↔ ¬ crlf <:+: line :=
  cut_append_iff_notInfix crlf_ne_nil (unbordered_pair cr_ne_lf)

/-- **The headers come back iff no name contains `':'` and none of their texts a line break** — by
induction on the headers: what is read as the first one decides where the others begin. -/
theorem readHeaders_append_iff (headerList : List (Bytes × Bytes)) (body : Bytes) :
    readHeaders (headerLines headerList ++ (crlf ++ body)) = some (headerList, body)
      ↔ ∀ header ∈ headerList, colon ∉ header.1 ∧ ¬ crlf <:+: header.1 ∧ ¬ crlf <:+: header.2 := by
  induction headerList with
  | nil =>
    rw [headerLines_nil, List.nil_append, readHeaders_eq_nil_iff, cut_delimiter_append]
    simp
  | cons header headerList ih =>
    rw [headerLines_cons, List.append_assoc, readHeaders_eq_cons_iff, List.forall_mem_cons, ← ih]
    constructor
    · rintro ⟨line, rest, hcut, hheader, hrest⟩
      obtain ⟨hline, hcolon⟩ := cut_singleton_eq_some_iff.mp hheader
      obtain rfl : line = headerText header := hline
      obtain rfl := List.append_cancel_left (eq_append_of_cut hcut)
      have hnot := cut_crlf_append_iff.mp hcut
      rw [crlf_infix_headerText_iff, not_or] at hnot
      exact ⟨⟨hcolon, hnot⟩, hrest⟩
    · rintro ⟨⟨hcolon, hnot⟩, hrest⟩
      rw [← not_or, ← crlf_infix_headerText_iff] at hnot
      exact ⟨_, _, cut_crlf_append_iff.mpr hnot, cut_append_iff_notMem.mpr hcolon, hrest⟩

/-- The status line. -/
def HttpResponse.statusLine (r : HttpResponse) : Bytes :=
  r.version ++ [sp] ++ (r.status ++ [sp] ++ r.statusText)

theorem HttpResponse.serialize_append (r : HttpResponse) (body : Bytes) : r.serialize ++ body
    = r.statusLine ++ crlf ++ (headerLines r.headerList ++ (crlf ++ body)) := by
  simp only [serialize, statusLine, List.append_assoc]

theorem HttpResponse.crlf_infix_statusLine_iff (r : HttpResponse) : crlf <:+: r.statusLine
    ↔ crlf <:+: r.version ∨ crlf <:+: r.status ∨ crlf <:+: r.statusText := by
  rw [statusLine, List.append_assoc, List.append_assoc]
  exact (infix_append_cons_iff (by decide) (by decide)).trans
    (or_congr_right (infix_append_cons_iff (by decide) (by decide)))

/-- A status line whose fields do not contain what ends them. -/
structure HttpResponse.LineReadable (r : HttpResponse) : Prop where
  version : sp ∉ r.version ∧ ¬ crlf <:+: r.version
  status : sp ∉ r.status ∧ ¬ crlf <:+: r.status
  statusText : ¬ crlf <:+: r.statusText

theorem HttpResponse.lineReadable_new : HttpResponse.new.LineReadable :=
  ⟨by decide, by decide, by decide⟩

/-- **Behind a readable status line the headers are read.** -/
theorem readMessage_append {r : HttpResponse} (h : r.LineReadable) (body : Bytes) :
    readMessage (r.serialize ++ body)
      = (readHeaders (headerLines r.headerList ++ (crlf ++ body))).map
        (Prod.map (fun headerList => { r with headerList := headerList }) id) := by
  have hnot : ¬ crlf <:+: r.statusLine := by
    rw [r.crlf_infix_statusLine_iff, not_or, not_or]
    exact ⟨h.version.2, h.status.2, h.statusText⟩
  ext ⟨r', body'⟩
  rw [readMessage_eq_some_iff, r.serialize_append, cut_crlf_append_iff.mpr hnot]
  constructor
  · rintro ⟨line, rest, tail, hcut, hversion, hstatus, hheaders⟩
    obtain ⟨rfl, rfl⟩ := Prod.mk.inj (Option.some.inj hcut)
    rw [HttpResponse.statusLine, cut_append_iff_notMem.mpr h.version.1, Option.some_inj,
      Prod.mk.injEq] at hversion
    obtain ⟨hversion, rfl⟩ := hversion
    rw [cut_append_iff_notMem.mpr h.status.1, Option.some_inj, Prod.mk.injEq] at hstatus
    refine Option.map_eq_some_iff.mpr ⟨_, hheaders, Prod.ext (HttpResponse.ext ?_ ?_ ?_ rfl) rfl⟩
    exacts [hversion, hstatus.1, hstatus.2]
  · intro hmap
    obtain ⟨⟨headerList, body''⟩, hheaders, heq⟩ := Option.map_eq_some_iff.mp hmap
    obtain ⟨rfl, rfl⟩ := Prod.mk.inj heq
    exact ⟨_, _, _, rfl, cut_append_iff_notMem.mpr h.version.1,
      cut_append_iff_notMem.mpr h.status.1, hheaders⟩

/-- **A response comes back iff it is readable**, its status being free of spaces and line
breaks. -/
theorem readMessage_append_iff {r : HttpResponse} (hstatus : sp ∉ r.status ∧ ¬ crlf <:+: r.status)
    (body : Bytes) : readMessage (r.serialize ++ body) = some (r, body) ↔ r.Readable := by
  constructor
  · intro h
    rw [r.serialize_append] at h
    obtain ⟨line, rest, tail, hcut, hversion, hstatus, hheaders⟩ := readMessage_eq_some_iff.mp h
    obtain ⟨hline, hsp⟩ := cut_singleton_eq_some_iff.mp hversion
    obtain ⟨rfl, -⟩ := cut_singleton_eq_some_iff.mp hstatus
    obtain rfl : line = r.statusLine := hline
    obtain rfl := List.append_cancel_left (eq_append_of_cut hcut)
    have hnot := cut_crlf_append_iff.mp hcut
    rw [r.crlf_infix_statusLine_iff, not_or, not_or] at hnot
    exact ⟨⟨hsp, hnot.1⟩, hnot.2.2, (readHeaders_append_iff _ _).mp hheaders⟩
  · intro h
    rw [readMessage_append ⟨h.version, hstatus, h.statusText⟩,
      (readHeaders_append_iff _ _).mpr h.headers]
    rfl

/-! ## Responses the setters build -/

theorem ne_of_mem_ascii_toString {n : ℕ} {c : Byte} (hc : c ∈ ascii (toString n)) :
    c ≠ sp ∧ c ≠ cr := by
  obtain ⟨d, hd, rfl⟩ := List.mem_map.mp hc
  rw [Nat.toString_eq_ofList_toDigits, String.toList_ofList] at hd
  have hdigit : 48 ≤ d.toNat ∧ d.toNat ≤ 57 :=
    Char.isDigit_iff_toNat.mp (Nat.isDigit_of_mem_toDigits (by decide) (by decide) hd)
  have hsmall : (UInt8.ofNat d.toNat).toNat = d.toNat := Nat.mod_eq_of_lt (by omega)
  constructor <;> intro heq <;> rw [heq] at hsmall <;> simp [sp, cr] at hsmall <;> omega

/-- `std::to_string` writes digits and a sign. -/
theorem ne_of_mem_decimal {n : ℤ} {c : Byte} (hc : c ∈ decimal n) : c ≠ sp ∧ c ≠ cr := by
  cases n with
  | ofNat n => exact ne_of_mem_ascii_toString hc
  | negSucc n =>
    have hsign : toString (Int.negSucc n) = "-" ++ toString (n + 1) := rfl
    rw [decimal, ascii, hsign, String.toList_append, List.map_append] at hc
    rcases List.mem_append.mp hc with hc | hc
    · obtain rfl := List.mem_singleton.mp hc
      decide
    · exact ne_of_mem_ascii_toString hc

theorem decimal_readable (n : ℤ) : sp ∉ decimal n ∧ ¬ crlf <:+: decimal n :=
  ⟨fun hc => (ne_of_mem_decimal hc).1 rfl,
    fun hc => (ne_of_mem_decimal (hc.subset List.mem_cons_self)).2 rfl⟩

theorem HttpResponse.status_built (calls : List ResponseCall) :
    sp ∉ (built calls).status ∧ ¬ crlf <:+: (built calls).status := by
  induction calls using List.reverseRecOn with
  | nil => decide
  | append_singleton calls call ih =>
    rw [built, List.foldl_concat]
    cases call with
    | setStatus code => exact decimal_readable code
    | setStatusText | setVersion | setHeader => exact ih

/-- **A serialized response decodes to what was set exactly when no field contains what ends it**,
whatever the setters were called with and whatever the body. -/
theorem readMessage_built_iff (calls : List ResponseCall) (body : Bytes) :
    readMessage ((HttpResponse.built calls).serialize ++ body)
      = some (HttpResponse.built calls, body) ↔ (HttpResponse.built calls).Readable :=
  readMessage_append_iff (HttpResponse.status_built calls) body

/-- A header whose value ends its line. -/
def splitHeader : List ResponseCall := [.setHeader (ascii "A") (ascii "b\r\nC:d")]

/-- The client reads two headers where one was set. -/
theorem readMessage_splitHeader :
    readMessage ((HttpResponse.built splitHeader).serialize ++ ascii "body")
      = some ({ HttpResponse.built splitHeader with
          headerList := [(ascii "A", ascii "b"), (ascii "C", ascii "d")] }, ascii "body") ∧
    readMessage ((HttpResponse.built splitHeader).serialize ++ ascii "body")
      ≠ some (HttpResponse.built splitHeader, ascii "body") := by
  decide

end YServer
