import YServer.BaseNet.HttpParser
import Mathlib.Data.Bool.AllAny

/-!
# BaseNet/HttpRender — which rendered requests the parser gives back

A `WrittenRequest` is a request as a client may write it: tokens without blanks in the request line,
names without `':'`, values of any text, blanks and tabs around each value.  The parser recovers the
request line and trims the values, but a header line is kept only if it splits in two at `':'`, so a
value that holds a `':'` takes its header with it (`parsePacket_render`); nothing else is lost
(`parsePacket_render_eq_iff`).
-/

namespace YServer

open Machinery

/-! ## Trimming -/

/-- No whitespace at either end. -/
def Trimmed (value : Bytes) : Prop :=
  (∀ c ∈ value.head?, isspace c = false) ∧ ∀ c ∈ value.getLast?, isspace c = false

theorem findIdx_not_isspace_append {blanks : Bytes} (hb : ∀ c ∈ blanks, isspace c = true)
    (rest : Bytes) : (blanks ++ rest).findIdx (!isspace ·)
      = blanks.length + rest.findIdx (!isspace ·) := by
  have hall : blanks.findIdx (!isspace ·) = blanks.length :=
    List.findIdx_eq_length.mpr fun c hc => by rw [hb c hc]; rfl
  rw [List.findIdx_append, if_neg (by omega), Nat.add_comm]

theorem findIdx_not_isspace_of_head? {value : Bytes} (hne : value ≠ [])
    (h : ∀ c ∈ value.head?, isspace c = false) (rest : Bytes) :
    (value ++ rest).findIdx (!isspace ·) = 0 := by
  obtain ⟨c, value, rfl⟩ := List.exists_cons_of_ne_nil hne
  rw [List.cons_append, List.findIdx_cons, h c rfl]
  rfl

/-- **Trimming undoes the blanks written around a value.** -/
theorem trimWhitespace_append {before value after : Bytes} (hv : Trimmed value)
    (hb : ∀ c ∈ before, isspace c = true) (ha : ∀ c ∈ after, isspace c = true) :
    trimWhitespace (before ++ value ++ after) = value := by
  have ha' : ∀ c ∈ after.reverse, isspace c = true := fun c hc => ha c (List.mem_reverse.mp hc)
  rcases eq_or_ne value [] with rfl | hne
  · have hblank : ∀ c ∈ before ++ [] ++ after, isspace c = true := by
      intro c hc
      rw [List.append_nil, List.mem_append] at hc
      exact hc.elim (hb c) (ha c)
    have hfirst := findIdx_not_isspace_append hblank []
    rw [List.append_nil (before ++ [] ++ after), List.findIdx_nil, Nat.add_zero] at hfirst
    rw [trimWhitespace, hfirst, if_pos (Nat.sub_le _ _)]
  · have hfirst : (before ++ value ++ after).findIdx (!isspace ·) = before.length := by
      rw [List.append_assoc, findIdx_not_isspace_append hb,
        findIdx_not_isspace_of_head? hne hv.1, Nat.add_zero]
    have hlast : (before ++ value ++ after).reverse.findIdx (!isspace ·) = after.length := by
      have hne' : value.reverse ≠ [] := List.reverse_ne_nil_iff.mpr hne
      have hhead : ∀ c ∈ value.reverse.head?, isspace c = false := by
        rw [List.head?_reverse]
        exact hv.2
      rw [List.reverse_append, List.reverse_append, findIdx_not_isspace_append ha',
        findIdx_not_isspace_of_head? hne' hhead, Nat.add_zero, List.length_reverse]
    have hpos := List.length_pos_iff.mpr hne
    have hlen : (before ++ value ++ after).length - after.length - before.length
        = value.length := by
      rw [List.length_append, List.length_append, Nat.add_sub_cancel, Nat.add_sub_cancel_left]
    rw [trimWhitespace, hfirst, hlast, if_neg (by simp; omega), substr, hlen, List.append_assoc,
      List.drop_left, List.take_left]

/-! ## Written requests -/

/-- A header as a client writes it, blanks and tabs around its value. -/
structure WrittenHeader where
  name : Bytes
  before : Bytes
  value : Bytes
  after : Bytes
  name_ok : ∀ c ∈ name, c ≠ colon ∧ c ≠ cr ∧ c ≠ lf ∧ c ≠ nul
  value_ok : ∀ c ∈ value, c ≠ cr ∧ c ≠ lf ∧ c ≠ nul
  trimmed : Trimmed value
  before_ok : ∀ c ∈ before, c = sp ∨ c = 0x09
  after_ok : ∀ c ∈ after, c = sp ∨ c = 0x09

/-- A token of the request line. -/
structure Token where
  text : Bytes
  ne_nil : text ≠ []
  ok : ∀ c ∈ text, c ≠ sp ∧ c ≠ cr ∧ c ≠ lf ∧ c ≠ nul

/-- A request as a client writes it. -/
structure WrittenRequest where
  method : Token
  url : Token
  version : Token
  headers : List WrittenHeader

namespace WrittenHeader

/-- The header line, its CRLF left out. -/
def line (h : WrittenHeader) : Bytes := h.name ++ [colon] ++ (h.before ++ h.value ++ h.after)

/-- The header it stands for. -/
def pair (h : WrittenHeader) : Bytes × Bytes := (h.name, h.value)

theorem blank_ok {c : Byte} (h : c = sp ∨ c = 0x09) :
    c ≠ cr ∧ c ≠ nul ∧ c ≠ colon ∧ isspace c = true := by
  rcases h with rfl | rfl <;> decide

theorem line_ok (h : WrittenHeader) : ∀ c ∈ h.line, c ≠ cr ∧ c ≠ nul := by
  intro c hc
  simp only [line, List.mem_append, List.mem_singleton] at hc
  rcases hc with (hc | rfl) | (hc | hc) | hc
  · exact ⟨(h.name_ok c hc).2.1, (h.name_ok c hc).2.2.2⟩
  · decide
  · exact ⟨(blank_ok (h.before_ok c hc)).1, (blank_ok (h.before_ok c hc)).2.1⟩
  · exact ⟨(h.value_ok c hc).1, (h.value_ok c hc).2.2⟩
  · exact ⟨(blank_ok (h.after_ok c hc)).1, (blank_ok (h.after_ok c hc)).2.1⟩

theorem colon_mem_padded_iff (h : WrittenHeader) :
    colon ∈ h.before ++ h.value ++ h.after ↔ colon ∈ h.value := by
  simp only [List.mem_append]
  refine ⟨?_, fun hv => Or.inl (Or.inr hv)⟩
  rintro ((hb | hv) | ha)
  · exact absurd rfl (blank_ok (h.before_ok _ hb)).2.2.1
  · exact hv
  · exact absurd rfl (blank_ok (h.after_ok _ ha)).2.2.1

/-- **A header line is kept if its value holds no `':'`, and dropped otherwise.** -/
theorem headerOf_line (h : WrittenHeader) :
    headerOf h.line = if colon ∈ h.value then none else some h.pair := by
  have hname : colon ∉ h.name := fun hc => (h.name_ok _ hc).1 rfl
  rw [headerOf, line, pieces_append_of_notMem hname]
  by_cases hv : colon ∈ h.value
  · rw [if_pos hv]
    have hcount : 0 < (h.before ++ h.value ++ h.after).count colon :=
      List.count_pos_iff.mpr (h.colon_mem_padded_iff.mpr hv)
    have hlen := length_pieces_singleton colon (h.before ++ h.value ++ h.after)
    rcases hp : pieces [colon] (h.before ++ h.value ++ h.after) with _ | ⟨p, _ | ⟨q, ps⟩⟩
    · exact absurd hp (pieces_ne_nil _ _)
    · rw [hp, List.length_singleton] at hlen
      omega
    · rfl
  · have hpad : colon ∉ h.before ++ h.value ++ h.after := fun hc =>
      hv (h.colon_mem_padded_iff.mp hc)
    rw [if_neg hv, pieces_of_notMem hpad]
    change some (h.name, trimWhitespace (h.before ++ h.value ++ h.after)) = some h.pair
    rw [trimWhitespace_append h.trimmed (fun c hc => (blank_ok (h.before_ok c hc)).2.2.2)
      (fun c hc => (blank_ok (h.after_ok c hc)).2.2.2), pair]

end WrittenHeader

namespace WrittenRequest

variable (r : WrittenRequest)

def requestLine : Bytes := r.method.text ++ [sp] ++ (r.url.text ++ [sp] ++ r.version.text)

/-- The lines of the head, each without its CRLF. -/
def lines : List Bytes := r.requestLine :: r.headers.map WrittenHeader.line

/-- `method SP url SP version CRLF (name ':' value CRLF)* CRLF`. -/
def render : Bytes := (r.lines.map (· ++ crlf)).flatten ++ crlf

/-- The request it stands for. -/
def request : HttpRequest :=
  ⟨r.method.text, r.url.text, r.version.text, r.headers.map WrittenHeader.pair⟩

theorem pieces_requestLine :
    pieces [sp] r.requestLine = [r.method.text, r.url.text, r.version.text] := by
  have hno : ∀ t : Token, sp ∉ t.text := fun t hc => (t.ok _ hc).1 rfl
  rw [requestLine, pieces_append_of_notMem (hno r.method), pieces_append_of_notMem (hno r.url),
    pieces_of_notMem (hno r.version)]

theorem lines_ok : ∀ line ∈ r.lines, ∀ c ∈ line, c ≠ cr ∧ c ≠ nul := by
  have htoken : ∀ t : Token, ∀ c ∈ t.text, c ≠ cr ∧ c ≠ nul := fun t c hc =>
    ⟨(t.ok c hc).2.1, (t.ok c hc).2.2.2⟩
  intro line hline
  rcases List.mem_cons.mp hline with rfl | hline
  · intro c hc
    simp only [requestLine, List.mem_append, List.mem_singleton] at hc
    rcases hc with (hc | rfl) | (hc | rfl) | hc
    · exact htoken _ c hc
    · decide
    · exact htoken _ c hc
    · decide
    · exact htoken _ c hc
  · obtain ⟨h, -, rfl⟩ := List.mem_map.mp hline
    exact h.line_ok

/-! ## Reading a rendered head -/

/-- **The lines come back, and behind them the two empty pieces the terminator leaves.** -/
theorem pieces_flatten_lines {lines : List Bytes} (hok : ∀ line ∈ lines, cr ∉ line) :
    pieces crlf ((lines.map (· ++ crlf)).flatten ++ crlf) = lines ++ [[], []] := by
  induction lines with
  | nil => decide
  | cons line lines ih =>
    rw [List.map_cons, List.flatten_cons, List.append_assoc]
    rw [crlf, pieces_append_of_notMem (hok line List.mem_cons_self), ← crlf,
      ih fun l hl => hok l (List.mem_cons_of_mem _ hl), List.cons_append]

theorem crlf_suffix_flatten {lines : List Bytes} (hne : lines ≠ []) :
    crlf <:+ (lines.map (· ++ crlf)).flatten := by
  rw [← List.dropLast_append_getLast hne, List.map_append, List.flatten_append]
  exact ⟨((lines.dropLast).map (· ++ crlf)).flatten ++ lines.getLast hne, by simp⟩

theorem crlfcrlf_suffix_render : crlfcrlf <:+ r.render := by
  obtain ⟨t, ht⟩ := crlf_suffix_flatten (List.cons_ne_nil r.requestLine _)
  exact ⟨t, by rw [render, lines, ← ht, List.append_assoc]; rfl⟩

theorem nul_notMem_render : nul ∉ r.render := by
  have hcrlf : nul ∉ crlf := by decide
  intro hc
  rw [render, List.mem_append] at hc
  rcases hc with hc | hc
  · obtain ⟨l, hl, hcl⟩ := List.mem_flatten.mp hc
    obtain ⟨line, hline, rfl⟩ := List.mem_map.mp hl
    rcases List.mem_append.mp hcl with hcl | hcl
    · exact (r.lines_ok line hline _ hcl).2 rfl
    · exact hcrlf hcl
  · exact hcrlf hc

theorem filterMap_headerOf_lines (headers : List WrittenHeader) :
    (headers.map WrittenHeader.line ++ [[], []]).filterMap headerOf
      = (headers.filter fun h => colon ∉ h.value).map WrittenHeader.pair := by
  have hempty : ([[], []] : List Bytes).filterMap headerOf = [] := by decide
  rw [List.filterMap_append, hempty, List.append_nil]
  induction headers with
  | nil => rfl
  | cons h headers ih =>
    rw [List.map_cons, List.filterMap_cons, h.headerOf_line, ih, List.filter_cons]
    by_cases hv : colon ∈ h.value <;> simp [hv]

/-- **What the parser makes of a rendered request**: the request line, and the headers whose value
holds no `':'`. -/
theorem parsePacket_render : parsePacket [] r.render = .ok (some { r.request with
    headerList := (r.headers.filter fun h => colon ∉ h.value).map WrittenHeader.pair }, []) := by
  have hlines : pieces crlf r.render = r.lines ++ [[], []] :=
    pieces_flatten_lines fun line hl hc => (r.lines_ok line hl _ hc).1 rfl
  have hrequest : requestOf r.render = some { r.request with
      headerList := (r.headers.filter fun h => colon ∉ h.value).map WrittenHeader.pair } := by
    rw [requestOf, hlines, lines, List.cons_append, List.headD_cons, List.tail_cons,
      r.pieces_requestLine, filterMap_headerOf_lines]
    rfl
  rw [parsePacket_eq, List.nil_append, cStringView_of_notMem r.nul_notMem_render,
    if_pos r.crlfcrlf_suffix_render, hrequest]

/-- **Parsing undoes rendering exactly when no header value holds a `':'`.** -/
theorem parsePacket_render_eq_iff :
    parsePacket [] r.render = .ok (some r.request, []) ↔ ∀ h ∈ r.headers, colon ∉ h.value := by
  have hlist : (r.headers.filter fun h => colon ∉ h.value).map WrittenHeader.pair
      = r.headers.map WrittenHeader.pair ↔ ∀ h ∈ r.headers, colon ∉ h.value := by
    constructor
    · intro heq
      have hlen := congrArg List.length heq
      rw [List.length_map, List.length_map] at hlen
      simpa using List.length_filter_eq_length_iff.mp hlen
    · intro hall
      rw [List.filter_eq_self.mpr fun h hh => decide_eq_true (hall h hh)]
  rw [← hlist, parsePacket_render]
  constructor
  · intro heq
    have hsome := congrArg (fun e => e.toOption.bind fun p => p.1.map HttpRequest.headerList) heq
    exact Option.some.inj hsome
  · intro heq
    rw [heq]
    rfl

end WrittenRequest

/-! ## A port in the Host header -/

/-- `GET / HTTP/1.1` with the header `Host: localhost:8080`. -/
def hostWithPort : WrittenRequest where
  method := ⟨ascii "GET", List.cons_ne_nil _ _, List.all_iff_forall_prop.mp (by decide)⟩
  url := ⟨ascii "/", List.cons_ne_nil _ _, List.all_iff_forall_prop.mp (by decide)⟩
  version := ⟨ascii "HTTP/1.1", List.cons_ne_nil _ _, List.all_iff_forall_prop.mp (by decide)⟩
  headers :=
    [{ name := ascii "Host"
       before := [sp]
       value := ascii "localhost:8080"
       after := []
       name_ok := List.all_iff_forall_prop.mp (by decide)
       value_ok := List.all_iff_forall_prop.mp (by decide)
       trimmed := ⟨by rintro c ⟨⟩; rfl, by rintro c ⟨⟩; rfl⟩
       before_ok := List.all_iff_forall_prop.mp (by decide)
       after_ok := List.all_iff_forall_prop.mp (by decide) }]

/-- **The header with the port is dropped.** -/
theorem parsePacket_hostWithPort :
    parsePacket [] hostWithPort.render ≠ .ok (some hostWithPort.request, []) := by
  decide

end YServer
