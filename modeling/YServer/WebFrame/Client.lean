import YServer.WebFrame.Context
import YServer.Machinery.Framing

/-!
# WebFrame/Client — a client that reads one response after the other

    status line CRLF headers CRLF │ body              │ status line CRLF …
                        └ Content-Length ┄┄┄┄┄┄┄┄┄┄▸ where the next one begins

`Context` says which replies are well framed: a client reads one content length in them, that of
their body.  On a connection that stays open it takes that length to find the next response, and it
does find it (`Reply.WellFramed.writes`), whatever the bodies contain.
-/

namespace YServer

open Machinery

/-! ## The reader -/

/-- A number as the client reads it: decimal digits, at least one. -/
def readDecimal (text : Bytes) : Option ℕ :=
  let digits := text.map fun c => Char.ofNat c.toNat
  if text ≠ [] ∧ digits.all Char.isDigit then some (Nat.ofDigitChars 10 digits 0) else none

/-- The content length, if there is exactly one. -/
def contentLength (headerList : List (Bytes × Bytes)) : Option ℕ :=
  match valuesOf (ascii "Content-Length") headerList with
  | [value] => readDecimal value
  | _ => none

/-- A response with its body. -/
abbrev Received := HttpResponse × Bytes

/-- The first response, if all of it is there. -/
def readResponse (text : Bytes) : Option (Received × Bytes) := do
  let (response, rest) ← readMessage text
  let length ← contentLength response.headerList
  if length ≤ rest.length then
    return ((response, rest.take length), rest.drop length)
  else
    none

/-! ## Numbers come back -/

theorem map_ofNat_ascii {text : List Char} (h : ∀ c ∈ text, c.isDigit) :
    (text.map fun c => UInt8.ofNat c.toNat).map (fun c => Char.ofNat c.toNat) = text := by
  rw [List.map_map]
  refine (List.map_congr_left fun c hc => ?_).trans (List.map_id _)
  have hdigit : 48 ≤ c.toNat ∧ c.toNat ≤ 57 := Char.isDigit_iff_toNat.mp (h c hc)
  have hsmall : (UInt8.ofNat c.toNat).toNat = c.toNat := Nat.mod_eq_of_lt (by omega)
  rw [Function.comp_apply, hsmall, Char.ofNat_toNat]
  rfl

/-- **`std::to_string` of a length is read back.** -/
theorem readDecimal_decimal (n : ℕ) : readDecimal (decimal n) = some n := by
  have htext : decimal n = (Nat.toDigits 10 n).map fun c => UInt8.ofNat c.toNat := by
    change ascii (toString n) = _
    rw [ascii, Nat.toString_eq_ofList_toDigits, String.toList_ofList]
  have hdigits : ∀ c ∈ Nat.toDigits 10 n, c.isDigit := fun c hc =>
    Nat.isDigit_of_mem_toDigits (by decide) (by decide) hc
  rw [readDecimal, htext, map_ofNat_ascii hdigits, if_pos, Nat.ofDigitChars_ten_toDigits]
  exact ⟨fun h => Nat.toDigits_ne_nil (List.map_eq_nil_iff.mp h), List.all_eq_true.mpr hdigits⟩

/-! ## What follows a response does not change it -/

section Append

variable {text body : Bytes} {headerList : List (Bytes × Bytes)} {r : HttpResponse}

theorem length_le_of_readHeaders (h : readHeaders text = some (headerList, body)) :
    body.length ≤ text.length := by
  induction headerList generalizing text with
  | nil => exact (length_lt_of_cut_crlf (readHeaders_eq_nil_iff.mp h)).le
  | cons header headerList ih =>
    obtain ⟨line, rest, hcut, -, hrest⟩ := readHeaders_eq_cons_iff.mp h
    exact (ih hrest).trans (length_lt_of_cut_crlf hcut).le

/-- By induction on the headers, a line at a time. -/
theorem readHeaders_append_right (h : readHeaders text = some (headerList, body)) (t : Bytes) :
    readHeaders (text ++ t) = some (headerList, body ++ t) := by
  induction headerList generalizing text with
  | nil =>
    rw [readHeaders_eq_nil_iff] at h ⊢
    exact cut_append_right h t
  | cons header headerList ih =>
    obtain ⟨line, rest, hcut, hheader, hrest⟩ := readHeaders_eq_cons_iff.mp h
    exact readHeaders_eq_cons_iff.mpr ⟨line, rest ++ t, cut_append_right hcut t, hheader, ih hrest⟩

theorem length_lt_of_readMessage (h : readMessage text = some (r, body)) :
    body.length < text.length := by
  obtain ⟨line, rest, tail, hcut, -, -, hheaders⟩ := readMessage_eq_some_iff.mp h
  exact (length_le_of_readHeaders hheaders).trans_lt (length_lt_of_cut_crlf hcut)

theorem readMessage_append_right (h : readMessage text = some (r, body)) (t : Bytes) :
    readMessage (text ++ t) = some (r, body ++ t) := by
  obtain ⟨line, rest, tail, hcut, hversion, hstatus, hheaders⟩ := readMessage_eq_some_iff.mp h
  exact readMessage_eq_some_iff.mpr ⟨line, rest ++ t, tail, cut_append_right hcut t, hversion,
    hstatus, readHeaders_append_right hheaders t⟩

end Append

theorem readResponse_eq_some_iff {text rest : Bytes} {received : Received} :
    readResponse text = some (received, rest) ↔
      readMessage text = some (received.1, received.2 ++ rest) ∧
        contentLength received.1.headerList = some received.2.length := by
  obtain ⟨r, body⟩ := received
  constructor
  · intro h
    obtain ⟨⟨r', tail⟩, hmessage, h⟩ := Option.bind_eq_some_iff.mp h
    obtain ⟨length, hlength, h⟩ := Option.bind_eq_some_iff.mp h
    obtain ⟨hle, h⟩ := Option.ite_none_right_eq_some.mp h
    obtain ⟨heq, rfl⟩ := Prod.mk.inj (Option.some.inj h)
    obtain ⟨rfl, rfl⟩ := Prod.mk.inj heq
    rw [List.take_append_drop, List.length_take_of_le hle]
    exact ⟨hmessage, hlength⟩
  · rintro ⟨hmessage, hlength⟩
    simp [readResponse, hmessage, hlength]

/-- **A client finds the responses by their content lengths.** -/
def responseFraming : Framing Byte Received where
  read := readResponse
  shorter {s received rest} h := by
    obtain ⟨hmessage, -⟩ := readResponse_eq_some_iff.mp h
    have hlt := length_lt_of_readMessage hmessage
    rw [List.length_append] at hlt
    omega
  append {s received rest} h t := by
    rw [readResponse_eq_some_iff] at h ⊢
    rw [← List.append_assoc]
    exact ⟨readMessage_append_right h.1 t, h.2⟩

/-! ## Well-framed replies -/

/-- What a client makes of one message by itself. -/
def receivedOf (message : Bytes) : Received := (readMessage message).getD (HttpResponse.new, [])

abbrev Reply.received (reply : Reply) : Received := receivedOf reply.message

/-- **A well-framed reply is one whole response**, with the body and the content type of the
call. -/
theorem Reply.WellFramed.writes {reply : Reply} (h : reply.WellFramed) :
    responseFraming.Writes reply.message reply.received ∧ reply.received.2 = reply.body ∧
      valuesOf (ascii "Content-Type") reply.received.1.headerList = [reply.contentType] := by
  obtain ⟨⟨r, tail⟩, hmessage, hbody, hlength, htype⟩ := h
  have hmessage : readMessage reply.message = some (r, tail) := hmessage
  rw [Reply.received, receivedOf, hmessage]
  refine ⟨readResponse_eq_some_iff.mpr ⟨?_, ?_⟩, hbody, htype⟩
  · rw [List.append_nil]
    exact hmessage
  · change contentLength r.headerList = some tail.length
    rw [contentLength, hlength, ← hbody]
    exact readDecimal_decimal _

end YServer
