import YServer.BaseNet.HttpRender
import YServer.BaseNet.HttpStream

/-!
# BaseNet/HttpRequests — written requests on a stream

A rendered request is a head (`WrittenRequest.head`): its lines are not empty and hold no CR, so the
empty line stands at its end only.  Requests written one behind the other therefore make a stream of
heads, and the parser returns what was written exactly where each of them ends with a packet and no
header value holds a `':'` (`feed_eq_written_iff`).
-/

namespace YServer

open Machinery

/-! ## The empty line of a rendered request -/

/-- Fewer than two CRs make no empty line. -/
theorem not_crlfcrlf_suffix_of_count {t : Bytes} (h : t.count cr ≤ 1) : ¬ crlfcrlf <:+ t := by
  intro hend
  have hle := hend.sublist.count_le cr
  have htwo : crlfcrlf.count cr = 2 := by decide
  omega

/-- A line break and a text that does not begin with one end in an empty line only if the text
does. -/
theorem crlfcrlf_suffix_of_crlf_append {s t : Bytes} (hcrlf : ¬ crlf <+: t) (ht : t ≠ [])
    (h : crlfcrlf <:+ s ++ crlf ++ t) : crlfcrlf <:+ t := by
  have hcases : crlfcrlf <:+ t ∨ ∃ u, u ≠ [] ∧ crlfcrlf = u ++ t ∧ u <:+ s ++ crlf := by
    obtain ⟨v, hv⟩ := h
    rcases List.append_eq_append_iff.mp hv with ⟨u, hu, hut⟩ | ⟨u, -, hu⟩
    · rcases eq_or_ne u [] with rfl | hne
      · exact Or.inl ⟨[], hut⟩
      · exact Or.inr ⟨u, hne, hut, v, hu.symm⟩
    · exact Or.inl ⟨u, hu.symm⟩
  rcases hcases with h | ⟨u, hne, hut, hu⟩
  · exact h
  · have hlast : ∀ a ∈ u.getLast?, a = lf := by
      intro a ha
      obtain ⟨v, hv⟩ := hu
      have hget := congrArg List.getLast? hv
      rw [List.getLast?_append_of_ne_nil _ hne, ha] at hget
      have hend : (s ++ crlf).getLast? = some lf := by
        rw [List.getLast?_append_of_ne_nil _ crlf_ne_nil]
        rfl
      exact Option.some.inj (hget.trans hend)
    have hlength := congrArg List.length hut
    rw [List.length_append] at hlength
    have hfour : crlfcrlf.length = 4 := rfl
    have hpos := List.length_pos_iff.mpr hne
    have hpos' := List.length_pos_iff.mpr ht
    -- where the empty line begins before `t`, what stands before `t` ends in the break
    match u, hne with
    | [a], _ => exact absurd (hlast a rfl) (by rw [(List.cons.inj hut).1.symm]; decide)
    | [a, b], _ =>
      obtain ⟨-, -, rfl⟩ : cr = a ∧ lf = b ∧ [cr, lf] = t := by simpa [crlfcrlf] using hut
      exact absurd List.prefix_rfl hcrlf
    | [a, b, c], _ =>
      have hc := (List.cons.inj (List.cons.inj (List.cons.inj hut).2).2).1
      exact absurd (hlast c rfl) (by rw [← hc]; decide)
    | a :: b :: c :: d :: u, _ => simp only [List.length_cons] at hlength; omega

/-- **Lines that are not empty end in an empty line only where they end** — by induction on the
lines; what is longer than the first one goes on behind its line break. -/
theorem eq_of_crlfcrlf_suffix {lines : List Bytes} (hok : ∀ line ∈ lines, line ≠ [] ∧ cr ∉ line)
    {t : Bytes} (ht : t <+: (lines.map (· ++ crlf)).flatten ++ crlf) (hend : crlfcrlf <:+ t) :
    t = (lines.map (· ++ crlf)).flatten ++ crlf := by
  induction lines generalizing t with
  | nil => exact absurd (hend.length_le.trans ht.length_le) (by decide)
  | cons line lines ih =>
    obtain ⟨⟨hne, hcr⟩, hlines⟩ := List.forall_mem_cons.mp hok
    have hone : (line ++ crlf).count cr ≤ 1 := by
      have hcrlf : crlf.count cr = 1 := by decide
      rw [List.count_append, List.count_eq_zero.mpr hcr, hcrlf]
    rw [List.map_cons, List.flatten_cons, List.append_assoc] at ht ⊢
    rcases List.prefix_or_prefix_of_prefix ht (List.prefix_append (line ++ crlf) _) with
      hshort | ⟨t', rfl⟩
    · exact absurd hend (not_crlfcrlf_suffix_of_count ((hshort.sublist.count_le cr).trans hone))
    · have ht' := (List.prefix_append_right_inj (line ++ crlf)).mp ht
      rcases eq_or_ne t' [] with rfl | hne'
      · rw [List.append_nil] at hend
        exact absurd hend (not_crlfcrlf_suffix_of_count hone)
      · by_cases hcrlf : crlf <+: t'
        · -- the next line is the empty one
          cases lines with
          | nil =>
            rw [List.map_nil, List.flatten_nil, List.nil_append] at ht' ⊢
            rw [ht'.eq_of_length_le hcrlf.length_le]
          | cons next lines =>
            obtain ⟨c, next, rfl⟩ := List.exists_cons_of_ne_nil (hlines next List.mem_cons_self).1
            have hhead := hcrlf.trans ht'
            rw [List.map_cons, List.flatten_cons, crlf, List.cons_append, List.cons_append,
              List.cons_append, List.cons_prefix_cons] at hhead
            refine absurd ?_ (hlines (c :: next) List.mem_cons_self).2
            rw [hhead.1]
            exact List.mem_cons_self
        · rw [ih hlines ht' (crlfcrlf_suffix_of_crlf_append hcrlf hne' hend)]

namespace WrittenRequest

variable (r : WrittenRequest)

theorem lines_ne_nil : ∀ line ∈ r.lines, line ≠ [] ∧ cr ∉ line := by
  intro line hline
  refine ⟨?_, fun hc => (r.lines_ok line hline _ hc).1 rfl⟩
  rcases List.mem_cons.mp hline with rfl | hline
  · simp [requestLine]
  · obtain ⟨h, -, rfl⟩ := List.mem_map.mp hline
    simp [WrittenHeader.line]

/-- **A rendered request is a head.** -/
def head : RequestHead where
  text := r.render
  nul_notMem := r.nul_notMem_render
  threeTokens := by
    have hlines : pieces crlf r.render = r.lines ++ [[], []] :=
      pieces_flatten_lines fun line hl => (r.lines_ne_nil line hl).2
    rw [hlines, lines, List.cons_append, List.headD_cons, r.pieces_requestLine]
    rfl
  ends := r.crlfcrlf_suffix_render
  once t ht hend := eq_of_crlfcrlf_suffix r.lines_ne_nil ht hend

/-- What is read of it: headers whose value holds a `':'` are left out. -/
theorem request_head : r.head.request = { r.request with
    headerList := (r.headers.filter fun h => colon ∉ h.value).map WrittenHeader.pair } := by
  have hparse := r.head.parsePacket_text
  change parsePacket [] r.render = _ at hparse
  rw [r.parsePacket_render] at hparse
  exact (Option.some.inj (Prod.mk.inj (Except.ok.inj hparse)).1).symm

theorem request_head_eq_iff :
    r.head.request = r.request ↔ ∀ h ∈ r.headers, colon ∉ h.value := by
  rw [r.request_head]
  constructor
  · intro heq
    have hlength := congrArg (fun request => request.headerList.length) heq
    simp only [request, List.length_map] at hlength
    simpa using List.length_filter_eq_length_iff.mp hlength
  · intro hall
    rw [List.filter_eq_self.mpr fun h hh => decide_eq_true (hall h hh)]
    rfl

end WrittenRequest

/-! ## Streams of them -/

/-- Where packets end with the heads, each head gives its request and nothing is kept. -/
theorem feed_of_aligned {heads : List RequestHead} {seg : Segmentation heads} (h : seg.Aligned) :
    feed [] seg.packets = .ok (heads.map RequestHead.request, []) := by
  obtain ⟨groups, requests, hfeed, hflat, -, hmap, hiff⟩ :=
    @feed_stream seg.packets [] heads seg.flatten_eq fun h => absurd h.length_le (by decide)
  have hgroups : groups = heads.map fun r => [r] := by
    rw [← hflat]
    exact eq_map_singleton_of_length (hiff.mpr h)
  have hrequests : requests.map some = (heads.map RequestHead.request).map some := by
    rw [hmap, hgroups, List.map_map, List.map_map]
    refine List.map_congr_left fun r _ => ?_
    change requestOf (streamOf [r]) = some r.request
    rw [streamOf_cons, streamOf_nil, List.append_nil, r.requestOf_text]
  rw [hfeed, List.map_injective_iff.mpr (fun a b h => Option.some.inj h) hrequests]

/-- As many requests as heads are one for each. -/
theorem aligned_of_length {heads : List RequestHead} {seg : Segmentation heads}
    {requests : List HttpRequest} {last : Bytes}
    (hfeed : feed [] seg.packets = .ok (requests, last))
    (hlength : requests.length = heads.length) :
    seg.Aligned := by
  obtain ⟨groups, requests', hfeed', hflat, hne, hmap, hiff⟩ :=
    @feed_stream seg.packets [] heads seg.flatten_eq fun h => absurd h.length_le (by decide)
  obtain ⟨rfl, -⟩ := Prod.mk.inj (Except.ok.inj (hfeed.symm.trans hfeed'))
  have hcount := congrArg List.length hmap
  rw [List.length_map, List.length_map] at hcount
  exact hiff.mp (forall_length_eq_one_of_length hne (by rw [hflat, ← hlength, hcount]))

/-- What has been read of the first packets is the beginning of what is read of all. -/
theorem feed_prefix {packets rest : List Bytes} {raw last : Bytes} {requests : List HttpRequest}
    (h : feed raw (packets ++ rest) = .ok (requests, last)) :
    ∃ first raw', feed raw packets = .ok (first, raw') ∧ first <+: requests := by
  induction packets generalizing raw requests with
  | nil => exact ⟨[], raw, rfl, List.nil_prefix⟩
  | cons packet packets ih =>
    obtain ⟨⟨request, raw₁⟩, hparse, hrest⟩ := bind_eq_ok h
    obtain ⟨⟨others, raw₂⟩, hothers, heq⟩ := bind_eq_ok hrest
    obtain ⟨rfl, rfl⟩ := Prod.mk.inj (Except.ok.inj heq)
    obtain ⟨first, raw', hfirst, hpre⟩ := ih hothers
    refine ⟨request.toList ++ first, raw', ?_, (List.prefix_append_right_inj _).mpr hpre⟩
    cases request with
    | none => exact feed_cons_none hparse hfirst
    | some request => exact feed_cons_some hparse hfirst

section Written

variable {written : List WrittenRequest}

theorem request_head_iff : (written.map WrittenRequest.head).map RequestHead.request
    = written.map WrittenRequest.request ↔ ∀ r ∈ written, ∀ h ∈ r.headers, colon ∉ h.value := by
  rw [List.map_map, List.map_inj_left]
  exact forall_congr' fun r => forall_congr' fun _ => r.request_head_eq_iff

variable {seg : Segmentation (written.map WrittenRequest.head)}

theorem feed_of_written (hseg : seg.Aligned)
    (hvalues : ∀ r ∈ written, ∀ h ∈ r.headers, colon ∉ h.value) :
    feed [] seg.packets = .ok (written.map WrittenRequest.request, []) := by
  rw [feed_of_aligned hseg, request_head_iff.mpr hvalues]

end Written

/-- **Requests written one behind the other come back as they were written exactly if every one of
them ends with a packet and no header value holds a `':'`**, however the packets are cut
otherwise. -/
theorem feed_eq_written_iff {written : List WrittenRequest}
    (seg : Segmentation (written.map WrittenRequest.head)) :
    feed [] seg.packets = .ok (written.map WrittenRequest.request, [])
      ↔ seg.Aligned ∧ ∀ r ∈ written, ∀ h ∈ r.headers, colon ∉ h.value := by
  refine ⟨fun hfeed => ?_, fun h => feed_of_written h.1 h.2⟩
  have haligned : seg.Aligned :=
    aligned_of_length hfeed (by rw [List.length_map, List.length_map])
  refine ⟨haligned, request_head_iff.mp ?_⟩
  rw [feed_of_aligned haligned] at hfeed
  exact (Prod.mk.inj (Except.ok.inj hfeed)).1

end YServer
