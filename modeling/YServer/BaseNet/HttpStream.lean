import YServer.BaseNet.HttpParser

/-!
# BaseNet/HttpStream — a stream of request heads, cut into packets

A client sends heads `r₁ ++ … ++ rₙ`; the network cuts them into packets wherever it likes.  The
parser tests for the empty line at the end of what it has kept and consumes all of it, so what it
returns are the *groups* of heads between one packet end that falls on a head's end and the next:

    r₁ r₂ │ r₃ │ r₄ r₅          ⟿          [r₁ r₂] , [r₃] , [r₄ r₅]

Every group gives one request, its first head's with the other heads' lines read as headers.  So
each head gives its own request exactly when every head's end is a packet's end
(`feed_eq_requests_iff_aligned`).
-/

namespace YServer

open Machinery

/-! ## Heads and streams -/

/-- A complete request head. -/
structure RequestHead where
  text : Bytes
  nul_notMem : nul ∉ text
  /-- The request line has three tokens. -/
  threeTokens : (pieces [sp] ((pieces crlf text).headD [])).length = 3
  ends : crlfcrlf <:+ text
  /-- The empty line occurs only at the end. -/
  once : ∀ t, t <+: text → crlfcrlf <:+ t → t = text

/-- The bytes of a list of heads sent one after the other. -/
def streamOf (heads : List RequestHead) : Bytes := (heads.map RequestHead.text).flatten

@[simp] theorem streamOf_nil : streamOf [] = [] := rfl

@[simp] theorem streamOf_cons (r : RequestHead) (heads : List RequestHead) :
    streamOf (r :: heads) = r.text ++ streamOf heads := rfl

theorem streamOf_append (heads heads' : List RequestHead) :
    streamOf (heads ++ heads') = streamOf heads ++ streamOf heads' := by
  rw [streamOf, List.map_append, List.flatten_append, streamOf, streamOf]

theorem streamOf_take_append_drop (heads : List RequestHead) (k : ℕ) :
    streamOf (heads.take k) ++ streamOf (heads.drop k) = streamOf heads := by
  rw [← streamOf_append, List.take_append_drop]

/-- A way of cutting the heads' bytes into packets. -/
structure Segmentation (heads : List RequestHead) where
  packets : List Bytes
  flatten_eq : packets.flatten = streamOf heads

/-- Packets fed in order to one parser: the requests it returns, and the bytes it keeps. -/
def feed : Bytes → List Bytes → Except Fault (List HttpRequest × Bytes)
  | raw, [] => .ok ([], raw)
  | raw, packet :: packets => do
    let (request, raw) ← parsePacket raw packet
    let (requests, raw) ← feed raw packets
    return (request.toList ++ requests, raw)

namespace RequestHead

theorem length_pos (r : RequestHead) : 4 ≤ r.text.length := r.ends.length_le

/-- **A head does not begin with CRLF** — its first line would be empty, which is one token. -/
theorem not_crlf_prefix (r : RequestHead) : ¬ crlf <+: r.text := by
  rintro ⟨t, ht⟩
  have h := r.threeTokens
  rw [← ht, pieces_delimiter_append crlf_ne_nil, List.headD_cons, pieces_nil] at h
  exact absurd h (by decide)

theorem crlf_infix (r : RequestHead) : crlf <:+: r.text := by
  obtain ⟨t, ht⟩ := r.ends
  exact ⟨t ++ crlf, [], by rw [← ht, List.append_nil, List.append_assoc]; rfl⟩

/-- **A text that begins with a head has that head's request line**, so it holds a request. -/
theorem requestOf_append_isSome (r : RequestHead) (t : Bytes) :
    (requestOf (r.text ++ t)).isSome := by
  have hhead : (pieces crlf (r.text ++ t)).headD [] = (pieces crlf r.text).headD [] := by
    rw [List.headD_eq_head?_getD, List.headD_eq_head?_getD,
      head?_pieces_append crlf_ne_nil r.crlf_infix]
  have h := r.threeTokens
  rw [requestOf, hhead]
  rcases hp : pieces [sp] ((pieces crlf r.text).headD []) with _ | ⟨a, _ | ⟨b, _ | ⟨c, rest⟩⟩⟩
  · rw [hp] at h; exact absurd h (by decide)
  · rw [hp] at h; exact absurd h (by simp)
  · rw [hp] at h; exact absurd h (by simp)
  · rfl

theorem requestOf_isSome (r : RequestHead) : (requestOf r.text).isSome := by
  have h := r.requestOf_append_isSome []
  rwa [List.append_nil] at h

/-- The request of a head: what a fresh parser makes of it alone (`parsePacket_text`). -/
def request (r : RequestHead) : HttpRequest := (requestOf r.text).get r.requestOf_isSome

theorem requestOf_text (r : RequestHead) : requestOf r.text = some r.request :=
  (Option.some_get r.requestOf_isSome).symm

theorem parsePacket_text (r : RequestHead) : parsePacket [] r.text = .ok (some r.request, []) := by
  rw [parsePacket_eq, List.nil_append, cStringView_of_notMem r.nul_notMem, if_pos r.ends,
    r.requestOf_text]

end RequestHead

/-! ## Where a stream looks complete

Only a whole number of heads ends in an empty line: inside a head `once` forbids it, and across two
heads it would need the second to begin with CRLF. -/

/-- Behind an empty line, a further text that does not begin with CRLF ends in an empty line only by
itself. -/
theorem crlfcrlf_suffix_append {s t : Bytes} (hs : crlfcrlf <:+ s) (ht : t ≠ [])
    (hcrlf : ¬ crlf <+: t) : crlfcrlf <:+ s ++ t ↔ crlfcrlf <:+ t := by
  refine ⟨fun h => ?_, fun h => h.trans (List.suffix_append s t)⟩
  rcases Nat.lt_or_ge t.length 4 with hlt | hge
  · -- too short: the four letters would overlap those that end `s`
    obtain ⟨u, rfl⟩ := hs
    have hrev : crlfcrlf.reverse <+: t.reverse ++ crlfcrlf.reverse ++ u.reverse := by
      rw [← List.reverse_append, ← List.reverse_append, List.reverse_prefix, ← List.append_assoc]
      exact h
    match t, ht, hlt with
    | [a], _, _ => simp [crlfcrlf, List.cons_prefix_cons, cr, lf] at hrev
    | [a, b], _, _ =>
      simp only [crlfcrlf, List.reverse_cons, List.reverse_nil, List.nil_append, List.cons_append,
        List.cons_prefix_cons] at hrev
      exact absurd ⟨[], by rw [crlf, hrev.1, hrev.2.1]; rfl⟩ hcrlf
    | [a, b, c], _, _ => simp [crlfcrlf, List.cons_prefix_cons, cr, lf] at hrev
  · exact List.suffix_of_suffix_length_le h (List.suffix_append s t) hge

/-- A nonempty beginning of a stream does not begin with CRLF. -/
theorem not_crlf_prefix_of_prefix_streamOf {heads : List RequestHead} {t : Bytes}
    (ht : t <+: streamOf heads) (h : crlf <+: t) : False := by
  cases heads with
  | nil =>
    rw [streamOf_nil, List.prefix_nil] at ht
    rw [ht, List.prefix_nil] at h
    exact crlf_ne_nil h
  | cons r heads =>
    refine r.not_crlf_prefix ?_
    refine List.prefix_of_prefix_length_le (h.trans ht) (List.prefix_append _ _) ?_
    exact (by decide : crlf.length ≤ 4).trans r.length_pos

/-- **A beginning of a stream looks complete exactly when it is a whole number of heads.** -/
theorem crlfcrlf_suffix_iff {heads : List RequestHead} {raw : Bytes}
    (hraw : raw <+: streamOf heads) :
    crlfcrlf <:+ raw ↔ ∃ k, 0 < k ∧ k ≤ heads.length ∧ raw = streamOf (heads.take k) := by
  induction heads generalizing raw with
  | nil =>
    rw [streamOf_nil, List.prefix_nil] at hraw
    subst hraw
    refine ⟨fun h => absurd h.length_le (by decide), ?_⟩
    rintro ⟨k, hpos, hle, -⟩
    exact absurd (hpos.trans_le hle) (lt_irrefl 0)
  | cons r heads ih =>
    rw [streamOf_cons] at hraw
    rcases List.prefix_or_prefix_of_prefix hraw (List.prefix_append r.text (streamOf heads)) with
      hr | ⟨t, rfl⟩
    · -- inside the first head: only its whole text ends in an empty line
      constructor
      · intro h
        exact ⟨1, Nat.one_pos, Nat.succ_pos _, by simpa using r.once raw hr h⟩
      · rintro ⟨k, hpos, -, rfl⟩
        obtain ⟨k, rfl⟩ := Nat.exists_eq_succ_of_ne_zero hpos.ne'
        rw [List.take_succ_cons, streamOf_cons] at hr ⊢
        rw [hr.eq_of_length_le (List.prefix_append _ _).length_le]
        exact r.ends
    · -- behind the first head: the rest of the stream, unless there is none of it
      have ht : t <+: streamOf heads := (List.prefix_append_right_inj r.text).mp hraw
      rcases eq_or_ne t [] with rfl | hne
      · rw [List.append_nil]
        exact ⟨fun _ => ⟨1, Nat.one_pos, Nat.succ_pos _, by simp⟩, fun _ => r.ends⟩
      · rw [crlfcrlf_suffix_append r.ends hne (not_crlf_prefix_of_prefix_streamOf ht), ih ht]
        constructor
        · rintro ⟨k, hpos, hle, rfl⟩
          exact ⟨k + 1, Nat.succ_pos k, Nat.succ_le_succ hle, rfl⟩
        · rintro ⟨k, hpos, hle, heq⟩
          obtain ⟨k, rfl⟩ := Nat.exists_eq_succ_of_ne_zero hpos.ne'
          rw [List.take_succ_cons, streamOf_cons, List.append_cancel_left_eq] at heq
          refine ⟨k, Nat.pos_of_ne_zero ?_, Nat.le_of_succ_le_succ hle, heq⟩
          rintro rfl
          exact hne heq

/-- A stream has no NUL. -/
theorem nul_notMem_of_prefix_streamOf {heads : List RequestHead} {raw : Bytes}
    (hraw : raw <+: streamOf heads) : nul ∉ raw := by
  intro hmem
  obtain ⟨text, htext, hc⟩ := List.mem_flatten.mp (hraw.subset hmem)
  obtain ⟨r, -, rfl⟩ := List.mem_map.mp htext
  exact r.nul_notMem hc

theorem streamOf_take_ne_nil {heads : List RequestHead} {k : ℕ} (hpos : 0 < k)
    (hle : k ≤ heads.length) : streamOf (heads.take k) ≠ [] := by
  cases heads with
  | nil => exact absurd (hpos.trans_le hle) (lt_irrefl 0)
  | cons r heads =>
    obtain ⟨k, rfl⟩ := Nat.exists_eq_succ_of_ne_zero hpos.ne'
    rw [List.take_succ_cons, streamOf_cons]
    exact List.append_ne_nil_of_left_ne_nil (fun h => by
      have := r.length_pos
      rw [h] at this
      exact absurd this (by decide)) _

theorem streamOf_take_add (heads : List RequestHead) (i j : ℕ) :
    streamOf (heads.take (i + j))
      = streamOf (heads.take i) ++ streamOf ((heads.drop i).take j) := by
  rw [List.take_add, streamOf_append]

/-- Fewer heads make a shorter beginning of the stream. -/
theorem le_of_streamOf_take_isPrefix {heads : List RequestHead} {i k : ℕ} (hk : k ≤ heads.length)
    (h : streamOf (heads.take k) <+: streamOf (heads.take i)) : k ≤ i := by
  by_contra hlt
  obtain ⟨m, rfl⟩ := Nat.exists_eq_add_of_lt (Nat.lt_of_not_le hlt)
  have hne : streamOf ((heads.drop i).take (m + 1)) ≠ [] :=
    streamOf_take_ne_nil (Nat.succ_pos m) (by rw [List.length_drop]; omega)
  rw [Nat.add_assoc, streamOf_take_add] at h
  have hlen := h.length_le
  rw [List.length_append] at hlen
  have := List.length_pos_iff.mpr hne
  omega

/-! ## One packet -/

/-- **What a packet does to a stream**: it is kept, or it completes some whole heads, which become
one request. -/
theorem parsePacket_stream {heads : List RequestHead} {raw packet rest : Bytes}
    (h : raw ++ packet ++ rest = streamOf heads) :
    (¬ crlfcrlf <:+ raw ++ packet ∧ parsePacket raw packet = .ok (none, raw ++ packet)) ∨
      ∃ k request, 0 < k ∧ k ≤ heads.length ∧ raw ++ packet = streamOf (heads.take k) ∧
        rest = streamOf (heads.drop k) ∧ requestOf (streamOf (heads.take k)) = some request ∧
        parsePacket raw packet = .ok (some request, []) := by
  have hpre : raw ++ packet <+: streamOf heads := ⟨rest, h⟩
  rw [parsePacket_eq, cStringView_of_notMem (nul_notMem_of_prefix_streamOf hpre)]
  by_cases hend : crlfcrlf <:+ raw ++ packet
  · obtain ⟨k, hpos, hle, heq⟩ := (crlfcrlf_suffix_iff hpre).mp hend
    have hsome : (requestOf (streamOf (heads.take k))).isSome := by
      cases heads with
      | nil => exact absurd (hpos.trans_le hle) (lt_irrefl 0)
      | cons r heads =>
        obtain ⟨k, rfl⟩ := Nat.exists_eq_succ_of_ne_zero hpos.ne'
        exact r.requestOf_append_isSome _
    obtain ⟨request, hrequest⟩ := Option.isSome_iff_exists.mp hsome
    have hrest : rest = streamOf (heads.drop k) := by
      rw [← streamOf_take_append_drop heads k, ← heq, List.append_cancel_left_eq] at h
      exact h
    exact Or.inr ⟨k, request, hpos, hle, heq, hrest, hrequest, by rw [if_pos hend, heq, hrequest]⟩
  · exact Or.inl ⟨hend, if_neg hend⟩

/-! ## A run of packets -/

/-- Some packet's end falls on the end of the `k`-th head. -/
def CutAfter (raw : Bytes) (packets : List Bytes) (heads : List RequestHead) (k : ℕ) : Prop :=
  ∃ j, raw ++ (packets.take j).flatten = streamOf (heads.take k)

/-- A cut that a run still has to make lies behind its first packet. -/
theorem cutAfter_cons_iff {raw packet : Bytes} {packets : List Bytes} {heads : List RequestHead}
    (h : raw ++ packet ++ packets.flatten = streamOf heads) (hraw : ¬ crlfcrlf <:+ raw) {k : ℕ}
    (hpos : 0 < k) (hle : k ≤ heads.length) :
    CutAfter raw (packet :: packets) heads k ↔ CutAfter (raw ++ packet) packets heads k := by
  constructor
  · rintro ⟨j, hj⟩
    cases j with
    | zero =>
      refine absurd ((crlfcrlf_suffix_iff ⟨packet ++ packets.flatten, ?_⟩).mpr
        ⟨k, hpos, hle, by simpa using hj⟩) hraw
      rw [← List.append_assoc, h]
    | succ j =>
      exact ⟨j, by rwa [List.take_succ_cons, List.flatten_cons, ← List.append_assoc] at hj⟩
  · rintro ⟨j, hj⟩
    refine ⟨j + 1, ?_⟩
    rw [List.take_succ_cons, List.flatten_cons, ← List.append_assoc]
    exact hj

/-- **A packet that ends with the `k`-th head leaves every head its cut if it ends with the first
one, and the rest of the run has the others.** -/
theorem forall_cutAfter_iff {raw : Bytes} {packets : List Bytes} {heads : List RequestHead} {k : ℕ}
    (hk : raw = streamOf (heads.take k)) (hpos : 0 < k) (hle : k ≤ heads.length) :
    (k = 1 ∧ ∀ i, 0 < i → i ≤ (heads.drop k).length → CutAfter [] packets (heads.drop k) i) ↔
      ∀ i, 0 < i → i ≤ heads.length → CutAfter raw packets heads i := by
  constructor
  · rintro ⟨rfl, hcuts⟩ i hi hile
    obtain ⟨i, rfl⟩ := Nat.exists_eq_succ_of_ne_zero hi.ne'
    rcases Nat.eq_zero_or_pos i with rfl | hi'
    · exact ⟨0, by rw [List.take_zero, List.flatten_nil, List.append_nil, hk]⟩
    · obtain ⟨j, hj⟩ := hcuts i hi' (by rw [List.length_drop]; omega)
      refine ⟨j, ?_⟩
      have hi1 : i.succ = 1 + i := Nat.succ_eq_one_add i
      rw [hi1, streamOf_take_add, ← hj, ← hk, List.nil_append]
  · intro hcuts
    obtain ⟨j, hj⟩ := hcuts 1 Nat.one_pos (by omega)
    have hpre : streamOf (heads.take k) <+: streamOf (heads.take 1) :=
      ⟨(packets.take j).flatten, by rw [← hk]; exact hj⟩
    obtain rfl : k = 1 := Nat.le_antisymm (le_of_streamOf_take_isPrefix hle hpre) hpos
    refine ⟨rfl, fun i hi hile => ?_⟩
    rw [List.length_drop] at hile
    obtain ⟨j, hj⟩ := hcuts (1 + i) (by omega) (by omega)
    rw [hk, streamOf_take_add, List.append_cancel_left_eq] at hj
    exact ⟨j, hj⟩

section Feed

variable {raw raw' last packet : Bytes} {packets : List Bytes} {requests : List HttpRequest}

theorem feed_cons_none (hparse : parsePacket raw packet = .ok (none, raw'))
    (hfeed : feed raw' packets = .ok (requests, last)) :
    feed raw (packet :: packets) = .ok (requests, last) := by
  rw [feed, hparse]
  change (feed raw' packets >>= fun p => pure (([] : List HttpRequest) ++ p.1, p.2)) = _
  rw [hfeed]
  rfl

theorem feed_cons_some {request : HttpRequest}
    (hparse : parsePacket raw packet = .ok (some request, raw'))
    (hfeed : feed raw' packets = .ok (requests, last)) :
    feed raw (packet :: packets) = .ok (request :: requests, last) := by
  rw [feed, hparse]
  change (feed raw' packets >>= fun p => pure ([request] ++ p.1, p.2)) = _
  rw [hfeed]
  rfl

end Feed

/-- **A run of packets turns the heads into groups, one request a group** — by induction on the
packets; what is kept between two packets is never complete. -/
theorem feed_stream {packets : List Bytes} : ∀ {raw : Bytes} {heads : List RequestHead},
    raw ++ packets.flatten = streamOf heads → ¬ crlfcrlf <:+ raw →
    ∃ (groups : List (List RequestHead)) (requests : List HttpRequest),
      feed raw packets = .ok (requests, []) ∧ groups.flatten = heads ∧ [] ∉ groups ∧
      requests.map some = groups.map (fun group => requestOf (streamOf group)) ∧
      ((∀ group ∈ groups, group.length = 1) ↔
        ∀ k, 0 < k → k ≤ heads.length → CutAfter raw packets heads k) := by
  induction packets with
  | nil =>
    intro raw heads h hraw
    rw [List.flatten_nil, List.append_nil] at h
    subst h
    cases heads with
    | nil =>
      refine ⟨[], [], rfl, rfl, List.not_mem_nil, rfl, fun _ k hpos hle => ?_, by simp⟩
      exact absurd (hpos.trans_le hle) (lt_irrefl 0)
    | cons r heads =>
      refine absurd ((crlfcrlf_suffix_iff List.prefix_rfl).mpr ?_) hraw
      exact ⟨(r :: heads).length, Nat.succ_pos _, le_rfl, by rw [List.take_length]⟩
  | cons packet packets ih =>
    intro raw heads h hraw
    rw [List.flatten_cons, ← List.append_assoc] at h
    have hbehind : (∀ k, 0 < k → k ≤ heads.length → CutAfter (raw ++ packet) packets heads k) ↔
        ∀ k, 0 < k → k ≤ heads.length → CutAfter raw (packet :: packets) heads k :=
      forall_congr' fun k => forall_congr' fun hpos => forall_congr' fun hle =>
        (cutAfter_cons_iff h hraw hpos hle).symm
    rcases parsePacket_stream h with
      ⟨hopen, hparse⟩ | ⟨k, request, hpos, hle, hk, hrest, hreq, hparse⟩
    · obtain ⟨groups, requests, hfeed, hflat, hne, hmap, hiff⟩ := ih h hopen
      exact ⟨groups, requests, feed_cons_none hparse hfeed, hflat, hne, hmap, hiff.trans hbehind⟩
    · obtain ⟨groups, requests, hfeed, hflat, hne, hmap, hiff⟩ :=
        @ih [] (heads.drop k) (by rw [List.nil_append, hrest])
          fun h => absurd h.length_le (by decide)
      refine ⟨heads.take k :: groups, request :: requests, feed_cons_some hparse hfeed, ?_, ?_, ?_,
        ?_⟩
      · rw [List.flatten_cons, hflat, List.take_append_drop]
      · rw [List.mem_cons, not_or]
        refine ⟨fun h => ?_, hne⟩
        have := congrArg List.length h
        rw [List.length_nil, List.length_take] at this
        omega
      · rw [List.map_cons, List.map_cons, hmap, hreq]
      · rw [List.forall_mem_cons, hiff, List.length_take, Nat.min_eq_left hle, ← hbehind]
        exact forall_cutAfter_iff hk hpos hle

/-! ## Each head its own request -/

/-- Groups without empty ones have at least as many members as there are groups. -/
theorem length_le_length_flatten {α : Type*} {groups : List (List α)} (hne : [] ∉ groups) :
    groups.length ≤ groups.flatten.length := by
  induction groups with
  | nil => exact le_rfl
  | cons group groups ih =>
    obtain ⟨hg, hgs⟩ := not_or.mp fun h => hne (List.mem_cons.mpr h)
    have hpos : 0 < group.length := List.length_pos_iff.mpr (Ne.symm hg)
    have hle := ih hgs
    rw [List.flatten_cons, List.length_append, List.length_cons]
    omega

/-- …and are as many as their members only if each has one. -/
theorem forall_length_eq_one_of_length {α : Type*} {groups : List (List α)} (hne : [] ∉ groups)
    (h : groups.flatten.length = groups.length) : ∀ group ∈ groups, group.length = 1 := by
  induction groups with
  | nil => exact fun _ h => absurd h List.not_mem_nil
  | cons group groups ih =>
    obtain ⟨hg, hgs⟩ := not_or.mp fun h => hne (List.mem_cons.mpr h)
    have hpos : 0 < group.length := List.length_pos_iff.mpr (Ne.symm hg)
    have hle := length_le_length_flatten hgs
    rw [List.flatten_cons, List.length_append, List.length_cons] at h
    refine List.forall_mem_cons.mpr ⟨by omega, ih hgs (by omega)⟩

/-- Groups of one are their members, each by itself. -/
theorem eq_map_singleton_of_length {α : Type*} {groups : List (List α)}
    (h : ∀ group ∈ groups, group.length = 1) : groups = groups.flatten.map fun a => [a] := by
  induction groups with
  | nil => rfl
  | cons group groups ih =>
    obtain ⟨hg, hgs⟩ := List.forall_mem_cons.mp h
    obtain ⟨a, rfl⟩ := List.length_eq_one_iff.mp hg
    rw [List.flatten_cons, List.map_append, ← ih hgs]
    rfl

/-- **The cut respects the heads**: every head's end is a packet's end. -/
def Segmentation.Aligned {heads : List RequestHead} (seg : Segmentation heads) : Prop :=
  ∀ k, 0 < k → k ≤ heads.length → CutAfter [] seg.packets heads k

/-- **Each head gives its own request, and nothing else does, exactly when every head's end is a
packet's end** — a packet end inside a head does no harm, one head's end inside a packet merges that
head with the next. -/
theorem feed_eq_requests_iff_aligned {heads : List RequestHead} (seg : Segmentation heads) :
    (feed [] seg.packets).map Prod.fst = .ok (heads.map RequestHead.request) ↔ seg.Aligned := by
  obtain ⟨groups, requests, hfeed, hflat, hne, hmap, hiff⟩ :=
    @feed_stream seg.packets [] heads seg.flatten_eq fun h => absurd h.length_le (by decide)
  rw [hfeed]
  change Except.ok requests = Except.ok (heads.map RequestHead.request) ↔ _
  rw [Except.ok.injEq]
  refine Iff.trans ⟨?_, ?_⟩ hiff
  · rintro rfl
    have hlen := congrArg List.length hmap
    rw [List.length_map, List.length_map, List.length_map] at hlen
    exact forall_length_eq_one_of_length hne (by rw [hflat, hlen])
  · intro hone
    have hgroups : groups = heads.map fun r => [r] := by
      rw [← hflat]
      exact eq_map_singleton_of_length hone
    refine List.map_injective_iff.mpr (fun a b h => Option.some.inj h) ?_
    rw [hmap, hgroups, List.map_map, List.map_map]
    refine List.map_congr_left fun r _ => ?_
    change requestOf (streamOf [r]) = some r.request
    rw [streamOf_cons, streamOf_nil, List.append_nil, r.requestOf_text]

/-! ## Two heads in one packet -/

/-- The head of a `GET` of a one-letter path. -/
def getText (path : Byte) : Bytes := ascii "GET /" ++ path :: ascii " HTTP/1.1" ++ crlfcrlf

/-- …ends nowhere before its end. -/
theorem getText_once {path : Byte} (hpath : path = 97 ∨ path = 98) :
    ∀ t ∈ (getText path).inits, crlfcrlf <:+ t → t = getText path := by
  rcases hpath with rfl | rfl <;> decide

/-- `GET` of `/a` or `/b`. -/
def getHead (path : Byte) (hpath : path = 97 ∨ path = 98) : RequestHead where
  text := getText path
  nul_notMem := by rcases hpath with rfl | rfl <;> decide
  threeTokens := by rcases hpath with rfl | rfl <;> decide
  ends := List.suffix_append _ _
  once t ht := getText_once hpath t ((List.mem_inits _ _).mpr ht)

/-- `GET /a` and `GET /b`, sent one behind the other and received at once. -/
def pipelined : Segmentation [getHead 97 (by decide), getHead 98 (by decide)] where
  packets := [streamOf [getHead 97 (by decide), getHead 98 (by decide)]]
  flatten_eq := List.append_nil _

/-- **The second request is lost.** -/
theorem feed_pipelined :
    (feed [] pipelined.packets).map Prod.fst ≠
      .ok ([getHead 97 (by decide), getHead 98 (by decide)].map RequestHead.request) := by
  decide

end YServer
