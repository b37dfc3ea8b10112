import YServer.BaseNet.HttpParser
import YServer.Machinery.Runs

/-!
# BaseNet/HttpPackets — the parser fed with anything

    packet ──▸ rawHttpRequest ++ packet ──up to NUL──▸ ends in CRLFCRLF? ──▸ request line ──▸ answer

A client chooses the bytes and the network the packets.  Two conditions on what has been received
say what the parser makes of any of them: it stays inside its lists as long as every text it reads
has two spaces in its first line (`forall_inRange_iff`), and it answers when it should as long as
the part before a NUL ends like the whole (`forall_decided_iff`).  Where both hold, the cut of a
head into packets does not matter (`run_fragments`).
-/

namespace YServer

open Machinery

/-! ## A parser and its packets -/

/-- An `http_parser`, with the packets it was fed and what it answered to each. -/
structure FedParser where
  rawHttpRequest : Bytes
  answers : List (Bytes × Option HttpRequest)
  fault : Option Fault
  deriving DecidableEq, Repr

namespace FedParser

/-- One call of `parse_packet`; after a fault there is no other. -/
def feed (parser : FedParser) (packet : Bytes) : Option FedParser :=
  if parser.fault.isSome then none
  else
    match parsePacket parser.rawHttpRequest packet with
    | .ok (answer, raw) =>
      some { rawHttpRequest := raw, answers := parser.answers ++ [(packet, answer)], fault := none }
    | .error fault => some { parser with fault := some fault }

end FedParser

/-- A fresh parser and any packets. -/
def parserSystem : System FedParser Bytes where
  init := { rawHttpRequest := [], answers := [], fault := none }
  step := FedParser.feed

/-- What stands before the first CRLF. -/
def firstLine (text : Bytes) : Bytes := (pieces crlf text).headD []

/-- The bytes received since the last request was returned. -/
def sinceRequest (answers : List (Bytes × Option HttpRequest)) : Bytes :=
  answers.foldl (fun bytes answer => if answer.2.isSome then [] else bytes ++ answer.1) []

@[simp] theorem sinceRequest_nil : sinceRequest [] = [] := rfl

theorem sinceRequest_concat (answers : List (Bytes × Option HttpRequest)) (packet : Bytes)
    (answer : Option HttpRequest) : sinceRequest (answers ++ [(packet, answer)])
      = if answer.isSome then [] else sinceRequest answers ++ packet := by
  rw [sinceRequest, List.foldl_append]
  rfl

/-! ## The request line -/

/-- The request of a text, token by token. -/
theorem requestOf_eq_some_iff {text : Bytes} {request : HttpRequest} :
    requestOf text = some request ↔
      (∃ rest, pieces [sp] (firstLine text)
        = request.method :: request.url :: request.version :: rest) ∧
      request.headerList = (pieces crlf text).tail.filterMap headerOf := by
  obtain ⟨method, url, version, headerList⟩ := request
  simp only [requestOf, firstLine]
  rcases pieces [sp] ((pieces crlf text).headD []) with _ | ⟨a, _ | ⟨b, _ | ⟨c, rest⟩⟩⟩
  · simp
  · simp
  · simp
  · simp [eq_comm, and_assoc]

/-- A text has a request exactly if its first line has three tokens at least. -/
theorem requestOf_isSome_iff (text : Bytes) :
    (requestOf text).isSome ↔ 2 ≤ (firstLine text).count sp := by
  have hlen := length_pieces_singleton sp (firstLine text)
  rw [Option.isSome_iff_exists]
  constructor
  · rintro ⟨request, hrequest⟩
    obtain ⟨⟨rest, hpieces⟩, -⟩ := requestOf_eq_some_iff.mp hrequest
    rw [hpieces] at hlen
    simp only [List.length_cons] at hlen
    omega
  · intro hcount
    rcases hpieces : pieces [sp] (firstLine text)
      with _ | ⟨method, _ | ⟨url, _ | ⟨version, rest⟩⟩⟩ <;> rw [hpieces] at hlen
    · cases hlen
    · simp only [List.length_cons, List.length_nil] at hlen
      omega
    · simp only [List.length_cons, List.length_nil] at hlen
      omega
    · exact ⟨⟨method, url, version, _⟩, requestOf_eq_some_iff.mpr ⟨⟨rest, hpieces⟩, rfl⟩⟩

/-- **`parse_packet` on a complete text.** -/
theorem parsePacket_of_complete (raw packet : Bytes) {request : HttpRequest}
    (hends : crlfcrlf <:+ cStringView (raw ++ packet))
    (hrequest : requestOf (cStringView (raw ++ packet)) = some request) :
    parsePacket raw packet = .ok (some request, []) := by
  rw [parsePacket_eq, if_pos hends, hrequest]

theorem parsePacket_of_incomplete (raw packet : Bytes)
    (hends : ¬ crlfcrlf <:+ cStringView (raw ++ packet)) :
    parsePacket raw packet = .ok (none, raw ++ packet) := by
  rw [parsePacket_eq, if_neg hends]

namespace FedParser

variable {parser parser' : FedParser} {packet : Bytes}

/-- **What a call can do**: keep the packet, return a request, or read behind the request line's
tokens. -/
theorem feed_cases (h : parser.feed packet = some parser') : parser.fault = none ∧
    ((¬ crlfcrlf <:+ cStringView (parser.rawHttpRequest ++ packet) ∧
        parser' = ⟨parser.rawHttpRequest ++ packet, parser.answers ++ [(packet, none)], none⟩) ∨
      (∃ request, crlfcrlf <:+ cStringView (parser.rawHttpRequest ++ packet) ∧
        requestOf (cStringView (parser.rawHttpRequest ++ packet)) = some request ∧
        parser' = ⟨[], parser.answers ++ [(packet, some request)], none⟩) ∨
      (crlfcrlf <:+ cStringView (parser.rawHttpRequest ++ packet) ∧
        requestOf (cStringView (parser.rawHttpRequest ++ packet)) = none ∧
        parser' = { parser with fault := some .outOfRange })) := by
  rw [feed] at h
  split at h
  · cases h
  next hfault =>
    refine ⟨Option.not_isSome_iff_eq_none.mp hfault, ?_⟩
    rw [parsePacket_eq] at h
    by_cases hends : crlfcrlf <:+ cStringView (parser.rawHttpRequest ++ packet)
    · refine Or.inr ?_
      cases hrequest : requestOf (cStringView (parser.rawHttpRequest ++ packet)) with
      | some request =>
        simp only [if_pos hends, hrequest, Option.some.injEq] at h
        exact Or.inl ⟨request, hends, rfl, h.symm⟩
      | none =>
        simp only [if_pos hends, hrequest, Option.some.injEq] at h
        exact Or.inr ⟨hends, rfl, h.symm⟩
    · simp only [if_neg hends, Option.some.injEq] at h
      exact Or.inl ⟨hends, h.symm⟩

end FedParser

/-! ## Inside the lists -/

/-- The condition on one packet: if the parser takes what it has for a complete text, there are two
spaces in the first line. -/
def FedParser.HasTokens (parser : FedParser) (packet : Bytes) : Prop :=
  crlfcrlf <:+ cStringView (parser.rawHttpRequest ++ packet) →
    2 ≤ (firstLine (cStringView (parser.rawHttpRequest ++ packet))).count sp

/-- **Every access to a list stays inside it exactly when every text the parser takes for complete
has two spaces in its first line** — whatever the packets. -/
theorem forall_inRange_iff (packets : List Bytes) :
    (∀ parser ∈ parserSystem.visited packets, parser.fault ≠ some .outOfRange) ↔
      ∀ m ∈ parserSystem.moves packets, m.src.HasTokens m.act := by
  refine System.forall_visited_iff_moves (fun parser : FedParser => parser.fault = none) rfl
    (fun parser h => by simp [h]) ?_ ?_ packets
  · intro parser packet parser' _ hst htokens
    obtain ⟨-, ⟨-, rfl⟩ | ⟨request, -, -, rfl⟩ | ⟨hends, hrequest, -⟩⟩ := FedParser.feed_cases hst
    · rfl
    · rfl
    · have hsome := (requestOf_isSome_iff _).mpr (htokens hends)
      rw [hrequest] at hsome
      cases hsome
  · intro parser packet parser' _ hst hmiss
    obtain ⟨hends, hfew⟩ := Classical.not_imp.mp hmiss
    obtain ⟨-, ⟨hopen, -⟩ | ⟨request, -, hrequest, -⟩ | ⟨-, -, rfl⟩⟩ := FedParser.feed_cases hst
    · exact absurd hends hopen
    · exact absurd ((requestOf_isSome_iff _).mp (hrequest ▸ rfl)) hfew
    · exact not_not_intro rfl

/-- **A lone empty line is read for a request line.** -/
theorem not_inRange_emptyLine :
    ¬ ∀ parser ∈ parserSystem.visited [crlfcrlf], parser.fault ≠ some .outOfRange := by
  decide

/-! ## Every byte counts -/

/-- If the bytes received have a whole first line, it has three tokens. -/
def FedParser.ThreeTokens (parser : FedParser) (packet : Bytes) : Prop :=
  crlf <:+: sinceRequest parser.answers ++ packet →
    (pieces [sp] (firstLine (sinceRequest parser.answers ++ packet))).length = 3

instance (parser : FedParser) (packet : Bytes) : Decidable (parser.ThreeTokens packet) :=
  inferInstanceAs (Decidable (_ → _))

/-- **The last answer is a request exactly if all the bytes received for it end in an empty line**,
and the parser has kept all the bytes it has not answered. -/
structure FedParser.Decided (parser : FedParser) : Prop where
  answered : ∀ before packet answer, parser.answers = before ++ [(packet, answer)] →
    (answer.isSome ↔ crlfcrlf <:+ sinceRequest before ++ packet)
  kept : parser.rawHttpRequest = sinceRequest parser.answers

/-- The condition on one packet: what stands before the first NUL ends in an empty line if and only
if the whole does. -/
def FedParser.EndsAlike (parser : FedParser) (packet : Bytes) : Prop :=
  nul ∈ sinceRequest parser.answers ++ packet →
    (crlfcrlf <:+ (sinceRequest parser.answers ++ packet).takeWhile (· ≠ nul) ↔
      crlfcrlf <:+ sinceRequest parser.answers ++ packet)

theorem cStringView_isPrefix (string : Bytes) : cStringView string <+: string :=
  List.takeWhile_prefix _

/-- A text that ends in an empty line has its first line before the first NUL. -/
theorem firstLine_cStringView {text : Bytes} (hends : crlfcrlf <:+ cStringView text) :
    firstLine (cStringView text) = firstLine text := by
  obtain ⟨rest, hrest⟩ := cStringView_isPrefix text
  obtain ⟨t, ht⟩ := hends
  have hinfix : crlf <:+: cStringView text :=
    ⟨t ++ crlf, [], by rw [← ht, List.append_nil, List.append_assoc]; rfl⟩
  have hhead := head?_pieces_append crlf_ne_nil hinfix rest
  rw [hrest] at hhead
  rw [firstLine, firstLine, List.headD_eq_head?_getD, List.headD_eq_head?_getD, hhead]

theorem crlf_infix_of_ends {text : Bytes} (hends : crlfcrlf <:+ cStringView text) :
    crlf <:+: text := by
  obtain ⟨t, ht⟩ := hends
  refine List.IsInfix.trans ⟨t ++ crlf, [], ?_⟩ (cStringView_isPrefix text).isInfix
  rw [← ht, List.append_nil, List.append_assoc]
  rfl

/-- What `EndsAlike` says of the text the parser sees. -/
theorem FedParser.endsAlike_iff {parser : FedParser} {packet : Bytes} :
    parser.EndsAlike packet ↔
      (crlfcrlf <:+ cStringView (sinceRequest parser.answers ++ packet) ↔
        crlfcrlf <:+ sinceRequest parser.answers ++ packet) := by
  have hview : (sinceRequest parser.answers ++ packet).takeWhile (· ≠ nul)
      = cStringView (sinceRequest parser.answers ++ packet) :=
    congrArg (List.takeWhile · _) (funext fun c => decide_not)
  rw [EndsAlike, hview]
  refine ⟨fun h => ?_, fun h _ => h⟩
  by_cases hnul : nul ∈ sinceRequest parser.answers ++ packet
  · exact h hnul
  · rw [cStringView_of_notMem hnul]

/-- **One packet**: whether the parser returns a request hangs on the part before the first NUL. -/
theorem FedParser.answered_cases {parser parser' : FedParser} {packet : Bytes}
    (hkept : parser.rawHttpRequest = sinceRequest parser.answers)
    (hthree : parser.ThreeTokens packet) (hst : parser.feed packet = some parser') :
    ∃ answer, parser'.answers = parser.answers ++ [(packet, answer)] ∧
      parser'.rawHttpRequest = sinceRequest parser'.answers ∧
      (answer.isSome ↔ crlfcrlf <:+ cStringView (sinceRequest parser.answers ++ packet)) := by
  obtain ⟨-, ⟨hopen, rfl⟩ | ⟨request, hends, -, rfl⟩ | ⟨hends, hrequest, -⟩⟩ :=
    FedParser.feed_cases hst
  · rw [hkept] at hopen
    refine ⟨none, rfl, ?_, iff_of_false nofun hopen⟩
    rw [sinceRequest_concat, hkept]
    rfl
  · rw [hkept] at hends
    refine ⟨some request, rfl, ?_, iff_of_true rfl hends⟩
    rw [sinceRequest_concat]
    rfl
  · rw [hkept] at hends hrequest
    have hlen := hthree (crlf_infix_of_ends hends)
    have hsome := (requestOf_isSome_iff (cStringView (sinceRequest parser.answers ++ packet))).mpr
    rw [firstLine_cStringView hends, hrequest] at hsome
    rw [length_pieces_singleton] at hlen
    cases hsome (by omega)

/-- **Every answer is right exactly when the part before the first NUL always ends like the whole**
— for packets of any bytes, as long as first lines have three tokens. -/
theorem forall_decided_iff (packets : List Bytes) :
    (∀ parser ∈ (parserSystem.guard FedParser.ThreeTokens).visited packets, parser.Decided) ↔
      ∀ m ∈ (parserSystem.guard FedParser.ThreeTokens).moves packets, m.src.EndsAlike m.act := by
  refine System.forall_visited_iff_moves FedParser.Decided ⟨?_, rfl⟩ (fun _ h => h) ?_ ?_ packets
  · intro before packet answer h
    exact absurd (congrArg List.length h) (by simp [System.guard, parserSystem])
  · intro parser packet parser' hdecided hst halike
    obtain ⟨hthree, hfeed⟩ := (System.step_guard_eq_some _).mp hst
    obtain ⟨answer, hanswers, hkept, hiff⟩ :=
      FedParser.answered_cases hdecided.kept hthree hfeed
    refine ⟨fun before packet' answer' h => ?_, hkept⟩
    obtain ⟨rfl, hlast⟩ := List.append_inj' (hanswers.symm.trans h) rfl
    obtain ⟨rfl, rfl⟩ := Prod.mk.inj (List.cons.inj hlast).1
    exact hiff.trans (FedParser.endsAlike_iff.mp halike)
  · intro parser packet parser' hdecided hst hmiss hdecided'
    obtain ⟨hthree, hfeed⟩ := (System.step_guard_eq_some _).mp hst
    obtain ⟨answer, hanswers, -, hiff⟩ := FedParser.answered_cases hdecided.kept hthree hfeed
    exact hmiss (FedParser.endsAlike_iff.mpr
      (hiff.symm.trans (hdecided'.answered _ _ _ hanswers)))

/-- A whole head, with a NUL in a header. -/
def nulHead : Bytes := ascii "GET / HTTP/1.1\r\nA: " ++ nul :: crlfcrlf

/-- **It is never answered.** -/
theorem not_decided_nulHead :
    ¬ ∀ parser ∈ (parserSystem.guard FedParser.ThreeTokens).visited [nulHead], parser.Decided := by
  intro h
  have hrun : (parserSystem.guard FedParser.ThreeTokens).run [nulHead]
      = some ⟨nulHead, [(nulHead, none)], none⟩ := by decide
  have hdecided := h _ (System.mem_visited_of_run _ hrun)
  have hends : crlfcrlf <:+ sinceRequest [] ++ nulHead := by decide
  cases (hdecided.answered [] nulHead none rfl).mpr hends

/-! ## The whole request line -/

/-- **A request accounts for its whole request line exactly if that has two spaces**: with more of
them the tokens behind the third are dropped. -/
theorem requestLine_eq_iff {raw packet raw' : Bytes} {request : HttpRequest}
    (hnul : nul ∉ raw ++ packet) (hparse : parsePacket raw packet = .ok (some request, raw')) :
    request.method ++ [sp] ++ request.url ++ [sp] ++ request.version = firstLine (raw ++ packet) ↔
      (firstLine (raw ++ packet)).count sp = 2 := by
  have hrequest : requestOf (raw ++ packet) = some request := by
    rw [parsePacket_eq, cStringView_of_notMem hnul] at hparse
    split at hparse
    · split at hparse
      · next request' hrequest =>
        rw [hrequest, (Prod.mk.inj (Except.ok.inj hparse)).1]
      · cases hparse
    · cases hparse
  obtain ⟨⟨rest, hpieces⟩, -⟩ := requestOf_eq_some_iff.mp hrequest
  have hlen := length_pieces_singleton sp (firstLine (raw ++ packet))
  have hline := intercalate_pieces (List.cons_ne_nil sp []) (firstLine (raw ++ packet))
  rw [hpieces] at hlen
  rw [hpieces, List.intercalate_cons_cons, List.intercalate_cons_cons] at hline
  simp only [List.append_assoc] at hline ⊢
  rw [← hline, List.append_cancel_left_eq, List.append_cancel_left_eq, List.append_cancel_left_eq,
    List.append_cancel_left_eq, hline]
  cases rest with
  | nil => exact iff_of_true List.intercalate_singleton.symm (by simpa using hlen.symm)
  | cons token rest =>
    rw [List.intercalate_cons_cons]
    refine iff_of_false (fun h => ?_) (fun h => ?_)
    · have := congrArg List.length h
      simp only [List.length_append, List.length_singleton] at this
      omega
    · simp only [List.length_cons] at hlen
      omega

/-- A request line and no headers. -/
def lineHead (line : String) : Bytes := ascii line ++ crlfcrlf

theorem requestLine_eq_iff_threeTokens :
    ascii "GET" ++ [sp] ++ ascii "/" ++ [sp] ++ ascii "HTTP/1.1"
        = firstLine ([] ++ lineHead "GET / HTTP/1.1") ↔
      (firstLine ([] ++ lineHead "GET / HTTP/1.1")).count sp = 2 :=
  @requestLine_eq_iff [] (lineHead "GET / HTTP/1.1") []
    ⟨ascii "GET", ascii "/", ascii "HTTP/1.1", []⟩ (by decide) (by decide)

/-- **The version is dropped**, and a part of the path is read for it. -/
theorem requestLine_ne_fourTokens : ∃ request : HttpRequest,
    parsePacket [] (lineHead "GET /a b HTTP/1.1") = .ok (some request, []) ∧
      request.method ++ [sp] ++ request.url ++ [sp] ++ request.version
        ≠ firstLine ([] ++ lineHead "GET /a b HTTP/1.1") :=
  ⟨⟨ascii "GET", ascii "/a", ascii "b", []⟩, by decide, by decide⟩

/-! ## Cuts inside a head -/

/-- A head of any content: its first line has two spaces at least, and an empty line ends it. -/
structure LooseHead where
  text : Bytes
  nul_notMem : nul ∉ text
  twoSpaces : 2 ≤ (firstLine text).count sp
  ends : crlfcrlf <:+ text
  /-- The empty line occurs only at the end. -/
  once : ∀ t, t <+: text → crlfcrlf <:+ t → t = text

namespace LooseHead

variable (head : LooseHead)

theorem text_ne_nil : head.text ≠ [] := fun h =>
  absurd (h ▸ head.ends).length_le (by decide)

theorem requestOf_isSome : (requestOf head.text).isSome :=
  (requestOf_isSome_iff _).mpr head.twoSpaces

/-- The request of a head. -/
def request : HttpRequest := (requestOf head.text).get head.requestOf_isSome

theorem requestOf_text : requestOf head.text = some head.request :=
  (Option.some_get head.requestOf_isSome).symm

/-- It is what `parse_packet` makes of the head as a single packet. -/
theorem parsePacket_text : parsePacket [] head.text = .ok (some head.request, []) := by
  rw [parsePacket_eq, List.nil_append, cStringView_of_notMem head.nul_notMem, if_pos head.ends,
    head.requestOf_text]

variable {head} {parser : FedParser} {packet : Bytes}

/-- **A packet that does not complete the head is kept.** -/
theorem feed_of_lt (hfault : parser.fault = none) {rest : Bytes}
    (hcut : parser.rawHttpRequest ++ packet ++ rest = head.text)
    (hne : parser.rawHttpRequest ++ packet ≠ head.text) :
    parserSystem.step parser packet
      = some ⟨parser.rawHttpRequest ++ packet, parser.answers ++ [(packet, none)], none⟩ := by
  have hpart : parser.rawHttpRequest ++ packet <+: head.text := ⟨rest, hcut⟩
  have hview := cStringView_of_notMem fun h => head.nul_notMem (hpart.subset h)
  have hparse := parsePacket_of_incomplete parser.rawHttpRequest packet
    fun hends => hne (head.once _ hpart (hview ▸ hends))
  change parser.feed packet = _
  rw [FedParser.feed, hfault, hparse]
  rfl

/-- **The packet that completes it returns its request.** -/
theorem feed_of_eq (hfault : parser.fault = none)
    (hcut : parser.rawHttpRequest ++ packet = head.text) :
    parserSystem.step parser packet
      = some ⟨[], parser.answers ++ [(packet, some head.request)], none⟩ := by
  have hview := cStringView_of_notMem (hcut ▸ head.nul_notMem)
  have hends : crlfcrlf <:+ cStringView (parser.rawHttpRequest ++ packet) := by
    rw [hview, hcut]
    exact head.ends
  have hrequest : requestOf (cStringView (parser.rawHttpRequest ++ packet))
      = some head.request := by
    rw [hview, hcut, head.requestOf_text]
  have hparse := parsePacket_of_complete parser.rawHttpRequest packet hends hrequest
  change parser.feed packet = _
  rw [FedParser.feed, hfault, hparse]
  rfl

end LooseHead

/-- An empty packet is kept by an empty parser. -/
theorem runFrom_empty {packets : List Bytes} (hempty : packets.flatten = []) :
    ∀ {parser : FedParser}, parser.fault = none → parser.rawHttpRequest = [] →
      parserSystem.runFrom parser packets
        = some ⟨[], parser.answers ++ packets.map fun packet => (packet, none), none⟩ := by
  induction packets with
  | nil =>
    intro parser hfault hraw
    obtain ⟨raw, answers, fault⟩ := parser
    obtain ⟨rfl, rfl⟩ : fault = none ∧ raw = [] := ⟨hfault, hraw⟩
    simp
  | cons packet packets ih =>
    intro parser hfault hraw
    obtain ⟨rfl, hempty⟩ := List.append_eq_nil_iff.mp (List.flatten_cons ▸ hempty)
    have hparse := parsePacket_of_incomplete [] [] (by decide)
    have hstep : parserSystem.step parser [] = some ⟨[], parser.answers ++ [([], none)], none⟩ := by
      change parser.feed [] = _
      rw [FedParser.feed, hfault, hraw, hparse]
      rfl
    rw [System.runFrom_cons, hstep, Option.bind_some, ih hempty rfl rfl, List.append_assoc]
    rfl

/-- **The run of a head that is cut into packets** — by induction on the packets up to the one that
completes it. -/
theorem runFrom_fragments (head : LooseHead) {packets : List Bytes} :
    ∀ {parser : FedParser}, parser.fault = none →
      parser.rawHttpRequest ++ packets.flatten = head.text → parser.rawHttpRequest ≠ head.text →
      ∃ before packet after, packets = before ++ packet :: after ∧
        parser.rawHttpRequest ++ before.flatten ≠ head.text ∧
        parser.rawHttpRequest ++ (before ++ [packet]).flatten = head.text ∧
        parserSystem.runFrom parser packets = some ⟨[], parser.answers ++
          (before.map fun packet => (packet, none)) ++ (packet, some head.request) ::
            after.map fun packet => (packet, none), none⟩ := by
  induction packets with
  | nil =>
    intro parser _ hcut hne
    exact absurd (by simpa using hcut) hne
  | cons packet packets ih =>
    intro parser hfault hcut hne
    rw [List.flatten_cons, ← List.append_assoc] at hcut
    by_cases hdone : parser.rawHttpRequest ++ packet = head.text
    · have hempty : packets.flatten = [] := by
        rw [hdone] at hcut
        exact List.append_right_eq_self.mp hcut
      refine ⟨[], packet, packets, rfl, by simpa using hne, by simpa using hdone, ?_⟩
      rw [System.runFrom_cons, LooseHead.feed_of_eq hfault hdone, Option.bind_some,
        runFrom_empty hempty rfl rfl]
      simp
    · have hstep := LooseHead.feed_of_lt hfault hcut hdone
      obtain ⟨before, last, after, rfl, hbefore, hlast, hrun⟩ :=
        @ih ⟨_, parser.answers ++ [(packet, none)], none⟩ rfl hcut hdone
      refine ⟨packet :: before, last, after, rfl, ?_, ?_, ?_⟩
      · rw [List.flatten_cons, ← List.append_assoc]
        exact hbefore
      · rw [List.cons_append, List.flatten_cons, ← List.append_assoc]
        exact hlast
      · rw [System.runFrom_cons, hstep, Option.bind_some, hrun]
        simp

/-- **How a head is cut into packets does not matter**: nothing is returned before the packet that
completes it, then the request of the head as a single packet, and the parser is empty again. -/
theorem run_fragments (head : LooseHead) {packets : List Bytes} (hcut : packets.flatten = head.text)
    {parser : FedParser} (hfault : parser.fault = none) (hempty : parser.rawHttpRequest = []) :
    ∃ before packet after, packets = before ++ packet :: after ∧ before.flatten ≠ head.text ∧
      (before ++ [packet]).flatten = head.text ∧
      ∃ request, parsePacket [] head.text = .ok (some request, []) ∧
        parserSystem.runFrom parser packets = some ⟨[], parser.answers ++
          (before.map fun packet => (packet, none)) ++ (packet, some request) ::
            after.map fun packet => (packet, none), none⟩ := by
  obtain ⟨before, packet, after, hpackets, hbefore, hlast, hrun⟩ :=
    runFrom_fragments head hfault (by rw [hempty]; exact hcut)
      (by rw [hempty]; exact head.text_ne_nil.symm)
  rw [hempty, List.nil_append] at hbefore hlast
  exact ⟨before, packet, after, hpackets, hbefore, hlast, head.request, head.parsePacket_text, hrun⟩

/-- A `GET` with a line that is no header… -/
def oddText : Bytes := ascii "GET / HTTP/1.1\r\nodd" ++ crlfcrlf

theorem oddText_once : ∀ t ∈ oddText.inits, crlfcrlf <:+ t → t = oddText := by decide +kernel

def oddHead : LooseHead where
  text := oddText
  nul_notMem := by decide
  twoSpaces := by decide
  ends := List.suffix_append _ _
  once t ht := oddText_once t ((List.mem_inits _ _).mpr ht)

/-- …comes in four packets, one of them empty, and the empty line is cut twice. -/
theorem run_fragments_oddHead : ∃ before packet after,
    [ascii "GET / HTTP/1.1\r\nodd\r", [], ascii "\n\r", [lf]] = before ++ packet :: after ∧
      before.flatten ≠ oddHead.text ∧ (before ++ [packet]).flatten = oddHead.text ∧
      ∃ request, parsePacket [] oddHead.text = .ok (some request, []) ∧
        parserSystem.runFrom parserSystem.init
            [ascii "GET / HTTP/1.1\r\nodd\r", [], ascii "\n\r", [lf]]
          = some ⟨[], [] ++ (before.map fun packet => (packet, none)) ++ (packet, some request) ::
            after.map fun packet => (packet, none), none⟩ :=
  run_fragments oddHead rfl rfl rfl

end YServer
