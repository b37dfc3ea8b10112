import YServer.BaseNet.HttpMessage
import YServer.Machinery.Runs
import Mathlib.Data.List.Forall2

/-!
# WebFrame/Context — what a handler sends

A handler answers through its `Context`: `String` and `HTML` set the status and the content type on
the shared response and send it, headers and all.

    setHeader … setHeader   String   setHeader …   String
      user headers        + CT + CL                + CT + CL      ⟵ all of them, every time

Headers are only ever appended, so a second reply repeats those of the first.  A reply is well
framed exactly when every line of the headers set before it is a header of another name
(`wellFramed_reply_iff`), hence over a whole handler exactly when it is the only one and the
handler's own headers are such lines.
-/

namespace YServer

open Machinery

/-- A body handed to a context, as it reached `client_socket::send`. -/
structure Reply where
  contentType : Bytes
  body : Bytes
  message : Bytes
  deriving DecidableEq, Repr

/-- `Context`.  `Status_code_` has no value until `Status` gives it one; `sent` is what the calls
on the context have handed to `client_socket::send`, in order. -/
structure Context where
  request : HttpRequest
  response : HttpResponse
  method : Bytes
  path : Bytes
  statusCode : Option ℤ
  sent : List Reply
  deriving DecidableEq, Repr

/-- One of the calls a handler makes on its context. -/
inductive ContextCall
  | status (code : ℤ)
  | setHeader (key value : Bytes)
  | string (code : ℤ) (body : Bytes)
  | html (code : ℤ) (body : Bytes)
  deriving DecidableEq, Repr

namespace Context

/-- `Context::New`. -/
def new (request : HttpRequest) (response : HttpResponse) : Context where
  request := request
  response := response
  method := request.method
  path := request.url
  statusCode := none
  sent := []

def status (ctx : Context) (code : ℤ) : Context :=
  { ctx with statusCode := some code, response := ctx.response.setStatus code }

def setHeader (ctx : Context) (key value : Bytes) : Context :=
  { ctx with response := ctx.response.setHeader key value }

/-- `Response_->send`. -/
def send (ctx : Context) (contentType body : Bytes) : Context :=
  { ctx with
    response := (ctx.response.send body).1
    sent := ctx.sent ++ [⟨contentType, body, (ctx.response.send body).2⟩] }

/-- What `String` and `HTML` have in common; formatted or not, it is the body they send. -/
def reply (ctx : Context) (contentType : Bytes) (code : ℤ) (body : Bytes) : Context :=
  ((ctx.status code).setHeader (ascii "Content-Type") contentType).send contentType body

def string (ctx : Context) (code : ℤ) (body : Bytes) : Context :=
  ctx.reply (ascii "text/plain") code body

def html (ctx : Context) (code : ℤ) (body : Bytes) : Context :=
  ctx.reply (ascii "text/html") code body

/-- What one call does. -/
def call (ctx : Context) : ContextCall → Context
  | .status code => ctx.status code
  | .setHeader key value => ctx.setHeader key value
  | .string code body => ctx.string code body
  | .html code body => ctx.html code body

end Context

/-- A handler at work on the context of a request. -/
def contextSystem (request : HttpRequest) : System Context ContextCall where
  init := Context.new request HttpResponse.new
  step ctx c := some (ctx.call c)

/-! ## Well-framed messages -/

/-- The values of the headers of a name, whatever the case of its letters. -/
def valuesOf (name : Bytes) (headerList : List (Bytes × Bytes)) : List Bytes :=
  (headerList.filter fun header => header.1.map tolower = name.map tolower).map Prod.snd

/-- **A well-framed message**: a client reads one content length, that of the body, and one content
type, that of the call. -/
def Reply.WellFramed (reply : Reply) : Prop :=
  ∃ m ∈ readMessage reply.message, m.2 = reply.body ∧
    valuesOf (ascii "Content-Length") m.1.headerList = [decimal reply.body.length] ∧
    valuesOf (ascii "Content-Type") m.1.headerList = [reply.contentType]

instance (reply : Reply) : Decidable reply.WellFramed :=
  inferInstanceAs (Decidable (∃ m ∈ readMessage reply.message, _))

/-- The lines a client sees in headers, which may be more than there are headers. -/
def linesOf (headerList : List (Bytes × Bytes)) : List Bytes :=
  headerList.flatMap fun header => pieces crlf (headerText header)

/-- A line that is a header of another name than the two that frame a message. -/
def PlainLine (line : Bytes) : Prop :=
  ∃ header ∈ cut [colon] line, header.1.map tolower ≠ (ascii "Content-Length").map tolower ∧
    header.1.map tolower ≠ (ascii "Content-Type").map tolower

/-- The condition on one call: a reply is the first, and the handler's headers are plain lines. -/
def Context.Framing (ctx : Context) : ContextCall → Prop
  | .string _ _ | .html _ _ =>
    ctx.sent = [] ∧ ∀ line ∈ linesOf ctx.response.headerList, PlainLine line
  | .status _ | .setHeader _ _ => True

/-! ## Reading lines that were written -/

variable {headerList : List (Bytes × Bytes)} {body : Bytes}

/-- The headers are written as their lines. -/
theorem headerLines_eq_flatten (headerList : List (Bytes × Bytes)) :
    headerLines headerList = ((linesOf headerList).map (· ++ crlf)).flatten := by
  induction headerList with
  | nil => rfl
  | cons header headerList ih =>
    rw [headerLines_cons, ih, ← flatten_pieces crlf_ne_nil, ← List.flatten_append,
      ← List.map_append]
    rfl

theorem crlf_not_infix_of_mem_linesOf {line : Bytes} (h : line ∈ linesOf headerList) :
    ¬ crlf <:+: line := by
  obtain ⟨header, -, hline⟩ := List.mem_flatMap.mp h
  exact not_infix_of_mem_pieces crlf_ne_nil line hline

/-- **Lines are read back one by one**, and the body is what stands behind them exactly if none is
empty — by induction on the lines. -/
theorem readHeaders_lines_iff {lines : List Bytes} (hlines : ∀ line ∈ lines, ¬ crlf <:+: line)
    {headers : List (Bytes × Bytes)} :
    readHeaders ((lines.map (· ++ crlf)).flatten ++ (crlf ++ body)) = some (headers, body)
      ↔ List.Forall₂ (fun line header => cut [colon] line = some header) lines headers := by
  induction lines generalizing headers with
  | nil =>
    rw [List.map_nil, List.flatten_nil, List.nil_append,
      readHeaders_of_cut (cut_delimiter_append crlf body), if_pos rfl, List.forall₂_nil_left_iff]
    simp [eq_comm]
  | cons line lines ih =>
    obtain ⟨hline, hlines⟩ := List.forall_mem_cons.mp hlines
    rw [List.map_cons, List.flatten_cons, List.append_assoc,
      readHeaders_of_cut (cut_crlf_append_iff.mpr hline)]
    by_cases hempty : line = []
    · -- what is read as the body is longer than the body
      subst hempty
      rw [if_pos rfl]
      constructor
      · intro h
        have hlength := congrArg List.length (Prod.mk.inj (Option.some.inj h)).2
        rw [List.length_append, List.length_append] at hlength
        have : crlf.length = 2 := rfl
        omega
      · intro h
        obtain ⟨header, headers, hcut, -, -⟩ := List.forall₂_cons_left_iff.mp h
        simp [cut] at hcut
    · rw [if_neg hempty, Option.bind_eq_some_iff, List.forall₂_cons_left_iff]
      constructor
      · rintro ⟨header, hcut, hmap⟩
        obtain ⟨⟨headers', body'⟩, hread, heq⟩ := Option.map_eq_some_iff.mp hmap
        obtain ⟨rfl, rfl⟩ := Prod.mk.inj heq
        exact ⟨header, headers', hcut, (ih hlines).mp hread, rfl⟩
      · rintro ⟨header, headers', hcut, hrest, rfl⟩
        exact ⟨header, hcut, Option.map_eq_some_iff.mpr ⟨_, (ih hlines).mpr hrest, rfl⟩⟩

/-! ## When a reply is well framed -/

@[simp] theorem linesOf_append (headerList headerList' : List (Bytes × Bytes)) :
    linesOf (headerList ++ headerList') = linesOf headerList ++ linesOf headerList' :=
  List.flatMap_append

/-- A header without a line break is one line. -/
theorem linesOf_singleton {header : Bytes × Bytes} (h : cr ∉ header.1 ∧ cr ∉ header.2) :
    linesOf [header] = [headerText header] := by
  rw [linesOf, List.flatMap_singleton]
  refine pieces_of_notMem ?_
  rw [headerText, List.mem_append, List.mem_append, List.mem_singleton, not_or, not_or]
  exact ⟨⟨h.1, by decide⟩, h.2⟩

theorem valuesOf_append (name : Bytes) (headerList headerList' : List (Bytes × Bytes)) :
    valuesOf name (headerList ++ headerList')
      = valuesOf name headerList ++ valuesOf name headerList' := by
  rw [valuesOf, List.filter_append, List.map_append]
  rfl

theorem valuesOf_eq_nil_iff {name : Bytes} : valuesOf name headerList = []
    ↔ ∀ header ∈ headerList, header.1.map tolower ≠ name.map tolower := by
  rw [valuesOf, List.map_eq_nil_iff, List.filter_eq_nil_iff]
  simp only [decide_eq_true_eq]

/-- Two lists related to one another are related part by part. -/
theorem forall₂_append_left_iff {α β : Type*} {R : α → β → Prop} {as as' : List α} {cs : List β} :
    List.Forall₂ R (as ++ as') cs
      ↔ ∃ bs bs', List.Forall₂ R as bs ∧ List.Forall₂ R as' bs' ∧ cs = bs ++ bs' := by
  induction as generalizing cs with
  | nil => simp [List.forall₂_nil_left_iff]
  | cons a as ih =>
    rw [List.cons_append, List.forall₂_cons_left_iff]
    constructor
    · rintro ⟨b, cs, hb, hcs, rfl⟩
      obtain ⟨bs, bs', hbs, hbs', rfl⟩ := ih.mp hcs
      exact ⟨b :: bs, bs', List.Forall₂.cons hb hbs, hbs', rfl⟩
    · rintro ⟨ds, bs', hds, hbs', rfl⟩
      obtain ⟨b, bs, hb, hbs, rfl⟩ := List.forall₂_cons_left_iff.mp hds
      exact ⟨b, bs ++ bs', hb, ih.mpr ⟨bs, bs', hbs, hbs', rfl⟩, rfl⟩

/-- What holds of everything a partial function makes of a list holds element by element. -/
theorem exists_forall₂_iff {α β : Type*} {f : α → Option β} {p : β → Prop} {as : List α} :
    (∃ bs, List.Forall₂ (fun a b => f a = some b) as bs ∧ ∀ b ∈ bs, p b)
      ↔ ∀ a ∈ as, ∃ b ∈ f a, p b := by
  induction as with
  | nil => simp [List.forall₂_nil_left_iff]
  | cons a as ih =>
    rw [List.forall_mem_cons, ← ih]
    constructor
    · rintro ⟨bs', hbs', hp⟩
      obtain ⟨b, bs, hb, hbs, rfl⟩ := List.forall₂_cons_left_iff.mp hbs'
      obtain ⟨hpb, hpbs⟩ := List.forall_mem_cons.mp hp
      exact ⟨⟨b, hb, hpb⟩, bs, hbs, hpbs⟩
    · rintro ⟨⟨b, hb, hpb⟩, bs, hbs, hpbs⟩
      exact ⟨b :: bs, List.Forall₂.cons hb hbs, List.forall_mem_cons.mpr ⟨hpb, hpbs⟩⟩

section Frame

variable (contentType body : Bytes)

/-- The headers a reply adds itself. -/
def frame : List (Bytes × Bytes) :=
  [(ascii "Content-Type", contentType), (ascii "Content-Length", decimal body.length)]

theorem linesOf_frame (htype : cr ∉ contentType) :
    linesOf (frame contentType body) = (frame contentType body).map headerText := by
  have hlength : cr ∉ decimal body.length := fun hc => (ne_of_mem_decimal hc).2 rfl
  have hsplit := linesOf_append [(ascii "Content-Type", contentType)]
    [(ascii "Content-Length", decimal body.length)]
  have hnames : cr ∉ ascii "Content-Type" ∧ cr ∉ ascii "Content-Length" := by decide
  rw [linesOf_singleton ⟨hnames.1, htype⟩, linesOf_singleton ⟨hnames.2, hlength⟩] at hsplit
  exact hsplit

/-- They are read as they were written… -/
theorem forall₂_frame_iff {headers : List (Bytes × Bytes)} :
    List.Forall₂ (fun line header => cut [colon] line = some header)
      ((frame contentType body).map headerText) headers ↔ headers = frame contentType body := by
  have hnames : colon ∉ ascii "Content-Type" ∧ colon ∉ ascii "Content-Length" := by decide
  have htype : cut [colon] (headerText (ascii "Content-Type", contentType))
      = some (ascii "Content-Type", contentType) := cut_append_iff_notMem.mpr hnames.1
  have hlength : cut [colon] (headerText (ascii "Content-Length", decimal body.length))
      = some (ascii "Content-Length", decimal body.length) := cut_append_iff_notMem.mpr hnames.2
  simp only [frame, List.map_cons, List.map_nil, List.forall₂_cons_left_iff, htype, hlength,
    List.forall₂_nil_left_iff, Option.some_inj]
  constructor
  · rintro ⟨_, _, rfl, ⟨_, _, rfl, rfl, rfl⟩, rfl⟩
    rfl
  · rintro rfl
    exact ⟨_, _, rfl, ⟨_, _, rfl, rfl, rfl⟩, rfl⟩

/-- …and frame the message, if no other header has either name. -/
theorem valuesOf_append_frame_iff {headers : List (Bytes × Bytes)} :
    valuesOf (ascii "Content-Length") (headers ++ frame contentType body) = [decimal body.length] ∧
      valuesOf (ascii "Content-Type") (headers ++ frame contentType body) = [contentType]
      ↔ ∀ header ∈ headers, header.1.map tolower ≠ (ascii "Content-Length").map tolower ∧
        header.1.map tolower ≠ (ascii "Content-Type").map tolower := by
  have hlength : valuesOf (ascii "Content-Length") (frame contentType body)
      = [decimal body.length] := rfl
  have htype : valuesOf (ascii "Content-Type") (frame contentType body) = [contentType] := rfl
  rw [valuesOf_append, valuesOf_append, hlength, htype, List.append_left_eq_self,
    List.append_left_eq_self, valuesOf_eq_nil_iff, valuesOf_eq_nil_iff]
  exact forall₂_and.symm

end Frame

/-- What a client reads of headers and the two a reply adds. -/
theorem readHeaders_frame_iff {contentType : Bytes} (htype : cr ∉ contentType) (body : Bytes)
    {headers : List (Bytes × Bytes)} :
    readHeaders (headerLines (headerList ++ frame contentType body) ++ (crlf ++ body))
        = some (headers, body)
      ↔ ∃ own, List.Forall₂ (fun line header => cut [colon] line = some header)
          (linesOf headerList) own ∧ headers = own ++ frame contentType body := by
  rw [headerLines_eq_flatten, readHeaders_lines_iff fun line => crlf_not_infix_of_mem_linesOf,
    linesOf_append, linesOf_frame _ _ htype, forall₂_append_left_iff]
  simp only [forall₂_frame_iff]
  constructor
  · rintro ⟨own, _, hown, rfl, rfl⟩
    exact ⟨own, hown, rfl⟩
  · rintro ⟨own, hown, rfl⟩
    exact ⟨own, _, hown, rfl, rfl⟩

/-- **A reply is well framed iff every header line set before it is plain** — what it adds itself is
one header of either name. -/
theorem wellFramed_reply_iff {r : HttpResponse} (hr : r.LineReadable) {contentType : Bytes}
    (htype : cr ∉ contentType) (body : Bytes) :
    Reply.WellFramed ⟨contentType, body,
        ((r.setHeader (ascii "Content-Type") contentType).send body).2⟩
      ↔ ∀ line ∈ linesOf r.headerList, PlainLine line := by
  let r' : HttpResponse := { r with headerList := r.headerList ++ frame contentType body }
  have hmessage : ((r.setHeader (ascii "Content-Type") contentType).send body).2
      = r'.serialize ++ body := by
    change HttpResponse.serialize { r with headerList := (_ ++ _) ++ _ } ++ body = _
    rw [List.append_assoc]
    rfl
  have hread := readMessage_append (r := r') ⟨hr.version, hr.status, hr.statusText⟩ body
  simp only [PlainLine]
  rw [← exists_forall₂_iff, Reply.WellFramed, hmessage, hread]
  constructor
  · rintro ⟨m, hm, hbody, hframed⟩
    obtain ⟨⟨headers, body'⟩, hheaders, rfl⟩ := Option.map_eq_some_iff.mp hm
    obtain rfl : body' = body := hbody
    obtain ⟨own, hown, rfl⟩ := (readHeaders_frame_iff htype _).mp hheaders
    exact ⟨own, hown, (valuesOf_append_frame_iff _ _).mp hframed⟩
  · rintro ⟨own, hown, hplain⟩
    refine ⟨_, Option.map_eq_some_iff.mpr
      ⟨_, (readHeaders_frame_iff htype body).mpr ⟨own, hown, rfl⟩, rfl⟩, rfl, ?_⟩
    exact (valuesOf_append_frame_iff _ _).mpr hplain

/-! ## Whole handlers -/

/-- **The contexts a handler leaves**: their status line is readable, what was sent is well framed,
and once something was sent a line that is not plain stays behind. -/
structure Context.Sound (ctx : Context) : Prop where
  line : ctx.response.LineReadable
  framed : ∀ reply ∈ ctx.sent, reply.WellFramed
  left : ctx.sent ≠ [] → ∃ line ∈ linesOf ctx.response.headerList, ¬ PlainLine line

namespace Context

variable {ctx : Context}

theorem Sound.status (h : ctx.Sound) (code : ℤ) : (ctx.status code).Sound :=
  ⟨⟨h.line.version, decimal_readable code, h.line.statusText⟩, h.framed, h.left⟩

theorem Sound.setHeader (h : ctx.Sound) (key value : Bytes) : (ctx.setHeader key value).Sound := by
  refine ⟨⟨h.line.version, h.line.status, h.line.statusText⟩, h.framed, fun hsent => ?_⟩
  obtain ⟨line, hline, hplain⟩ := h.left hsent
  refine ⟨line, ?_, hplain⟩
  change line ∈ linesOf (ctx.response.headerList ++ [(key, value)])
  rw [linesOf_append]
  exact List.mem_append_left _ hline

/-- The one message a reply adds. -/
theorem wellFramed_of_reply_iff (h : ctx.Sound) {contentType : Bytes} (htype : cr ∉ contentType)
    (code : ℤ) (body : Bytes) : (∀ reply ∈ (ctx.reply contentType code body).sent, reply.WellFramed)
      ↔ ctx.sent = [] ∧ ∀ line ∈ linesOf ctx.response.headerList, PlainLine line := by
  have hreply := wellFramed_reply_iff (h.status code).line htype body
  have hsent : (ctx.reply contentType code body).sent = ctx.sent ++ [⟨contentType, body,
      (((ctx.response.setStatus code).setHeader (ascii "Content-Type")
        contentType).send body).2⟩] := rfl
  rw [hsent, List.forall_mem_append, List.forall_mem_singleton]
  constructor
  · rintro ⟨-, hlast⟩
    have hplain := hreply.mp hlast
    refine ⟨by_contra fun hne => ?_, hplain⟩
    obtain ⟨line, hline, hnot⟩ := h.left hne
    exact hnot (hplain line hline)
  · rintro ⟨-, hplain⟩
    exact ⟨h.framed, hreply.mpr hplain⟩

theorem Sound.reply (h : ctx.Sound) {contentType : Bytes} (htype : cr ∉ contentType) (code : ℤ)
    (body : Bytes)
    (hframing : ctx.sent = [] ∧ ∀ line ∈ linesOf ctx.response.headerList, PlainLine line) :
    (ctx.reply contentType code body).Sound := by
  refine ⟨⟨h.line.version, decimal_readable code, h.line.statusText⟩,
    (wellFramed_of_reply_iff h htype code body).mpr hframing, fun _ => ?_⟩
  refine ⟨headerText (ascii "Content-Type", contentType), ?_, ?_⟩
  · change _ ∈ linesOf (ctx.response.headerList ++ [(ascii "Content-Type", contentType)]
      ++ [(ascii "Content-Length", decimal body.length)])
    have hname : cr ∉ ascii "Content-Type" := by decide
    rw [linesOf_append, linesOf_append, linesOf_singleton ⟨hname, htype⟩]
    simp
  · rintro ⟨header, hcut, -, hname⟩
    have hcolon : colon ∉ ascii "Content-Type" := by decide
    obtain rfl := Option.some.inj ((cut_append_iff_notMem.mpr hcolon).symm.trans hcut)
    exact hname rfl

/-- One call keeps the context sound if it is framed… -/
theorem Sound.call (h : ctx.Sound) {c : ContextCall} (hframing : ctx.Framing c) :
    (ctx.call c).Sound := by
  cases c with
  | status code => exact h.status code
  | setHeader key value => exact h.setHeader key value
  | string code body => exact h.reply (by decide) code body hframing
  | html code body => exact h.reply (by decide) code body hframing

/-- …and sends an ill-framed message if it is not. -/
theorem Sound.framing_of_call (h : ctx.Sound) {c : ContextCall}
    (hframed : ∀ reply ∈ (ctx.call c).sent, reply.WellFramed) : ctx.Framing c := by
  cases c with
  | status | setHeader => trivial
  | string code body => exact (wellFramed_of_reply_iff h (by decide) code body).mp hframed
  | html code body => exact (wellFramed_of_reply_iff h (by decide) code body).mp hframed

theorem sound_new (request : HttpRequest) : (Context.new request HttpResponse.new).Sound :=
  ⟨HttpResponse.lineReadable_new, fun _ h => absurd h List.not_mem_nil, fun h => absurd rfl h⟩

end Context

/-- **Every message of a handler is well framed exactly when it replies at most once and its headers
are plain by then**, whatever it calls, in whatever order, with whatever bodies. -/
theorem forall_wellFramed_iff (request : HttpRequest) (calls : List ContextCall) :
    (∀ ctx ∈ (contextSystem request).visited calls, ∀ reply ∈ ctx.sent, reply.WellFramed)
      ↔ ∀ m ∈ (contextSystem request).moves calls, m.src.Framing m.act := by
  refine System.forall_visited_iff_moves Context.Sound (Context.sound_new request)
    (fun _ h => h.framed) (fun ctx c ctx' h hstep hframing => ?_)
    (fun ctx c ctx' h hstep hmissed hframed => ?_) calls
  · obtain rfl := Option.some.inj hstep
    exact h.call hframing
  · obtain rfl := Option.some.inj hstep
    exact hmissed (h.framing_of_call hframed)

/-- A handler that replies twice. -/
def replyTwice : List ContextCall := [.string 200 (ascii "a"), .string 200 (ascii "bc")]

def getRoot : HttpRequest := ⟨ascii "GET", ascii "/", ascii "HTTP/1.0", []⟩

/-- Its second message has two content lengths. -/
theorem not_wellFramed_replyTwice :
    ¬ ∀ ctx ∈ (contextSystem getRoot).visited replyTwice, ∀ reply ∈ ctx.sent, reply.WellFramed := by
  decide +kernel

end YServer
