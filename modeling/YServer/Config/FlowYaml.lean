import YServer.Config.Yaml
import Mathlib.Data.Nat.Basic
import Mathlib.Order.Basic
import Mathlib.Tactic.SplitIfs

/-!
# Config/FlowYaml — a yaml-cpp to run the casts with

Flow style only: null is `~`, a scalar is a word of lower case letters or stands in quotes, a
sequence is `[…]` and a map `{… : …}`.

    write   ["a",~,{k: "",},]  ◂──▸  read
-/

namespace YServer

namespace Yaml

namespace Flow

def tilde : Byte := 0x7e
def dquote : Byte := 0x22
def backslash : Byte := 0x5c
def lbracket : Byte := 0x5b
def rbracket : Byte := 0x5d
def lbrace : Byte := 0x7b
def rbrace : Byte := 0x7d
def comma : Byte := 0x2c
def colon : Byte := 0x3a

def isLetter (c : Byte) : Bool := 0x61 ≤ c && c ≤ 0x7a

/-! ## Writing -/

/-- A quote or backslash gets a backslash before it. -/
def escape (c : Byte) : Bytes := if c = dquote ∨ c = backslash then [backslash, c] else [c]

def quote (text : Bytes) : Bytes := dquote :: (text.flatMap escape ++ [dquote])

def writeScalar (text : Bytes) : Bytes :=
  if text ≠ [] ∧ text.all isLetter then text else quote text

mutual

def write : Node → Bytes
  | .null => [tilde]
  | .scalar text => writeScalar text
  | .sequence items => lbracket :: (writeItems items ++ [rbracket])
  | .map entries => lbrace :: (writeEntries entries ++ [rbrace])

def writeItems : List Node → Bytes
  | [] => []
  | item :: items => write item ++ [comma] ++ writeItems items

def writeEntries : List (Node × Node) → Bytes
  | [] => []
  | entry :: entries => writeEntry entry ++ [comma] ++ writeEntries entries

def writeEntry : Node × Node → Bytes
  | (key, value) => write key ++ [colon] ++ write value

end

/-! ## Reading -/

/-- The rest of a quoted scalar. -/
def readQuoted : Bytes → Option (Bytes × Bytes)
  | [] => none
  | [c] => if c = dquote then some ([], []) else none
  | c :: d :: rest =>
    if c = dquote then some ([], d :: rest)
    else if c = backslash then (readQuoted rest).map fun r => (d :: r.1, r.2)
    else (readQuoted (d :: rest)).map fun r => (c :: r.1, r.2)

/-- Items up to a closing bracket; the last may do without its comma. -/
def readUntil {α : Type} (close : Byte) (item : Bytes → Option (α × Bytes)) :
    ℕ → Bytes → Option (List α × Bytes)
  | 0, _ => none
  | fuel + 1, text =>
    if text.head? = some close then some ([], text.tail)
    else do
      let (a, text) ← item text
      let text := if text.head? = some comma then text.tail else text
      let (as, text) ← readUntil close item fuel text
      return (a :: as, text)

def readEntry (item : Bytes → Option (Node × Bytes)) (text : Bytes) :
    Option ((Node × Node) × Bytes) := do
  let (key, text) ← item text
  if text.head? = some colon then
    let (value, text) ← item text.tail
    return ((key, value), text)
  else none

def read : ℕ → Bytes → Option (Node × Bytes)
  | 0, _ | _ + 1, [] => none
  | fuel + 1, c :: text =>
    if c = tilde then some (.null, text)
    else if c = dquote then (readQuoted text).map fun r => (.scalar r.1, r.2)
    else if c = lbracket then
      (readUntil rbracket (read fuel) fuel text).map fun r => (.sequence r.1, r.2)
    else if c = lbrace then
      (readUntil rbrace (readEntry (read fuel)) fuel text).map fun r => (.map r.1, r.2)
    else if isLetter c then
      some (.scalar (c :: text.takeWhile isLetter), text.dropWhile isLetter)
    else none

/-- A document; an empty one is null. -/
def load (text : Bytes) : Option Node :=
  if text = [] then some .null
  else
    match read text.length text with
    | some (node, []) => some node
    | some (_, _ :: _) | none => none

/-! ## Reading takes back what is written -/

theorem readQuoted_dquote (rest : Bytes) : readQuoted (dquote :: rest) = some ([], rest) := by
  cases rest <;> rfl

theorem readQuoted_append (text rest : Bytes) :
    readQuoted (text.flatMap escape ++ dquote :: rest) = some (text, rest) := by
  induction text with
  | nil => exact readQuoted_dquote rest
  | cons c text ih =>
    rw [List.flatMap_cons, List.append_assoc, escape]
    split_ifs with hc
    · rw [List.cons_append, List.singleton_append, readQuoted, if_neg (by decide), if_pos rfl, ih]
      rfl
    · obtain ⟨hquote, hbackslash⟩ := not_or.mp hc
      obtain ⟨d, tail, htail⟩ := List.exists_cons_of_ne_nil
        (List.append_ne_nil_of_right_ne_nil (text.flatMap escape) (List.cons_ne_nil dquote rest))
      rw [htail] at ih ⊢
      rw [List.singleton_append, readQuoted, if_neg hquote, if_neg hbackslash, ih]
      rfl

theorem read_quote (fuel : ℕ) (text rest : Bytes) :
    read (fuel + 1) (quote text ++ rest) = some (.scalar text, rest) := by
  rw [quote, List.cons_append, List.append_assoc, List.singleton_append, read, if_neg (by decide),
    if_pos rfl, readQuoted_append]
  rfl

/-- A reader of items reads a sequence of them, if none begins with the closing bracket. -/
theorem readUntil_append {α : Type} {close : Byte} {item : Bytes → Option (α × Bytes)}
    {text : α → Bytes} (items : List α) (fuel : ℕ) (rest : Bytes) (hfuel : items.length < fuel)
    (hitem : ∀ a ∈ items, ∀ rest, item (text a ++ comma :: rest) = some (a, comma :: rest))
    (hclose : ∀ a ∈ items, ∃ c tail, text a = c :: tail ∧ c ≠ close) :
    readUntil close item fuel (items.flatMap (fun a => text a ++ [comma]) ++ close :: rest)
      = some (items, rest) := by
  induction items generalizing fuel with
  | nil =>
    obtain ⟨fuel, rfl⟩ := Nat.exists_eq_succ_of_ne_zero (Nat.ne_zero_of_lt hfuel)
    rw [List.flatMap_nil, List.nil_append, readUntil, List.head?_cons, if_pos rfl, List.tail_cons]
  | cons a items ih =>
    obtain ⟨fuel, rfl⟩ := Nat.exists_eq_succ_of_ne_zero (Nat.ne_zero_of_lt hfuel)
    obtain ⟨c, tail, htext, hc⟩ := hclose a List.mem_cons_self
    have hread := ih fuel (Nat.lt_of_succ_lt_succ hfuel)
      (fun b hb => hitem b (List.mem_cons_of_mem _ hb))
      fun b hb => hclose b (List.mem_cons_of_mem _ hb)
    have hitem := hitem a List.mem_cons_self
      (items.flatMap (fun a => text a ++ [comma]) ++ close :: rest)
    rw [List.flatMap_cons, List.append_assoc, List.append_assoc, List.singleton_append, readUntil,
      if_neg, hitem]
    · simp only [Option.bind_eq_bind, Option.bind_some, List.head?_cons, if_true, List.tail_cons,
        hread]
      rfl
    · rw [htext]
      exact fun h => hc (Option.some.inj h)

theorem writeItems_eq (items : List Node) :
    writeItems items = items.flatMap fun item => write item ++ [comma] := by
  induction items with
  | nil => rfl
  | cons item items ih => rw [writeItems, ih, List.flatMap_cons]

theorem writeEntries_eq (entries : List (Node × Node)) :
    writeEntries entries = entries.flatMap fun entry => writeEntry entry ++ [comma] := by
  induction entries with
  | nil => rfl
  | cons entry entries ih => rw [writeEntries, ih, List.flatMap_cons]

/-- What is written is not empty and does not begin like the end of a sequence or map. -/
theorem write_eq_cons (node : Node) :
    ∃ c tail, write node = c :: tail ∧ c ≠ rbracket ∧ c ≠ rbrace := by
  cases node with
  | null => exact ⟨_, _, rfl, by decide⟩
  | sequence | map => exact ⟨_, _, rfl, by decide⟩
  | scalar text =>
    rw [write, writeScalar]
    split_ifs with hword
    · obtain ⟨c, text, rfl⟩ := List.exists_cons_of_ne_nil hword.1
      have hc := List.all_eq_true.mp hword.2 c List.mem_cons_self
      refine ⟨_, _, rfl, ?_, ?_⟩ <;> rintro rfl <;> exact absurd hc (by decide)
    · exact ⟨_, _, rfl, by decide⟩

/-- There are fewer items than letters to write them in, and none is longer than all together. -/
theorem lengths_lt {α : Type} {text : α → Bytes} {items : List α} {fuel : ℕ}
    (h : (items.flatMap fun a => text a ++ [comma]).length < fuel) :
    items.length < fuel ∧ ∀ a ∈ items, (text a).length < fuel := by
  have hle : items.length ≤ (items.flatMap fun a => text a ++ [comma]).length
      ∧ ∀ a ∈ items, (text a).length ≤ (items.flatMap fun a => text a ++ [comma]).length := by
    clear h
    induction items with
    | nil => simp
    | cons a items ih =>
      simp only [List.flatMap_cons, List.length_append, List.length_cons, List.length_nil,
        List.forall_mem_cons]
      exact ⟨by omega, by omega, fun b hb => by have := ih.2 b hb; omega⟩
  exact ⟨hle.1.trans_lt h, fun a ha => (hle.2 a ha).trans_lt h⟩

/-- No word goes on behind the text. -/
def NoLetter (rest : Bytes) : Prop := ∀ c ∈ rest.head?, isLetter c = false

theorem noLetter_cons {c : Byte} (hc : isLetter c = false) (rest : Bytes) :
    NoLetter (c :: rest) := by
  rintro _ ⟨⟩
  exact hc

theorem read_word (fuel : ℕ) {text rest : Bytes} (hne : text ≠ []) (htext : text.all isLetter)
    (hrest : NoLetter rest) : read (fuel + 1) (text ++ rest) = some (.scalar text, rest) := by
  obtain ⟨c, text, rfl⟩ := List.exists_cons_of_ne_nil hne
  obtain ⟨hc, htext⟩ := List.forall_mem_cons.mp (List.all_eq_true.mp htext)
  have hsplit : (text ++ rest).takeWhile isLetter = text
      ∧ (text ++ rest).dropWhile isLetter = rest := by
    rw [List.takeWhile_append_of_pos htext, List.dropWhile_append_of_pos htext]
    cases rest with
    | nil => simp
    | cons d rest => simp [hrest d rfl]
  rw [List.cons_append, read, if_neg, if_neg, if_neg, if_neg, if_pos hc, hsplit.1, hsplit.2]
  all_goals
    rintro rfl
    exact absurd hc (by decide)

/-- What is written for the node is read back, with fuel for the length of its text. -/
def ReadsBack (node : Node) : Prop := ∀ fuel rest, (write node).length ≤ fuel → NoLetter rest →
  read fuel (write node ++ rest) = some (node, rest)

/-- There is fuel for the first byte of a node. -/
theorem exists_succ_of_le {node : Node} {fuel : ℕ} (h : (write node).length ≤ fuel) :
    ∃ k, fuel = k + 1 := by
  obtain ⟨c, tail, htext, -⟩ := write_eq_cons node
  rw [htext, List.length_cons] at h
  exact Nat.exists_eq_succ_of_ne_zero (by omega)

theorem readsBack_scalar (text : Bytes) : ReadsBack (.scalar text) := by
  intro fuel rest hlen hrest
  obtain ⟨fuel, rfl⟩ := exists_succ_of_le hlen
  rw [write, writeScalar]
  split_ifs with hword
  · exact read_word fuel hword.1 hword.2 hrest
  · exact read_quote fuel text rest

theorem readsBack_sequence {items : List Node} (ih : ∀ item ∈ items, ReadsBack item) :
    ReadsBack (.sequence items) := by
  intro fuel rest hlen hrest
  obtain ⟨fuel, rfl⟩ := exists_succ_of_le hlen
  rw [write, writeItems_eq, List.length_cons, List.length_append, List.length_singleton] at hlen
  obtain ⟨hitems, hlengths⟩ := lengths_lt (Nat.lt_of_succ_le (Nat.le_of_succ_le_succ hlen))
  rw [write, writeItems_eq, List.cons_append, List.append_assoc, List.singleton_append, read,
    if_neg (by decide), if_neg (by decide), if_pos rfl, readUntil_append items fuel rest hitems]
  · rfl
  · exact fun item hitem rest =>
      ih item hitem _ _ (hlengths item hitem).le (noLetter_cons rfl rest)
  · intro item _
    obtain ⟨c, tail, htext, hc, -⟩ := write_eq_cons item
    exact ⟨c, tail, htext, hc⟩

theorem readEntry_append {entry : Node × Node} (hkey : ReadsBack entry.1)
    (hvalue : ReadsBack entry.2) {fuel : ℕ} (hlen : (writeEntry entry).length < fuel)
    (rest : Bytes) :
    readEntry (read fuel) (writeEntry entry ++ comma :: rest) = some (entry, comma :: rest) := by
  rw [writeEntry, List.length_append, List.length_append] at hlen
  have hcolon : NoLetter (colon :: (write entry.2 ++ comma :: rest)) := noLetter_cons rfl _
  have hcomma : NoLetter (comma :: rest) := noLetter_cons rfl _
  rw [writeEntry, List.append_assoc, List.append_assoc, List.singleton_append, readEntry,
    hkey fuel _ (by omega) hcolon]
  simp only [Option.bind_eq_bind, Option.bind_some, List.head?_cons, if_true, List.tail_cons,
    hvalue fuel _ (by omega) hcomma]
  rfl

theorem readsBack_map {entries : List (Node × Node)}
    (ih : ∀ entry ∈ entries, ReadsBack entry.1 ∧ ReadsBack entry.2) : ReadsBack (.map entries) := by
  intro fuel rest hlen hrest
  obtain ⟨fuel, rfl⟩ := exists_succ_of_le hlen
  rw [write, writeEntries_eq, List.length_cons, List.length_append, List.length_singleton] at hlen
  obtain ⟨hentries, hlengths⟩ := lengths_lt (Nat.lt_of_succ_le (Nat.le_of_succ_le_succ hlen))
  rw [write, writeEntries_eq, List.cons_append, List.append_assoc, List.singleton_append, read,
    if_neg (by decide), if_neg (by decide), if_neg (by decide), if_pos rfl,
    readUntil_append entries fuel rest hentries]
  · rfl
  · exact fun entry hentry => readEntry_append (ih entry hentry).1 (ih entry hentry).2
      (hlengths entry hentry)
  · intro entry _
    obtain ⟨c, tail, htext, -, hc⟩ := write_eq_cons entry.1
    exact ⟨c, tail ++ [colon] ++ write entry.2, by rw [writeEntry, htext]; rfl, hc⟩

/-- **Reading takes back what is written** — by induction on the node. -/
theorem read_write (node : Node) : ReadsBack node := by
  induction node using Node.induction_children with
  | null =>
    intro fuel rest hlen _
    obtain ⟨fuel, rfl⟩ := exists_succ_of_le hlen
    rfl
  | scalar text => exact readsBack_scalar text
  | sequence items ih => exact readsBack_sequence ih
  | map entries ih => exact readsBack_map ih

/-! ## The library -/

theorem load_write (node : Node) : load (write node) = some node := by
  obtain ⟨c, tail, htext, -⟩ := write_eq_cons node
  have hread := read_write node _ [] le_rfl nofun
  rw [List.append_nil] at hread
  rw [load, if_neg (by rw [htext]; exact List.cons_ne_nil c tail), hread]

theorem load_quote (text : Bytes) : load (quote text) = some (.scalar text) := by
  have hread := read_quote (text.flatMap escape ++ [dquote]).length text []
  rw [List.append_nil] at hread
  change read (quote text).length (quote text) = _ at hread
  rw [load, if_neg (show quote text ≠ [] from List.cons_ne_nil _ _), hread]

theorem length_lt_quote (text : Bytes) : text.length < (quote text).length := by
  have hle : text.length ≤ (text.flatMap escape).length := by
    induction text with
    | nil => exact le_rfl
    | cons c text ih =>
      have hc : 1 ≤ (escape c).length := by
        rw [escape]
        split_ifs <;> simp
      rw [List.length_cons, List.flatMap_cons, List.length_append]
      omega
  rw [quote, List.length_cons, List.length_append, List.length_singleton]
  omega

end Flow

/-- Flow style as a `YamlCpp`. -/
def flow : YamlCpp where
  load := Flow.load
  emit := Flow.write
  quote := Flow.quote
  mapItems := fun _ => []
  load_emit := Flow.load_write
  load_quote := Flow.load_quote
  emit_scalar := fun text => by
    rw [Flow.write, Flow.writeScalar]
    split_ifs
    · exact Or.inl rfl
    · exact Or.inr rfl
  length_quote := Flow.length_lt_quote

end Yaml

end YServer
