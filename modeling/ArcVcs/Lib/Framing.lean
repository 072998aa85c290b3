import Mathlib.Data.List.Induction

/-!
# Incremental decoders

A decoder looks at a buffer and fails, waits for more input, or takes one item off the front.
When no decision changes as input is appended, a stream decodes alike however it is cut into
chunks. When moreover an encoded item is taken off whatever follows it, a decoder undoes the
encoding of every list of items, and a proper part of one encoded item makes it wait.
-/

namespace Framing

variable {α β ε : Type*}

/-- The outcome of one call and the buffer that it leaves. -/
abbrev Decoder (α β ε : Type*) := List β → Except ε (Option α) × List β

/-- Call the decoder until it waits or fails, at most `fuel` times. The result has the items and
the buffer that is left, or the error. -/
def drain (dec : Decoder α β ε) : ℕ → List β → List α × Except ε (List β)
  | 0, buf => ([], .ok buf)
  | fuel + 1, buf =>
      match dec buf with
      | (.error e, _) => ([], .error e)
      | (.ok none, rest) => ([], .ok rest)
      | (.ok (some a), rest) => (a :: (drain dec fuel rest).1, (drain dec fuel rest).2)

/-- A call that takes an item shortens the buffer, so its length bounds the calls. -/
def decodeAll (dec : Decoder α β ε) (buf : List β) : List α × Except ε (List β) :=
  drain dec (buf.length + 1) buf

/-- One chunk arrives: it is appended to the buffer, which is drained. Nothing is read after an
error. -/
def feed (dec : Decoder α β ε) (s : List α × Except ε (List β)) (chunk : List β) :
    List α × Except ε (List β) :=
  match s with
  | (items, .error e) => (items, .error e)
  | (items, .ok buf) =>
      (items ++ (decodeAll dec (buf ++ chunk)).1, (decodeAll dec (buf ++ chunk)).2)

def feedAll (dec : Decoder α β ε) (chunks : List (List β)) : List α × Except ε (List β) :=
  chunks.foldl (feed dec) ([], .ok [])

/-- Input that is appended changes no decision: an item comes off the front, an error stays, and
a decoder that waits leaves its buffer alone. -/
structure Incremental (dec : Decoder α β ε) : Prop where
  nil : dec [] = (.ok none, [])
  waits : ∀ {buf rest}, dec buf = (.ok none, rest) → rest = buf
  takes : ∀ {buf a rest}, dec buf = (.ok (some a), rest) → rest.length < buf.length
  takes_append : ∀ {buf a rest}, dec buf = (.ok (some a), rest) → ∀ more,
    dec (buf ++ more) = (.ok (some a), rest ++ more)
  fails_append : ∀ {buf e rest}, dec buf = (.error e, rest) → ∀ more,
    (dec (buf ++ more)).1 = .error e

variable {dec : Decoder α β ε}

/-! ## Draining a buffer -/

theorem drain_eq_decodeAll (h : Incremental dec) {n : ℕ} {buf : List β} (hn : buf.length < n) :
    drain dec n buf = decodeAll dec buf := by
  have hfuel : ∀ n m buf, buf.length < n → buf.length < m → drain dec n buf = drain dec m buf := by
    intro n
    induction n with
    | zero => intro m buf hn; omega
    | succ n ih =>
        intro m buf hn hm
        obtain ⟨m, rfl⟩ := Nat.exists_eq_succ_of_ne_zero (Nat.ne_zero_of_lt hm)
        match hdec : dec buf with
        | (.error e, rest) => simp [drain, hdec]
        | (.ok none, rest) => simp [drain, hdec]
        | (.ok (some a), rest) =>
            have hlt := h.takes hdec
            simp only [drain, hdec]
            rw [ih m rest (by omega) (by omega)]
  exact hfuel n _ buf hn (Nat.lt_succ_self _)

theorem decodeAll_of_error {buf rest : List β} {e : ε} (hdec : dec buf = (.error e, rest)) :
    decodeAll dec buf = ([], .error e) := by
  simp [decodeAll, drain, hdec]

theorem decodeAll_of_none {buf rest : List β} (hdec : dec buf = (.ok none, rest)) :
    decodeAll dec buf = ([], .ok rest) := by
  simp [decodeAll, drain, hdec]

theorem decodeAll_of_some (h : Incremental dec) {buf rest : List β} {a : α}
    (hdec : dec buf = (.ok (some a), rest)) :
    decodeAll dec buf = (a :: (decodeAll dec rest).1, (decodeAll dec rest).2) := by
  have hlt := h.takes hdec
  rw [decodeAll]
  simp only [drain, hdec]
  rw [drain_eq_decodeAll h hlt]

theorem decodeAll_append (h : Incremental dec) (buf more : List β) :
    decodeAll dec (buf ++ more) = feed dec (decodeAll dec buf) more := by
  induction hlen : buf.length using Nat.strongRecOn generalizing buf with
  | ind n ih =>
      match hdec : dec buf with
      | (.error e, rest) =>
          obtain ⟨rest', hrest'⟩ : ∃ rest', dec (buf ++ more) = (.error e, rest') :=
            ⟨_, Prod.ext (h.fails_append hdec more) rfl⟩
          rw [decodeAll_of_error hdec, decodeAll_of_error hrest', feed]
      | (.ok none, rest) =>
          obtain rfl := h.waits hdec
          rw [decodeAll_of_none hdec, feed]
          simp
      | (.ok (some a), rest) =>
          have hlt := h.takes hdec
          rw [decodeAll_of_some h hdec, decodeAll_of_some h (h.takes_append hdec more),
            ih rest.length (hlen ▸ hlt) rest rfl]
          rcases decodeAll dec rest with ⟨items, e | rest'⟩ <;> simp [feed]

/-- **A stream decodes alike however it is cut into chunks.** -/
theorem feedAll_eq (h : Incremental dec) (chunks : List (List β)) :
    feedAll dec chunks = decodeAll dec chunks.flatten := by
  induction chunks using List.reverseRecOn with
  | nil => rw [List.flatten_nil, decodeAll_of_none h.nil, feedAll, List.foldl_nil]
  | append_singleton chunks chunk ih =>
      rw [feedAll, List.foldl_append, List.foldl_cons, List.foldl_nil]
      change feed dec (feedAll dec chunks) chunk = _
      rw [ih, ← decodeAll_append h, List.flatten_append, List.flatten_cons, List.flatten_nil,
        List.append_nil]

/-! ## Encoded items -/

variable {enc : α → List β} {Valid : α → Prop}

/-- The encoding of a valid item is taken off whatever follows it. -/
def Undoes (dec : Decoder α β ε) (enc : α → List β) (Valid : α → Prop) : Prop :=
  ∀ a, Valid a → ∀ rest, dec (enc a ++ rest) = (.ok (some a), rest)

theorem decodeAll_flatMap (h : Incremental dec) (henc : Undoes dec enc Valid) {items : List α}
    (hvalid : ∀ a ∈ items, Valid a) : decodeAll dec (items.flatMap enc) = (items, .ok []) := by
  induction items with
  | nil => exact decodeAll_of_none h.nil
  | cons a items ih =>
      rw [List.flatMap_cons, decodeAll_of_some h (henc a (hvalid a List.mem_cons_self) _),
        ih fun b hb => hvalid b (.tail _ hb)]

/-- **Decoding undoes encoding**, however the encoded items are cut into chunks. -/
theorem feedAll_of_flatten (h : Incremental dec) (henc : Undoes dec enc Valid) {items : List α}
    (hvalid : ∀ a ∈ items, Valid a) {chunks : List (List β)}
    (hcut : chunks.flatten = items.flatMap enc) : feedAll dec chunks = (items, .ok []) := by
  rw [feedAll_eq h, hcut, decodeAll_flatMap h henc hvalid]

/-- **A proper part of an encoded item makes the decoder wait.** -/
theorem waits_of_part (h : Incremental dec) (henc : Undoes dec enc Valid) {a : α}
    (ha : Valid a) {part more : List β} (hpart : enc a = part ++ more) (hmore : more ≠ []) :
    dec part = (.ok none, part) := by
  have hwhole : dec (part ++ more) = (.ok (some a), []) := by
    rw [← hpart, ← List.append_nil (enc a), henc a ha []]
  match hdec : dec part with
  | (.error e, rest) =>
      have hfail := h.fails_append hdec more
      simp [hwhole] at hfail
  | (.ok none, rest) => rw [h.waits hdec]
  | (.ok (some b), rest) =>
      have htake := h.takes_append hdec more
      simp [hwhole, hmore] at htake

end Framing
