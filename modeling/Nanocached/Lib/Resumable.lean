import Mathlib

-- Parsers which are called again whenever more of the input has arrived.

namespace Resumable

variable {β σ ω ε : Type*}

-- More input is needed, something is parsed off the front of the buffer, or it never will be.
inductive Step (ω ε : Type*)
  | more
  | emit (result : ω) (consumed : Nat)
  | stop (error : ε) (consumed : Nat)

structure Parser (β σ ω ε : Type*) where
  init     : σ
  parse    : σ → List β → Step ω ε × σ
  consumes : ∀ {s buf o n}, (parse s buf).1 = .emit o n → 0 < n ∧ n ≤ buf.length

-- What a parser has made of its input.
structure Outcome (β ω ε : Type*) where
  results : List ω
  error   : Option ε
  rest    : List β

def Outcome.after (results : List ω) (outcome : Outcome β ω ε) : Outcome β ω ε :=
  { outcome with results := results ++ outcome.results }

namespace Parser

variable (p : Parser β σ ω ε)

-- Parses what there is in the buffer.
def drain (s : σ) (buf : List β) : Outcome β ω ε × σ :=
  match _h : p.parse s buf with
  | (.more, s')     => (⟨[], none, buf⟩, s')
  | (.emit o n, s') =>
    let (outcome, s'') := drain s' (buf.drop n)
    (outcome.after [o], s'')
  | (.stop e n, s') => (⟨[], some e, buf.drop n⟩, s')
termination_by buf.length
decreasing_by
  have hc := p.consumes (congrArg Prod.fst _h)
  rw [List.length_drop]
  omega

-- The input arrives in chunks, and the parser is called after each of them.
def feed (s : σ) (buf : List β) : List (List β) → Outcome β ω ε
  | []              => ⟨[], none, buf⟩
  | chunk :: chunks =>
    let (outcome, s') := p.drain s (buf ++ chunk)
    match outcome.error with
    | some _ => { outcome with rest := outcome.rest ++ chunks.flatten }
    | none   => (feed s' outcome.rest chunks).after outcome.results

variable {p} {s s' : σ} {buf : List β} {o : ω} {e : ε} {n : Nat}

theorem drain_of_more (h : p.parse s buf = (.more, s')) : p.drain s buf = (⟨[], none, buf⟩, s') := by
  rw [Parser.drain]
  split <;> simp_all

theorem drain_of_emit (h : p.parse s buf = (.emit o n, s')) :
    p.drain s buf =
      ((p.drain s' (buf.drop n)).1.after [o], (p.drain s' (buf.drop n)).2) := by
  rw [Parser.drain]
  split <;> simp_all

theorem drain_of_stop (h : p.parse s buf = (.stop e n, s')) :
    p.drain s buf = (⟨[], some e, buf.drop n⟩, s') := by
  rw [Parser.drain]
  split <;> simp_all

end Parser

-- The parser answers as a function of what is in the buffer, whatever it remembers of earlier calls,
-- and does not change its mind when more arrives.
structure Represents (p : Parser β σ ω ε) (view : List β → Step ω ε) (Valid : List β → σ → Prop) :
    Prop where
  nil   : view [] = .more
  init  : ∀ buf, Valid buf p.init
  parse : ∀ {buf s}, Valid buf s → (p.parse s buf).1 = view buf
  more  : ∀ {buf s}, Valid buf s → view buf = .more → ∀ chunk,
            Valid (buf ++ chunk) (p.parse s buf).2
  emit  : ∀ {buf s o n}, Valid buf s → view buf = .emit o n →
            (p.parse s buf).2 = p.init ∧ ∀ chunk, view (buf ++ chunk) = .emit o n
  stop  : ∀ {buf e n}, view buf = .stop e n →
            n ≤ buf.length ∧ ∀ chunk, view (buf ++ chunk) = .stop e n

namespace Represents

variable {p : Parser β σ ω ε} {view : List β → Step ω ε} {Valid : List β → σ → Prop}
variable {s : σ} {buf : List β} {o : ω} {e : ε} {n : Nat}

theorem drain_more (h : Represents p view Valid) (hv : Valid buf s) (hs : view buf = .more) :
    p.drain s buf = (⟨[], none, buf⟩, (p.parse s buf).2) :=
  Parser.drain_of_more (Prod.ext ((h.parse hv).trans hs) rfl)

theorem drain_emit (h : Represents p view Valid) (hv : Valid buf s) (hs : view buf = .emit o n) :
    p.drain s buf =
      ((p.drain p.init (buf.drop n)).1.after [o], (p.drain p.init (buf.drop n)).2) :=
  Parser.drain_of_emit (Prod.ext ((h.parse hv).trans hs) (h.emit hv hs).left)

theorem drain_stop (h : Represents p view Valid) (hv : Valid buf s) (hs : view buf = .stop e n) :
    (p.drain s buf).1 = ⟨[], some e, buf.drop n⟩ :=
  congrArg Prod.fst (Parser.drain_of_stop (Prod.ext ((h.parse hv).trans hs) rfl))

theorem consumes (h : Represents p view Valid) (hs : view buf = .emit o n) :
    0 < n ∧ n ≤ buf.length :=
  p.consumes ((h.parse (h.init buf)).trans hs)

-- What is parsed does not depend on the state.
theorem drain_eq_init (h : Represents p view Valid) (hv : Valid buf s) :
    (p.drain s buf).1 = (p.drain p.init buf).1 := by
  rcases hs : view buf with _ | ⟨o, n⟩ | ⟨e, n⟩
  case more => rw [h.drain_more hv hs, h.drain_more (h.init buf) hs]
  case emit => rw [h.drain_emit hv hs, h.drain_emit (h.init buf) hs]
  case stop => rw [h.drain_stop hv hs, h.drain_stop (h.init buf) hs]

theorem drain_append_of_error (h : Represents p view Valid)
    (he : (p.drain p.init buf).1.error = some e) (chunk : List β) :
    (p.drain p.init (buf ++ chunk)).1 =
      { (p.drain p.init buf).1 with rest := (p.drain p.init buf).1.rest ++ chunk } := by
  induction hl : buf.length using Nat.strongRecOn generalizing buf
  case ind l hi =>
    rcases hs : view buf with _ | ⟨o, n⟩ | ⟨e', n⟩
    case more =>
      rw [h.drain_more (h.init buf) hs] at he
      contradiction
    case emit =>
      have hc := h.consumes hs
      rw [h.drain_emit (h.init buf) hs] at he ⊢
      have hi := hi _ (by rw [List.length_drop]; omega) he rfl
      rw [h.drain_emit (h.init _) ((h.emit (h.init buf) hs).right chunk),
        List.drop_append_of_le_length hc.right, hi]
      rfl
    case stop =>
      have hst := h.stop hs
      rw [h.drain_stop (h.init buf) hs, h.drain_stop (h.init _) (hst.right chunk),
        List.drop_append_of_le_length hst.left]

-- Parsing goes on with the rest of the buffer when more arrives.
theorem drain_append (h : Represents p view Valid) (hv : Valid buf s)
    (he : (p.drain s buf).1.error = none) (chunk : List β) :
    Valid ((p.drain s buf).1.rest ++ chunk) (p.drain s buf).2 ∧
      (p.drain p.init (buf ++ chunk)).1 =
        (p.drain p.init ((p.drain s buf).1.rest ++ chunk)).1.after (p.drain s buf).1.results := by
  induction hl : buf.length using Nat.strongRecOn generalizing buf s
  case ind l hi =>
    rcases hs : view buf with _ | ⟨o, n⟩ | ⟨e', n⟩
    case more =>
      rw [h.drain_more hv hs]
      exact ⟨h.more hv hs chunk, rfl⟩
    case emit =>
      have hc := h.consumes hs
      rw [h.drain_emit hv hs] at he ⊢
      obtain ⟨hv', hd⟩ := hi _ (by rw [List.length_drop]; omega) (h.init _) he rfl
      refine ⟨hv', ?_⟩
      rw [h.drain_emit (h.init _) ((h.emit hv hs).right chunk),
        List.drop_append_of_le_length hc.right, hd]
      rfl
    case stop =>
      rw [h.drain_stop hv hs] at he
      contradiction

theorem view_rest (h : Represents p view Valid) (hv : Valid buf s)
    (he : (p.drain s buf).1.error = none) : view (p.drain s buf).1.rest = .more := by
  induction hl : buf.length using Nat.strongRecOn generalizing buf s
  case ind l hi =>
    rcases hs : view buf with _ | ⟨o, n⟩ | ⟨e', n⟩
    case more =>
      rw [h.drain_more hv hs]
      exact hs
    case emit =>
      have hc := h.consumes hs
      rw [h.drain_emit hv hs] at he ⊢
      exact hi _ (by rw [List.length_drop]; omega) (h.init _) he rfl
    case stop =>
      rw [h.drain_stop hv hs] at he
      contradiction

theorem feed_eq_drain (h : Represents p view Valid) (chunks : List (List β))
    (hv : ∀ chunk, Valid (buf ++ chunk) s) (hs : view buf = .more) :
    p.feed s buf chunks = (p.drain p.init (buf ++ chunks.flatten)).1 := by
  induction chunks generalizing s buf
  case nil =>
    rw [List.flatten_nil, List.append_nil, h.drain_more (h.init buf) hs]
    rfl
  case cons chunk chunks hi =>
    have hv := hv chunk
    rw [List.flatten_cons, ← List.append_assoc]
    cases he : (p.drain s (buf ++ chunk)).1.error
    case some e =>
      have he' := he
      rw [h.drain_eq_init hv] at he'
      rw [h.drain_append_of_error he', ← h.drain_eq_init hv]
      simp only [Parser.feed, he]
    case none =>
      rw [(h.drain_append hv he chunks.flatten).right,
        ← hi (fun chunk => (h.drain_append hv he chunk).left) (h.view_rest hv he)]
      simp only [Parser.feed, he]

-- The chunks in which the input arrives make no difference.
theorem feed_eq (h : Represents p view Valid) (chunks : List (List β)) :
    p.feed p.init [] chunks = (p.drain p.init chunks.flatten).1 :=
  h.feed_eq_drain chunks (fun _ => h.init _) h.nil

end Represents
end Resumable
