import Mathlib.Algebra.GroupWithZero.Nat
import Mathlib.Data.List.Basic

/-!
# A source that arrives in pieces

What has arrived and is not read yet, and the pieces that are still to come, of which one can fail.
The source is closed after the last piece or at an empty one. A reader waits for more until it can
take something off the front, and a reader that more symbols never make change its mind takes the
same from every division of one stream.
-/
namespace SupraHarness.Chunks

variable {α ε : Type}

structure Source (α ε : Type) where
  buffer : List α
  arrivals : List (Except ε (List α))

/-- Wait until `take` finds something at the front; `atClose` judges the rest of a closed source. -/
def readFrom (take : List α → Option (List α × List α))
    (atClose : List α → Except ε (List α × Source α ε)) (buffer : List α) :
    List (Except ε (List α)) → Except ε (List α × Source α ε)
  | [] =>
    match take buffer with
    | some (taken, rest) => .ok (taken, ⟨rest, []⟩)
    | none => atClose buffer
  | arrival :: later =>
    match take buffer with
    | some (taken, rest) => .ok (taken, ⟨rest, arrival :: later⟩)
    | none =>
      match arrival with
      | .error e => .error e
      | .ok [] => atClose buffer
      | .ok (a :: chunk) => readFrom take atClose (buffer ++ a :: chunk) later

/-- The symbols up to a stop symbol and the symbols after it. -/
def cutAfter [DecidableEq α] (stop : α) : List α → Option (List α × List α)
  | [] => none
  | a :: rest =>
    if a = stop then some ([a], rest) else (cutAfter stop rest).map fun cut => (a :: cut.1, cut.2)

/-- So many symbols and the symbols after them. -/
def cutAt (count : Nat) (symbols : List α) : Option (List α × List α) :=
  if count ≤ symbols.length then some (symbols.take count, symbols.drop count) else none

namespace Source

/-- Take the symbols up to a stop symbol, or all of them from a source that closes before it. -/
def readUntil [DecidableEq α] (stop : α) (source : Source α ε) : Except ε (List α × Source α ε) :=
  readFrom (cutAfter stop) (fun buffer => .ok (buffer, ⟨[], []⟩)) source.buffer source.arrivals

/-- Take a number of symbols; a source that closes before them has an error of its own. -/
def readExact (closed : ε) (count : Nat) (source : Source α ε) : Except ε (List α × Source α ε) :=
  readFrom (cutAt count) (fun _ => .error closed) source.buffer source.arrivals

/-- These symbols arrive, in whatever pieces, before anything else happens. -/
def Delivers (source : Source α ε) (symbols : List α) : Prop :=
  ∃ (chunks : List (List α)) (later : List (Except ε (List α))),
    source.arrivals = chunks.map .ok ++ later ∧ (∀ chunk ∈ chunks, chunk ≠ []) ∧
      source.buffer ++ chunks.flatten = symbols

/-- The number of symbols a source can still give. -/
def size (source : Source α ε) : Nat :=
  source.buffer.length + (source.arrivals.map fun
    | .ok chunk => chunk.length
    | .error _ => 0).sum

theorem Delivers.length_le {source : Source α ε} {symbols : List α} (h : source.Delivers symbols) :
    symbols.length ≤ source.size := by
  obtain ⟨chunks, later, harrivals, -, rfl⟩ := h
  simp only [size, harrivals, List.map_append, List.map_map, List.sum_append, List.length_append,
    List.length_flatten, Function.comp_def]
  rw [show chunks.map List.length = chunks.map fun chunk => chunk.length from rfl]
  omega

end Source

/-- What was found at the front stays found when more follows. -/
def Settled (take : List α → Option (List α × List α)) : Prop :=
  ∀ {symbols taken rest}, take symbols = some (taken, rest) →
    ∀ more, take (symbols ++ more) = some (taken, rest ++ more)

@[simp] theorem cutAfter_nil [DecidableEq α] (stop : α) : cutAfter stop [] = none := rfl

theorem cutAfter_cons [DecidableEq α] (stop a : α) (rest : List α) :
    cutAfter stop (a :: rest) =
      if a = stop then some ([a], rest) else (cutAfter stop rest).map fun cut => (a :: cut.1, cut.2) := rfl

theorem settled_cutAfter [DecidableEq α] (stop : α) : Settled (cutAfter stop) := by
  intro symbols taken rest h more
  induction symbols generalizing taken with
  | nil => simp at h
  | cons a symbols ih =>
    simp only [cutAfter_cons, List.cons_append] at h ⊢
    split at h
    next hstop =>
      cases h
      simp [hstop]
    next hstop =>
      simp only [Option.map_eq_some_iff] at h
      obtain ⟨⟨taken', rest'⟩, hcut, heq⟩ := h
      cases heq
      simp [hstop, ih hcut]

theorem settled_cutAt (count : Nat) : Settled (@cutAt α count) := by
  intro symbols taken rest h more
  simp only [cutAt] at h ⊢
  split at h
  next hle =>
    cases h
    rw [if_pos (by simp; omega), List.take_append_of_le_length hle, List.drop_append_of_le_length hle]
  next => cases h

theorem cutAfter_append [DecidableEq α] {stop : α} {line : List α} (h : stop ∉ line) (rest : List α) :
    cutAfter stop (line ++ stop :: rest) = some (line ++ [stop], rest) := by
  induction line with
  | nil => simp [cutAfter_cons]
  | cons a line ih =>
    have hne : a ≠ stop := by
      rintro rfl
      simp at h
    simp [cutAfter_cons, hne, ih (fun hmem => h (by simp [hmem]))]

theorem cutAfter_eq_none [DecidableEq α] {stop : α} {symbols : List α} : cutAfter stop symbols = none ↔ stop ∉ symbols := by
  induction symbols with
  | nil => exact iff_of_true rfl List.not_mem_nil
  | cons a symbols ih =>
    rw [cutAfter_cons, List.mem_cons, not_or]
    by_cases same : a = stop
    · rw [if_pos same]
      exact iff_of_false nofun fun both => both.1 same.symm
    · rw [if_neg same, Option.map_eq_none_iff, ih, and_iff_right (Ne.symm same)]

/-- What is taken up to a stop symbol ends with the first one. -/
theorem cutAfter_eq_some [DecidableEq α] {stop : α} {symbols taken rest : List α}
    (h : cutAfter stop symbols = some (taken, rest)) : ∃ line, taken = line ++ [stop] ∧ stop ∉ line := by
  induction symbols generalizing taken with
  | nil => cases h
  | cons a symbols ih =>
    rw [cutAfter_cons] at h
    split_ifs at h with same
    · cases h
      exact ⟨[], by rw [same, List.nil_append], List.not_mem_nil⟩
    · obtain ⟨⟨taken', rest'⟩, found, equal⟩ := Option.map_eq_some_iff.1 h
      cases equal
      obtain ⟨line, rfl, fresh⟩ := ih found
      refine ⟨a :: line, rfl, ?_⟩
      rw [List.mem_cons, not_or]
      exact ⟨Ne.symm same, fresh⟩

theorem cutAt_append (front rest : List α) : cutAt front.length (front ++ rest) = some (front, rest) := by
  simp [cutAt]

/-- A settled reader takes from a delivered stream what it takes from the stream as a whole. -/
theorem readFrom_delivers {take : List α → Option (List α × List α)} (hsettled : Settled take)
    (atClose : List α → Except ε (List α × Source α ε)) {taken rest : List α}
    (chunks : List (List α)) (later : List (Except ε (List α))) (buffer : List α)
    (hchunks : ∀ chunk ∈ chunks, chunk ≠ [])
    (htake : take (buffer ++ chunks.flatten) = some (taken, rest)) :
    ∃ source : Source α ε, source.Delivers rest ∧
      readFrom take atClose buffer (chunks.map .ok ++ later) = .ok (taken, source) := by
  induction chunks generalizing buffer with
  | nil =>
    simp only [List.flatten_nil, List.append_nil] at htake
    refine ⟨⟨rest, later⟩, ⟨[], later, by simp, by simp, by simp⟩, ?_⟩
    cases later <;> simp [readFrom, htake]
  | cons chunk chunks ih =>
    cases hnow : take buffer with
    | some found =>
      obtain ⟨taken', rest'⟩ := found
      have hwhole := hsettled hnow (chunk :: chunks).flatten
      rw [htake] at hwhole
      cases hwhole
      refine ⟨⟨rest', (chunk :: chunks).map .ok ++ later⟩, ⟨chunk :: chunks, later, rfl, hchunks, rfl⟩, ?_⟩
      simp [readFrom, hnow]
    | none =>
      obtain ⟨a, tail, rfl⟩ := List.exists_cons_of_ne_nil (hchunks chunk (by simp))
      obtain ⟨source, hsource, hread⟩ := ih (buffer ++ a :: tail)
        (fun c hc => hchunks c (by simp [hc])) (by simpa [List.append_assoc] using htake)
      refine ⟨source, hsource, ?_⟩
      simp only [List.map_cons, List.cons_append, readFrom, hnow]
      exact hread

/-- A reader returns what it finds at the front, or what is judged of the rest. -/
theorem readFrom_ok {take : List α → Option (List α × List α)} {atClose : List α → Except ε (List α × Source α ε)}
    {buffer taken : List α} {arrivals : List (Except ε (List α))} {source : Source α ε}
    (h : readFrom take atClose buffer arrivals = .ok (taken, source)) :
    (∃ symbols rest, take symbols = some (taken, rest)) ∨
      ∃ symbols, take symbols = none ∧ atClose symbols = .ok (taken, source) := by
  induction arrivals generalizing buffer with
  | nil =>
    rw [readFrom] at h
    cases found : take buffer with
    | some cut =>
      rw [found] at h
      cases h
      exact .inl ⟨buffer, _, found⟩
    | none =>
      rw [found] at h
      exact .inr ⟨buffer, found, h⟩
  | cons arrival arrivals ih =>
    cases found : take buffer with
    | some cut =>
      obtain ⟨taken', rest⟩ := cut
      unfold readFrom at h
      rw [found] at h
      cases h
      exact .inl ⟨buffer, rest, found⟩
    | none =>
      match arrival with
      | .error e =>
        simp [readFrom, found] at h
      | .ok [] =>
        simp only [readFrom, found] at h
        exact .inr ⟨buffer, found, h⟩
      | .ok (a :: chunk) =>
        simp only [readFrom, found] at h
        exact ih h

namespace Source

/-- Up to its last symbol, what is read up to a stop symbol does not have it. -/
theorem readUntil_ok [DecidableEq α] {source source' : Source α ε} {stop : α} {taken : List α}
    (h : source.readUntil stop = .ok (taken, source')) : stop ∉ taken.dropLast := by
  rcases readFrom_ok h with ⟨symbols, rest, found⟩ | ⟨symbols, none, close⟩
  · obtain ⟨line, rfl, fresh⟩ := cutAfter_eq_some found
    rwa [List.dropLast_concat]
  · cases close
    exact fun mem => cutAfter_eq_none.1 none (List.dropLast_subset _ mem)

theorem readExact_ok {closed : ε} {count : Nat} {source source' : Source α ε} {taken : List α}
    (h : source.readExact closed count = .ok (taken, source')) : taken.length = count := by
  rcases readFrom_ok h with ⟨symbols, rest, found⟩ | ⟨symbols, -, close⟩
  · rw [cutAt] at found
    split_ifs at found with long
    cases found
    exact List.length_take_of_le long
  · cases close

theorem Delivers.readUntil [DecidableEq α] {source : Source α ε} {stop : α} {line rest : List α}
    (h : source.Delivers (line ++ stop :: rest)) (hline : stop ∉ line) :
    ∃ source' : Source α ε, source'.Delivers rest ∧
      source.readUntil stop = .ok (line ++ [stop], source') := by
  obtain ⟨chunks, later, harrivals, hchunks, hsymbols⟩ := h
  unfold Source.readUntil
  rw [harrivals]
  apply readFrom_delivers (settled_cutAfter stop) _ chunks later _ hchunks
  rw [hsymbols]
  exact cutAfter_append hline rest

theorem Delivers.readExact {source : Source α ε} {front rest : List α} (closed : ε)
    (h : source.Delivers (front ++ rest)) :
    ∃ source' : Source α ε, source'.Delivers rest ∧
      source.readExact closed front.length = .ok (front, source') := by
  obtain ⟨chunks, later, harrivals, hchunks, hsymbols⟩ := h
  unfold Source.readExact
  rw [harrivals]
  apply readFrom_delivers (settled_cutAt front.length) _ chunks later _ hchunks
  rw [hsymbols]
  exact cutAt_append front rest

end Source

end SupraHarness.Chunks
