import SupraHarness.Lib.Chunks

/-!
# Lines with a cap that is looked at between chunks

A reader takes the chunks of a stream one by one until a stop symbol ends its line, and looks at the length of
what it has only where a chunk ends without one. So a line is refused where a chunk ends beyond the cap and
before the line does, and a line that no chunk cuts there is taken at any length.
-/
namespace SupraHarness.CappedLines

open Chunks (cutAfter cutAfter_cons cutAfter_append cutAfter_eq_none)

variable {α : Type}

/-- What comes of reading a line, with the chunks that are left. -/
inductive Read (α : Type) where
  | line (line : List α) (chunks : List (List α))
  | ended (line : List α)
  | over (chunks : List (List α))
  deriving DecidableEq, Repr

/-- The chunks that are left. -/
def Read.left : Read α → List (List α)
  | .line _ chunks => chunks
  | .ended _ => []
  | .over chunks => chunks

/-- The chunk that is left of one that was read from, if any is. -/
def putBack (rest : List α) (chunks : List (List α)) : List (List α) :=
  if rest = [] then chunks else rest :: chunks

/-- Read a line, its stop symbol included, from what was read of it. -/
def readLine [DecidableEq α] (cap : Nat) (stop : α) (line : List α) : List (List α) → Read α
  | [] => .ended line
  | chunk :: chunks =>
    match cutAfter stop chunk with
    | some (front, rest) => .line (line ++ front) (putBack rest chunks)
    | none => if cap < (line ++ chunk).length then .over chunks else readLine cap stop (line ++ chunk) chunks

/-- A chunk ends at this position of the stream. -/
def Boundary (chunks : List (List α)) (position : Nat) : Prop :=
  ∃ front back, chunks = front ++ back ∧ front.flatten.length = position

/-- A line of which something is read, and which goes on from a position for a length: a chunk ends in it where it
is beyond the cap. -/
def Cut (cap seen : Nat) (chunks : List (List α)) (start length : Nat) : Prop :=
  ∃ position, 0 < position ∧ Boundary chunks (start + position) ∧ cap < seen + position ∧ position ≤ length

/-! ## Boundaries -/

theorem boundary_cons_iff {chunk : List α} {chunks : List (List α)} {position : Nat} (pos : 0 < position) :
    Boundary (chunk :: chunks) position ↔ ∃ further, Boundary chunks further ∧ position = chunk.length + further := by
  constructor
  · rintro ⟨front, back, equal, rfl⟩
    cases front with
    | nil => exact absurd pos (Nat.lt_irrefl _)
    | cons first front =>
      obtain ⟨rfl, rfl⟩ := List.cons.inj equal
      exact ⟨_, ⟨front, back, rfl, rfl⟩, by rw [List.flatten_cons, List.length_append]⟩
  · rintro ⟨further, ⟨front, back, rfl, rfl⟩, rfl⟩
    exact ⟨chunk :: front, back, rfl, by rw [List.flatten_cons, List.length_append]⟩

theorem boundary_zero (chunks : List (List α)) : Boundary chunks 0 := ⟨[], chunks, rfl, rfl⟩

theorem boundary_total (chunks : List (List α)) : Boundary chunks chunks.flatten.length :=
  ⟨chunks, [], (List.append_nil _).symm, rfl⟩

theorem Boundary.le {chunks : List (List α)} {position : Nat} (h : Boundary chunks position) :
    position ≤ chunks.flatten.length := by
  obtain ⟨front, back, rfl, rfl⟩ := h
  rw [List.flatten_append, List.length_append]
  exact Nat.le_add_right _ _

@[simp] theorem flatten_putBack (rest : List α) (chunks : List (List α)) :
    (putBack rest chunks).flatten = rest ++ chunks.flatten := by
  rw [putBack]
  split_ifs with empty
  · rw [empty, List.nil_append]
  · rw [List.flatten_cons]

theorem boundary_putBack {rest : List α} {chunks : List (List α)} {position : Nat} (pos : 0 < position) :
    Boundary (putBack rest chunks) position ↔ Boundary (rest :: chunks) position := by
  rw [putBack]
  split_ifs with empty
  · rw [boundary_cons_iff pos, empty]
    simp
  · exact Iff.rfl

theorem putBack_nonempty {rest : List α} {chunks : List (List α)} (nonempty : ∀ chunk ∈ chunks, chunk ≠ []) :
    ∀ chunk ∈ putBack rest chunks, chunk ≠ [] := by
  rw [putBack]
  split_ifs with empty
  · exact nonempty
  · exact List.forall_mem_cons.2 ⟨empty, nonempty⟩

/-- A line that the first chunk has no end of goes on in the others. -/
theorem cut_cons_iff {cap seen : Nat} {chunk : List α} {chunks : List (List α)} {length : Nat} (long : 0 < chunk.length)
    (further : chunk.length ≤ length) : Cut cap seen (chunk :: chunks) 0 length ↔
      cap < seen + chunk.length ∨ Cut cap (seen + chunk.length) chunks 0 (length - chunk.length) := by
  simp only [Cut, Nat.zero_add]
  constructor
  · rintro ⟨position, pos, ends, beyond, inside⟩
    obtain ⟨later, boundary, rfl⟩ := (boundary_cons_iff pos).1 ends
    rcases Nat.eq_zero_or_pos later with rfl | more
    · exact .inl beyond
    · exact .inr ⟨later, more, boundary, by omega, by omega⟩
  · rintro (beyond | ⟨later, pos, boundary, beyond, inside⟩)
    · exact ⟨chunk.length, long, (boundary_cons_iff long).2 ⟨0, boundary_zero chunks, rfl⟩, beyond, further⟩
    · have long : 0 < chunk.length + later := by omega
      exact ⟨_, long, (boundary_cons_iff long).2 ⟨later, boundary, rfl⟩, by omega, by omega⟩

/-- A line that ends in the first chunk is not cut. -/
theorem not_cut_cons {cap seen : Nat} {chunk : List α} {chunks : List (List α)} {length : Nat}
    (short : length < chunk.length) : ¬ Cut cap seen (chunk :: chunks) 0 length := by
  rintro ⟨position, pos, boundary, -, inside⟩
  rw [Nat.zero_add] at boundary
  obtain ⟨later, -, rfl⟩ := (boundary_cons_iff pos).1 boundary
  omega

/-! ## What a read comes to -/

variable [DecidableEq α] {stop : α}

theorem readLine_cons (cap : Nat) (line chunk : List α) (chunks : List (List α)) :
    readLine cap stop line (chunk :: chunks) =
      match cutAfter stop chunk with
      | some (front, rest) => .line (line ++ front) (putBack rest chunks)
      | none => if cap < (line ++ chunk).length then .over chunks else readLine cap stop (line ++ chunk) chunks := rfl

theorem left_nonempty (cap : Nat) (line : List α) {chunks : List (List α)} (nonempty : ∀ chunk ∈ chunks, chunk ≠ []) :
    ∀ chunk ∈ (readLine cap stop line chunks).left, chunk ≠ [] := by
  induction chunks generalizing line with
  | nil => exact nofun
  | cons chunk chunks ih =>
    have others := (List.forall_mem_cons.1 nonempty).2
    rw [readLine_cons]
    cases cutAfter stop chunk with
    | some cut => exact putBack_nonempty others
    | none =>
      dsimp only
      split_ifs
      · exact others
      · exact ih (line ++ chunk) others

theorem length_of_cutAfter {symbols front rest : List α} (cut : cutAfter stop symbols = some (front, rest)) :
    rest.length < symbols.length := by
  induction symbols generalizing front with
  | nil => cases cut
  | cons a symbols ih =>
    rw [cutAfter_cons] at cut
    split_ifs at cut with same
    · cases cut
      exact Nat.lt_succ_self _
    · obtain ⟨⟨front', rest'⟩, found, equal⟩ := Option.map_eq_some_iff.1 cut
      cases equal
      exact Nat.lt_succ_of_lt (ih found)

/-- A line that is taken makes the stream shorter. -/
theorem length_of_readLine {cap : Nat} {line taken : List α} {chunks rest : List (List α)}
    (read : readLine cap stop line chunks = .line taken rest) : rest.flatten.length < chunks.flatten.length := by
  induction chunks generalizing line with
  | nil => cases read
  | cons chunk chunks ih =>
    rw [readLine_cons] at read
    rw [List.flatten_cons, List.length_append]
    cases cut : cutAfter stop chunk with
    | some found =>
      have shorter := length_of_cutAfter cut
      rw [cut] at read
      cases read
      rw [flatten_putBack, List.length_append]
      omega
    | none =>
      rw [cut] at read
      dsimp only at read
      split_ifs at read
      have shorter := ih read
      omega

theorem flatten_of_ended {cap : Nat} {line last : List α} {chunks : List (List α)}
    (read : readLine cap stop line chunks = .ended last) : last = line ++ chunks.flatten := by
  induction chunks generalizing line with
  | nil =>
    cases read
    rw [List.flatten_nil, List.append_nil]
  | cons chunk chunks ih =>
    rw [readLine_cons] at read
    cases cut : cutAfter stop chunk with
    | some found =>
      rw [cut] at read
      cases read
    | none =>
      rw [cut] at read
      dsimp only at read
      split_ifs at read
      rw [ih read, List.flatten_cons, List.append_assoc]

/-- The chunks that are left when a line was taken are those behind it. -/
structure Behind (chunks : List (List α)) (taken : Nat) (more : List α) (rest : List (List α)) : Prop where
  flatten : rest.flatten = more
  nonempty : ∀ chunk ∈ rest, chunk ≠ []
  boundary : ∀ position, 0 < position → (Boundary rest position ↔ Boundary chunks (taken + position))

/-- A line of the stream is refused if it is cut. -/
theorem readLine_cut {cap : Nat} {line text more : List α} {chunks : List (List α)}
    (nonempty : ∀ chunk ∈ chunks, chunk ≠ []) (fresh : stop ∉ text) (stream : chunks.flatten = text ++ stop :: more)
    (cut : Cut cap line.length chunks 0 text.length) : ∃ rest, readLine cap stop line chunks = .over rest := by
  induction chunks generalizing line text with
  | nil => exact absurd stream (by simp)
  | cons chunk chunks ih =>
    obtain ⟨full, others⟩ := List.forall_mem_cons.1 nonempty
    have long : 0 < chunk.length := List.length_pos_of_ne_nil full
    rw [List.flatten_cons] at stream
    by_cases short : text.length < chunk.length
    · exact absurd cut (not_cut_cons short)
    · have front : chunk <+: text ++ stop :: more := stream ▸ List.prefix_append _ _
      obtain ⟨text', rfl⟩ : chunk <+: text :=
        List.prefix_of_prefix_length_le front (List.prefix_append _ _) (Nat.not_lt.1 short)
      rw [List.append_assoc, List.append_cancel_left_eq] at stream
      rw [List.mem_append, not_or] at fresh
      rw [readLine_cons, cutAfter_eq_none.2 fresh.1]
      dsimp only
      split_ifs with beyond
      · exact ⟨chunks, rfl⟩
      · rw [List.length_append] at beyond
        rw [cut_cons_iff long (by simp), or_iff_right beyond, List.length_append, Nat.add_sub_cancel_left] at cut
        exact ih others fresh.2 stream (by rwa [List.length_append])

/-- A line of the stream is taken if it is not cut. -/
theorem readLine_whole {cap : Nat} {line text more : List α} {chunks : List (List α)}
    (nonempty : ∀ chunk ∈ chunks, chunk ≠ []) (fresh : stop ∉ text) (stream : chunks.flatten = text ++ stop :: more)
    (whole : ¬ Cut cap line.length chunks 0 text.length) :
    ∃ rest, readLine cap stop line chunks = .line (line ++ text ++ [stop]) rest ∧
      Behind chunks (text.length + 1) more rest := by
  induction chunks generalizing line text with
  | nil => exact absurd stream (by simp)
  | cons chunk chunks ih =>
    obtain ⟨full, others⟩ := List.forall_mem_cons.1 nonempty
    have long : 0 < chunk.length := List.length_pos_of_ne_nil full
    rw [List.flatten_cons] at stream
    by_cases short : text.length < chunk.length
    · obtain ⟨back, rfl⟩ : text ++ [stop] <+: chunk := by
        refine List.prefix_of_prefix_length_le ⟨more, ?_⟩ (List.prefix_append chunk chunks.flatten) ?_
        · rw [stream, List.append_assoc, List.singleton_append]
        · rw [List.length_append, List.length_singleton]
          exact short
      rw [List.append_assoc, List.append_assoc, List.append_cancel_left_eq, List.singleton_append, List.cons.injEq] at stream
      have found : cutAfter stop (text ++ [stop] ++ back) = some (text ++ [stop], back) := by
        rw [List.append_assoc]
        exact cutAfter_append fresh back
      refine ⟨putBack back chunks, ?_, ?_, putBack_nonempty others, ?_⟩
      · rw [readLine_cons, found]
        dsimp only
        rw [List.append_assoc]
      · rw [flatten_putBack]
        exact stream.2
      · intro position pos
        have further : 0 < text.length + 1 + position := by omega
        rw [boundary_putBack pos, boundary_cons_iff pos, boundary_cons_iff further]
        simp only [List.length_append, List.length_singleton]
        constructor
        · rintro ⟨later, boundary, rfl⟩
          exact ⟨later, boundary, by omega⟩
        · rintro ⟨later, boundary, equal⟩
          exact ⟨later, boundary, by omega⟩
    · have front : chunk <+: text ++ stop :: more := stream ▸ List.prefix_append _ _
      obtain ⟨text', rfl⟩ : chunk <+: text :=
        List.prefix_of_prefix_length_le front (List.prefix_append _ _) (Nat.not_lt.1 short)
      rw [List.append_assoc, List.append_cancel_left_eq] at stream
      rw [List.mem_append, not_or] at fresh
      rw [cut_cons_iff long (by simp), not_or, List.length_append, Nat.add_sub_cancel_left] at whole
      obtain ⟨rest, read, behind⟩ := @ih (line ++ chunk) text' others fresh.2 stream
        (by rw [List.length_append]; exact whole.2)
      refine ⟨rest, ?_, behind.flatten, behind.nonempty, ?_⟩
      · rw [readLine_cons, cutAfter_eq_none.2 fresh.1]
        dsimp only
        rw [if_neg (by rw [List.length_append]; exact whole.1), read, List.append_assoc line]
      · intro position pos
        have further : 0 < (chunk ++ text').length + 1 + position := by omega
        rw [behind.boundary position pos, boundary_cons_iff further, List.length_append]
        constructor
        · intro boundary
          exact ⟨_, boundary, by omega⟩
        · rintro ⟨later, boundary, equal⟩
          obtain rfl : text'.length + 1 + position = later := by omega
          exact boundary

/-- What is left of a stream without a stop symbol is refused if it is beyond the cap. -/
theorem readLine_last (cap : Nat) (line : List α) {chunks : List (List α)} (nonempty : ∀ chunk ∈ chunks, chunk ≠ [])
    (fresh : stop ∉ chunks.flatten) (some_ : chunks ≠ [] ∨ line.length ≤ cap) :
    readLine cap stop line chunks = .ended (line ++ chunks.flatten) ∧ (line ++ chunks.flatten).length ≤ cap ∨
      (∃ rest, readLine cap stop line chunks = .over rest) ∧ cap < (line ++ chunks.flatten).length := by
  induction chunks generalizing line with
  | nil =>
    have short := some_.resolve_left (not_not.2 rfl)
    rw [List.flatten_nil, List.append_nil]
    exact .inl ⟨rfl, short⟩
  | cons chunk chunks ih =>
    obtain ⟨full, others⟩ := List.forall_mem_cons.1 nonempty
    rw [List.flatten_cons, List.mem_append, not_or] at fresh
    rw [readLine_cons, cutAfter_eq_none.2 fresh.1, List.flatten_cons, ← List.append_assoc]
    dsimp only
    split_ifs with beyond
    · refine .inr ⟨⟨chunks, rfl⟩, ?_⟩
      rw [List.length_append]
      omega
    · exact ih (line ++ chunk) others fresh.2 (.inr (Nat.not_lt.1 beyond))

end SupraHarness.CappedLines
