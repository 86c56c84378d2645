import Mathlib.Data.List.Basic

/-!
# Framing

A stream of symbols that falls into frames. A framing finds the end of the first complete frame
of a buffer, and what it has found stays found when more arrives. A reader drains the complete
frames of its buffer into a state and keeps the rest, so what it has read is a function of the
symbols alone and not of the chunks they came in.
-/
namespace SupraHarness

/-- A search for the end of the first frame that no later symbol changes. -/
structure Framing (α : Type) where
  findEnd : List α → Option Nat
  pos : ∀ {b e}, findEnd b = some e → 0 < e
  le : ∀ {b e}, findEnd b = some e → e ≤ b.length
  append : ∀ {b e}, findEnd b = some e → ∀ c, findEnd (b ++ c) = some e
  shorten : ∀ {b c e}, findEnd (b ++ c) = some e → e ≤ b.length → findEnd b = some e

namespace Framing

variable {α σ ε : Type} (F : Framing α) (handle : σ → List α → Except ε σ)

/-- Handle every complete frame of the buffer, and keep the rest. -/
def drain (s : σ) (buffer : List α) : Except ε (σ × List α) :=
  match _h : F.findEnd buffer with
  | none => .ok (s, buffer)
  | some stop =>
    match handle s (buffer.take stop) with
    | .error exit => .error exit
    | .ok s' => drain s' (buffer.drop stop)
termination_by buffer.length
decreasing_by
  have hpos := F.pos _h
  have hle := F.le _h
  simp only [List.length_drop]
  omega

/-- Chunk after chunk: append it to the buffer, and drain. -/
def readChunks (s : σ) (buffer : List α) : List (List α) → Except ε (σ × List α)
  | [] => .ok (s, buffer)
  | chunk :: chunks =>
    match drain F handle s (buffer ++ chunk) with
    | .error exit => .error exit
    | .ok (s', rest) => readChunks s' rest chunks

theorem drain_none {buffer : List α} (h : F.findEnd buffer = none) (s : σ) :
    drain F handle s buffer = .ok (s, buffer) := by
  rw [drain]
  split
  · rfl
  · next stop hsome =>
    rw [h] at hsome
    cases hsome

theorem drain_some {buffer : List α} {stop : Nat} (h : F.findEnd buffer = some stop) (s : σ) :
    drain F handle s buffer =
      (handle s (buffer.take stop)).bind fun s' => drain F handle s' (buffer.drop stop) := by
  rw [drain]
  split
  · next hnone =>
    rw [h] at hnone
    cases hnone
  · next stop' hsome =>
    obtain rfl : stop' = stop := by
      rw [h] at hsome
      exact (Option.some.inj hsome).symm
    cases handle s (buffer.take stop') <;> rfl

/-- What is left after draining holds no complete frame. -/
theorem findEnd_rest {s : σ} {buffer : List α} {r : σ × List α}
    (h : drain F handle s buffer = .ok r) : F.findEnd r.2 = none := by
  induction hn : buffer.length using Nat.strongRecOn generalizing s buffer with
  | ind n ih =>
    cases hf : F.findEnd buffer with
    | none =>
      rw [drain_none F handle hf] at h
      cases h
      exact hf
    | some stop =>
      rw [drain_some F handle hf] at h
      cases hs : handle s (buffer.take stop) with
      | error exit =>
        rw [hs] at h
        cases h
      | ok s' =>
        rw [hs] at h
        have hpos := F.pos hf
        have hle := F.le hf
        exact ih (buffer.drop stop).length (by simp only [List.length_drop]; omega) h rfl

/-- What handling a frame keeps, draining keeps. -/
theorem drain_keeps {P : σ → Prop} (hhandle : ∀ s frame s', P s → handle s frame = .ok s' → P s') {s : σ}
    {buffer : List α} {r : σ × List α} (h : drain F handle s buffer = .ok r) (hs : P s) : P r.1 := by
  induction hn : buffer.length using Nat.strongRecOn generalizing s buffer with
  | ind n ih =>
    cases hf : F.findEnd buffer with
    | none =>
      rw [drain_none F handle hf] at h
      cases h
      exact hs
    | some stop =>
      rw [drain_some F handle hf] at h
      cases hstep : handle s (buffer.take stop) with
      | error exit =>
        rw [hstep] at h
        cases h
      | ok s' =>
        rw [hstep] at h
        have hpos := F.pos hf
        have hle := F.le hf
        exact ih (buffer.drop stop).length (by simp only [List.length_drop]; omega) h (hhandle s _ s' hs hstep) rfl

/-- Draining a longer buffer is draining its front, and then what that left with the new end. -/
theorem drain_append (s : σ) (buffer more : List α) :
    drain F handle s (buffer ++ more) =
      (drain F handle s buffer).bind fun r => drain F handle r.1 (r.2 ++ more) := by
  induction hn : buffer.length using Nat.strongRecOn generalizing s buffer with
  | ind n ih =>
    cases hf : F.findEnd buffer with
    | none =>
      rw [drain_none F handle hf]
      rfl
    | some stop =>
      have hpos := F.pos hf
      have hle := F.le hf
      rw [drain_some F handle hf, drain_some F handle (F.append hf more),
        List.take_append_of_le_length hle, List.drop_append_of_le_length hle]
      cases handle s (buffer.take stop) with
      | error exit => rfl
      | ok s' =>
        exact ih (buffer.drop stop).length (by simp only [List.length_drop]; omega) s' _ rfl

/-- However the symbols are cut, the reader has read the whole of them. -/
theorem readChunks_eq_drain (s : σ) {buffer : List α} (h : F.findEnd buffer = none)
    (chunks : List (List α)) :
    readChunks F handle s buffer chunks = drain F handle s (buffer ++ chunks.flatten) := by
  induction chunks generalizing s buffer with
  | nil =>
    rw [List.flatten_nil, List.append_nil, drain_none F handle h]
    rfl
  | cons chunk chunks ih =>
    rw [List.flatten_cons, ← List.append_assoc, drain_append, readChunks]
    cases hd : drain F handle s (buffer ++ chunk) with
    | error exit => rfl
    | ok r => exact ih r.1 (findEnd_rest F handle hd)

/-- Where handled frames and the final rest keep within a bound, so does every rest on the way. -/
theorem rest_le_of_append {s : σ} {buffer more : List α} {r : σ × List α} {bound : Nat}
    (hn : F.findEnd buffer = none)
    (hbound : ∀ s frame s', handle s frame = .ok s' → frame.length ≤ bound)
    (h : drain F handle s (buffer ++ more) = .ok r) (hr : r.2.length ≤ bound) :
    buffer.length ≤ bound := by
  cases hf : F.findEnd (buffer ++ more) with
  | none =>
    rw [drain_none F handle hf] at h
    cases h
    simp only [List.length_append] at hr
    omega
  | some stop =>
    rw [drain_some F handle hf] at h
    cases hs : handle s ((buffer ++ more).take stop) with
    | error exit =>
      rw [hs] at h
      cases h
    | ok s' =>
      have hlen := hbound s _ s' hs
      have hle := F.le hf
      rw [List.length_take, Nat.min_eq_left hle] at hlen
      rcases Nat.lt_or_ge buffer.length stop with hlt | hge
      · omega
      · rw [F.shorten hf hge] at hn
        cases hn

/-! ## Searches for the first end -/

/-- The shortest front of a buffer with a property is so long. -/
structure FirstEnd (P : List α → Prop) (buffer : List α) (stop : Nat) : Prop where
  le : stop ≤ buffer.length
  holds : P (buffer.take stop)
  first : ∀ earlier < stop, ¬ P (buffer.take earlier)

/-- A search that finds the shortest front with a property, where there is one. -/
def Finds (find : List α → Option Nat) (P : List α → Prop) : Prop :=
  ∀ buffer stop, find buffer = some stop ↔ FirstEnd P buffer stop

theorem FirstEnd.append {P : List α → Prop} {buffer : List α} {stop : Nat}
    (h : FirstEnd P buffer stop) (more : List α) : FirstEnd P (buffer ++ more) stop := by
  have htake : ∀ n ≤ stop, (buffer ++ more).take n = buffer.take n := fun n hn =>
    List.take_append_of_le_length (Nat.le_trans hn h.le)
  constructor
  · have hle := h.le
    simp only [List.length_append]
    omega
  · rw [htake stop (Nat.le_refl _)]
    exact h.holds
  · intro earlier hlt
    rw [htake earlier (Nat.le_of_lt hlt)]
    exact h.first earlier hlt

theorem FirstEnd.shorten {P : List α → Prop} {buffer more : List α} {stop : Nat}
    (h : FirstEnd P (buffer ++ more) stop) (hle : stop ≤ buffer.length) :
    FirstEnd P buffer stop := by
  have htake : ∀ n ≤ stop, (buffer ++ more).take n = buffer.take n := fun n hn =>
    List.take_append_of_le_length (Nat.le_trans hn hle)
  constructor
  · exact hle
  · rw [← htake stop (Nat.le_refl _)]
    exact h.holds
  · intro earlier hlt
    rw [← htake earlier (Nat.le_of_lt hlt)]
    exact h.first earlier hlt

/-- A search for the first end frames a stream, unless the empty front is one. -/
def Finds.framing {find : List α → Option Nat} {P : List α → Prop} (h : Finds find P)
    (hnil : ¬ P []) : Framing α where
  findEnd := find
  pos := by
    intro buffer stop hs
    have hend := ((h buffer stop).mp hs).holds
    rcases Nat.eq_zero_or_pos stop with rfl | hpos
    · exact absurd hend hnil
    · exact hpos
  le hs := ((h _ _).mp hs).le
  append hs more := (h _ _).mpr (((h _ _).mp hs).append more)
  shorten hs hle := (h _ _).mpr (((h _ _).mp hs).shorten hle)

/-- The earlier of two ends. -/
def firstOf (left right : Option Nat) : Option Nat :=
  match left, right with
  | some l, some r => some (min l r)
  | left, right => left <|> right

theorem firstOf_eq_none {left right : Option Nat} :
    firstOf left right = none ↔ left = none ∧ right = none := by
  cases left <;> cases right <;> simp [firstOf]

theorem Finds.none {find : List α → Option Nat} {P : List α → Prop} (h : Finds find P)
    {buffer : List α} (hn : find buffer = none) {stop : Nat} (hle : stop ≤ buffer.length) :
    ¬ P (buffer.take stop) := by
  induction stop using Nat.strongRecOn with
  | ind stop ih =>
    intro hP
    have hfirst : FirstEnd P buffer stop :=
      ⟨hle, hP, fun earlier hlt => ih earlier hlt (by omega)⟩
    rw [(h buffer stop).mpr hfirst] at hn
    cases hn

theorem FirstEnd.unique {P : List α → Prop} {buffer : List α} {stop stop' : Nat}
    (h : FirstEnd P buffer stop) (h' : FirstEnd P buffer stop') : stop = stop' := by
  rcases Nat.lt_trichotomy stop stop' with hlt | heq | hlt
  · exact absurd h.holds (h'.first stop hlt)
  · exact heq
  · exact absurd h'.holds (h.first stop' hlt)

theorem FirstEnd.or_left {P Q : List α → Prop} {buffer : List α} {stop : Nat}
    (h : FirstEnd P buffer stop) (hQ : ∀ earlier < stop, ¬ Q (buffer.take earlier)) :
    FirstEnd (fun front => P front ∨ Q front) buffer stop := by
  refine ⟨h.le, .inl h.holds, fun earlier hlt => ?_⟩
  rintro (hP | hQ')
  · exact h.first earlier hlt hP
  · exact hQ earlier hlt hQ'

theorem FirstEnd.or_comm {P Q : List α → Prop} {buffer : List α} {stop : Nat}
    (h : FirstEnd (fun front => P front ∨ Q front) buffer stop) :
    FirstEnd (fun front => Q front ∨ P front) buffer stop :=
  ⟨h.le, h.holds.symm, fun earlier hlt hor => h.first earlier hlt hor.symm⟩

theorem firstOf_sound {f g : List α → Option Nat} {P Q : List α → Prop} (hf : Finds f P)
    (hg : Finds g Q) {buffer : List α} {stop : Nat}
    (h : firstOf (f buffer) (g buffer) = some stop) :
    FirstEnd (fun front => P front ∨ Q front) buffer stop := by
  cases hl : f buffer with
  | none =>
    cases hr : g buffer with
    | none =>
      rw [hl, hr] at h
      cases h
    | some right =>
      rw [hl, hr] at h
      have hright := (hg buffer right).mp hr
      rw [← Option.some.inj h]
      apply FirstEnd.or_comm
      exact hright.or_left fun earlier hlt => hf.none hl (Nat.le_trans (Nat.le_of_lt hlt) hright.le)
  | some left =>
    have hleft := (hf buffer left).mp hl
    cases hr : g buffer with
    | none =>
      rw [hl, hr] at h
      rw [← Option.some.inj h]
      exact hleft.or_left fun earlier hlt => hg.none hr (Nat.le_trans (Nat.le_of_lt hlt) hleft.le)
    | some right =>
      rw [hl, hr] at h
      have hright := (hg buffer right).mp hr
      have hmin : min left right = stop := Option.some.inj h
      rcases Nat.le_total left right with hle | hle
      · rw [← hmin, Nat.min_eq_left hle]
        exact hleft.or_left fun earlier hlt => hright.first earlier (by omega)
      · rw [← hmin, Nat.min_eq_right hle]
        apply FirstEnd.or_comm
        exact hright.or_left fun earlier hlt => hleft.first earlier (by omega)

/-- Two searches together find the first end of either kind. -/
theorem Finds.firstOf {f g : List α → Option Nat} {P Q : List α → Prop} (hf : Finds f P)
    (hg : Finds g Q) :
    Finds (fun buffer => Framing.firstOf (f buffer) (g buffer))
      (fun front => P front ∨ Q front) := by
  intro buffer stop
  constructor
  · exact firstOf_sound hf hg
  · intro h
    change Framing.firstOf (f buffer) (g buffer) = some stop
    cases hs : Framing.firstOf (f buffer) (g buffer) with
    | some found => rw [(firstOf_sound hf hg hs).unique h]
    | none =>
      have hnone := firstOf_eq_none.mp hs
      rcases h.holds with hP | hQ
      · exact absurd hP (hf.none hnone.1 h.le)
      · exact absurd hQ (hg.none hnone.2 h.le)

/-! ## Searches for a delimiter -/

/-- The parts of so many symbols of a buffer, in order. -/
def windows (size : Nat) (buffer : List α) : List (List α) :=
  (List.range (buffer.length + 1 - size)).map fun start => (buffer.drop start).take size

/-- Where a part first occurs in a buffer. -/
def position [DecidableEq α] (part buffer : List α) : Option Nat :=
  (windows part.length buffer).findIdx? (· == part)

theorem window_eq_iff {part buffer : List α} {start : Nat}
    (h : start + part.length ≤ buffer.length) :
    (buffer.drop start).take part.length = part ↔ part <:+ buffer.take (start + part.length) := by
  rw [List.suffix_iff_eq_drop, List.length_take, Nat.min_eq_left h, Nat.add_sub_cancel,
    List.drop_take, Nat.add_sub_cancel_left]
  exact eq_comm

theorem position_finds [DecidableEq α] (part : List α) :
    Finds (fun buffer => (position part buffer).map (· + part.length)) (part <:+ ·) := by
  intro buffer stop
  simp only [Option.map_eq_some_iff, position, List.findIdx?_eq_some_iff_getElem, windows,
    List.length_map, List.length_range, List.getElem_map, List.getElem_range, beq_iff_eq]
  constructor
  · rintro ⟨start, ⟨hlt, hat, hbefore⟩, rfl⟩
    have hle : start + part.length ≤ buffer.length := by omega
    refine ⟨hle, (window_eq_iff hle).mp hat, fun earlier hearlier hs => ?_⟩
    have hlen := hs.length_le
    simp only [List.length_take] at hlen
    refine hbefore (earlier - part.length) (by omega) ((window_eq_iff (by omega)).mpr ?_)
    rwa [Nat.sub_add_cancel (by omega)]
  · rintro ⟨hle, hs, hfirst⟩
    have hlen := hs.length_le
    simp only [List.length_take] at hlen
    have hstop : stop - part.length + part.length = stop := Nat.sub_add_cancel (by omega)
    refine ⟨stop - part.length, ⟨by omega, ?_, fun start hlt hat => ?_⟩, hstop⟩
    · rw [window_eq_iff (by omega), hstop]
      exact hs
    · exact hfirst (start + part.length) (by omega) ((window_eq_iff (by omega)).mp hat)

end Framing
end SupraHarness
