import SupraHarness.Width.Tables
import SupraHarness.Width.Utf8

/-!
# Grapheme clusters

The forward scan of `grapheme.cpp`: a small state is carried from code point to code point, and a
cluster ends where the rules break. Beside it stand the rules of UAX #29 as the standard gives
them, each with its whole left context. The scan follows them everywhere but at one place: it
takes an emoji to be joined to an earlier one over any run of marks and joiners that ends in a
joiner, where GB11 allows marks and a single joiner.
-/
namespace SupraHarness.Width

open Ranges

/-- The grapheme cluster break property. -/
inductive Gcb where
  | other | cr | lf | control | extend | zwj | regionalIndicator | prepend | spacingMark
  | hangulL | hangulV | hangulT | hangulLV | hangulLVT
  deriving DecidableEq, Repr

def kZwj : Nat := 0x200D

def gcb (cp : Nat) : Gcb :=
  if cp = 0x0D then .cr
  else if cp = 0x0A then .lf
  else if cp = kZwj then .zwj
  else if cp < 0x20 ∨ (0x7F ≤ cp ∧ cp < 0xA0) then .control
  else if kRegionalIndicator.contains cp then .regionalIndicator
  else if kPrepend.contains cp then .prepend
  else if kSpacingMark.contains cp then .spacingMark
  else if kZeroWidth.contains cp then .extend
  else if isHangulLV cp then .hangulLV
  else if isHangulLVT cp then .hangulLVT
  else if kHangulL.contains cp then .hangulL
  else if kHangulV.contains cp then .hangulV
  else if kHangulT.contains cp then .hangulT
  else .other

def isExtendedPictographic (cp : Nat) : Bool := kExtendedPictographic.contains cp
def isIncbConsonant (cp : Nat) : Bool := kIncbConsonant.contains cp
def isIncbLinker (cp : Nat) : Bool := kIncbLinker.contains cp
def isIncbExtend (cp : Nat) : Bool := kIncbExtend.contains cp

/-! ## The scan -/

/-- The state the break rules carry from code point to code point. -/
structure ClusterState where
  riCount : Nat
  pictographicZwjPending : Bool
  incbConsonantSeen : Bool
  incbLinkerSeen : Bool
  deriving DecidableEq, Repr

def ClusterState.init : ClusterState := ⟨0, false, false, false⟩

/-- GB6, GB7 and GB8. -/
def syllable (a b : Gcb) : Bool :=
  (a == .hangulL && (b == .hangulL || b == .hangulV || b == .hangulLV || b == .hangulLVT)) ||
    ((a == .hangulLV || a == .hangulV) && (b == .hangulV || b == .hangulT)) ||
    ((a == .hangulLVT || a == .hangulT) && b == .hangulT)

/-- `Control | CR | LF`. -/
def Gcb.isControl (a : Gcb) : Bool := a == .control || a == .cr || a == .lf

def breaksBetween (prev next : Nat) (state : ClusterState) : Bool :=
  let a := gcb prev
  let b := gcb next
  if a == .cr && b == .lf then false
  else if a.isControl then true
  else if b.isControl then true
  else if syllable a b then false
  else if b == .extend || b == .zwj then false
  else if b == .spacingMark then false
  else if a == .prepend then false
  else if state.incbConsonantSeen && state.incbLinkerSeen && isIncbConsonant next then false
  else if a == .zwj && state.pictographicZwjPending && isExtendedPictographic next then false
  else if a == .regionalIndicator && b == .regionalIndicator then state.riCount % 2 == 0
  else true

def advanceState (state : ClusterState) (cp : Nat) : ClusterState :=
  let cls := gcb cp
  { riCount :=
      if cls = .regionalIndicator then state.riCount + 1
      else if cls ≠ .extend ∧ cls ≠ .zwj then 0
      else state.riCount
    pictographicZwjPending :=
      if isExtendedPictographic cp then true
      else if cls = .extend ∨ cp = kZwj then state.pictographicZwjPending
      else false
    incbConsonantSeen :=
      if isIncbConsonant cp then true
      else if isIncbLinker cp then state.incbConsonantSeen
      else if !isIncbExtend cp then false
      else state.incbConsonantSeen
    incbLinkerSeen :=
      if isIncbConsonant cp then false
      else if isIncbLinker cp then state.incbLinkerSeen || state.incbConsonantSeen
      else if !isIncbExtend cp then false
      else state.incbLinkerSeen }

/-- The loop of `clusterLength` over the scalars behind `current`: the bytes it adds. -/
def clusterLoop (current : Nat) (state : ClusterState) : List Decoded → Nat
  | [] => 0
  | next :: rest =>
    if breaksBetween current next.cp state then 0
    else next.len + clusterLoop next.cp (advanceState state next.cp) rest

/-- Byte length of the cluster at the start of a string. -/
def clusterLength (bytes : List UInt8) : Nat :=
  match scalars bytes with
  | [] => 0
  | current :: rest =>
    current.len + clusterLoop current.cp (advanceState .init current.cp) rest

/-- The caller's loop `while (offset < len)`: the offsets at which a cluster starts, the first
excepted. Each cluster has at least one byte. -/
def clusterStarts : Nat → Nat → List UInt8 → List Nat
  | 0, _, _ => []
  | fuel + 1, offset, bytes =>
    let len := clusterLength bytes
    if bytes.drop len = [] then []
    else (offset + len) :: clusterStarts fuel (offset + len) (bytes.drop len)

/-- Where a string is cut into clusters. -/
def boundaries (bytes : List UInt8) : List Nat := clusterStarts bytes.length 0 bytes

/-! ## The rules -/

/-- A context that ends in a `p` and then any number of `q`. -/
def Trailing (p q : Nat → Prop) (left : List Nat) : Prop :=
  ∃ pre c mid, left = pre ++ c :: mid ∧ p c ∧ ∀ x ∈ mid, q x

/-- The context of GB9c: a consonant, and then marks and linkers with a linker among them. -/
def ConjunctBefore (left : List Nat) : Prop :=
  ∃ pre c mid, left = pre ++ c :: mid ∧ isIncbConsonant c = true ∧
    (∀ x ∈ mid, isIncbExtend x = true ∨ isIncbLinker x = true) ∧ ∃ x ∈ mid, isIncbLinker x = true

/-- The context of GB11: an emoji, marks, and a joiner. -/
def EmojiBefore (left : List Nat) : Prop :=
  ∃ init z, left = init ++ [z] ∧ gcb z = .zwj ∧
    Trailing (isExtendedPictographic · = true) (gcb · = .extend) init

/-- The context of GB12 and GB13: an odd number of regional indicators. -/
def OddFlagsBefore (left : List Nat) : Prop :=
  (left.reverse.takeWhile (gcb · = .regionalIndicator)).length % 2 = 1

/-- No boundary between `a`, the last of `init ++ [a]`, and `b`: the first rule of GB3 to GB13
that applies is one that joins. -/
def Joins (init : List Nat) (a b : Nat) : Prop :=
  (gcb a = .cr ∧ gcb b = .lf) ∨
    ((gcb a).isControl = false ∧ (gcb b).isControl = false ∧
      (syllable (gcb a) (gcb b) = true ∨
        (gcb b = .extend ∨ gcb b = .zwj) ∨
        gcb b = .spacingMark ∨
        gcb a = .prepend ∨
        (ConjunctBefore (init ++ [a]) ∧ isIncbConsonant b = true) ∨
        (EmojiBefore (init ++ [a]) ∧ isExtendedPictographic b = true) ∨
        (OddFlagsBefore (init ++ [a]) ∧ gcb b = .regionalIndicator)))

/-- The boundaries of a string are those of the rules. -/
def FollowsRules (bytes : List UInt8) : Prop :=
  ∀ init a b rest, scalars bytes = init ++ a :: b :: rest →
    ((init.map Decoded.len).sum + a.len ∈ boundaries bytes ↔
      ¬ Joins (init.map Decoded.cp) a.cp b.cp)

/-- Two emoji with a joiner between them that has another joiner in front of it. -/
def DoublyJoined (cps : List Nat) : Prop :=
  ∃ pre p mid z q rest, cps = pre ++ p :: (mid ++ z :: q :: rest) ∧
    isExtendedPictographic p = true ∧ isExtendedPictographic q = true ∧ gcb z = .zwj ∧
    (∀ x ∈ mid, gcb x = .extend ∨ gcb x = .zwj) ∧ ∃ x ∈ mid, gcb x = .zwj

/-! ## What the tables say of a code point -/

/-- The ranges of `gcb` in front of the zero-width table. -/
def frontRanges : List Range :=
  ⟨0, 0x1F⟩ :: ⟨0x7F, 0x9F⟩ :: (kRegionalIndicator.ranges.toList ++ kPrepend.ranges.toList ++
    kSpacingMark.ranges.toList)

/-- And those behind it. -/
def backRanges : List Range :=
  ⟨0xAC00, 0xD7A3⟩ :: (kHangulL.ranges.toList ++ kHangulV.ranges.toList ++ kHangulT.ranges.toList)

def apartFromFront (t : Table) : Bool :=
  apart t.ranges.toList [⟨0, 0x1F⟩, ⟨0x7F, 0x9F⟩] && apart t.ranges.toList kRegionalIndicator.ranges.toList &&
    apart t.ranges.toList kPrepend.ranges.toList && apart t.ranges.toList kSpacingMark.ranges.toList

def apartFromBack (t : Table) : Bool :=
  apart t.ranges.toList [⟨0xAC00, 0xD7A3⟩] && apart t.ranges.toList kHangulL.ranges.toList &&
    apart t.ranges.toList kHangulV.ranges.toList && apart t.ranges.toList kHangulT.ranges.toList

theorem not_front {t : Table} {cp : Nat} (h : apartFromFront t = true) (hcp : t.contains cp = true) :
    ∀ r ∈ frontRanges, ¬ r.has cp := by
  simp only [apartFromFront, Bool.and_eq_true] at h
  obtain ⟨⟨⟨hc, hri⟩, hprepend⟩, hspacing⟩ := h
  have controls := not_has (by decide) hc hcp
  simp only [List.forall_mem_cons] at controls
  simp only [frontRanges, List.forall_mem_cons, List.forall_mem_append]
  exact ⟨controls.1, controls.2.1, ⟨not_has kRegionalIndicator.isSorted hri hcp,
    not_has kPrepend.isSorted hprepend hcp⟩, not_has kSpacingMark.isSorted hspacing hcp⟩

theorem not_back {t : Table} {cp : Nat} (h : apartFromBack t = true) (hcp : t.contains cp = true) :
    ∀ r ∈ backRanges, ¬ r.has cp := by
  simp only [apartFromBack, Bool.and_eq_true] at h
  obtain ⟨⟨⟨hs, hl⟩, hv⟩, ht⟩ := h
  have syllables := not_has (by decide) hs hcp
  simp only [List.forall_mem_cons] at syllables
  simp only [backRanges, List.forall_mem_cons, List.forall_mem_append]
  exact ⟨syllables.1, ⟨not_has kHangulL.isSorted hl hcp, not_has kHangulV.isSorted hv hcp⟩,
    not_has kHangulT.isSorted ht hcp⟩

theorem contains_false {t : Table} {cp : Nat} (h : ∀ r ∈ t.ranges.toList, ¬ r.has cp) :
    t.contains cp = false := by
  rw [← Bool.not_eq_true, contains_iff]
  rintro ⟨r, hr, hhas⟩
  exact h r hr hhas

/-- Outside the front ranges the zero-width table decides. -/
theorem gcb_front {cp : Nat} (h : ∀ r ∈ frontRanges, ¬ r.has cp) (hz : kZeroWidth.contains cp = true) :
    gcb cp = .extend ∨ gcb cp = .zwj := by
  simp only [frontRanges, List.forall_mem_cons, List.forall_mem_append, Range.has] at h
  obtain ⟨h1, h2, ⟨hri, hprepend⟩, hspacing⟩ := h
  have hcr : ¬ cp = 0x0D := by omega
  have hlf : ¬ cp = 0x0A := by omega
  have hcontrol : ¬ (cp < 0x20 ∨ (0x7F ≤ cp ∧ cp < 0xA0)) := by omega
  simp only [gcb, hcr, hlf, hcontrol, contains_false hri, contains_false hprepend,
    contains_false hspacing, hz, if_true, if_false, Bool.false_eq_true]
  split_ifs <;> simp

theorem gcb_other {cp : Nat} (h : ∀ r ∈ frontRanges ++ kZeroWidth.ranges.toList ++ backRanges,
    ¬ r.has cp) : gcb cp = .other := by
  simp only [frontRanges, backRanges, List.forall_mem_cons, List.forall_mem_append, Range.has,
    List.cons_append] at h
  obtain ⟨h1, h2, ⟨⟨⟨hri, hprepend⟩, hspacing⟩, hzero⟩, hsyllables, ⟨hl, hv⟩, ht⟩ := h
  have hcr : ¬ cp = 0x0D := by omega
  have hlf : ¬ cp = 0x0A := by omega
  have hcontrol : ¬ (cp < 0x20 ∨ (0x7F ≤ cp ∧ cp < 0xA0)) := by omega
  have hjoiner : ¬ cp = kZwj := by
    rintro rfl
    have hmem : kZeroWidth.contains kZwj = true := by decide +kernel
    rw [contains_false hzero] at hmem
    cases hmem
  have hlv : isHangulLV cp = false := by
    simp only [isHangulLV, kHangulSBase, kHangulSCount]
    grind
  have hlvt : isHangulLVT cp = false := by
    simp only [isHangulLVT, kHangulSBase, kHangulSCount]
    grind
  simp only [gcb, hcr, hlf, hcontrol, hjoiner, contains_false hri, contains_false hprepend,
    contains_false hspacing, contains_false hzero, contains_false hl, contains_false hv,
    contains_false ht, hlv, hlvt, if_false, Bool.false_eq_true]

/-- How the tables lie to each other: one walk along each pair. -/
theorem tables_apart :
    ((apartFromFront kExtendedPictographic = true ∧
        apart kExtendedPictographic.ranges.toList kZeroWidth.ranges.toList = true ∧
        apartFromBack kExtendedPictographic = true) ∧
      (apartFromFront kIncbConsonant = true ∧
        apart kIncbConsonant.ranges.toList kZeroWidth.ranges.toList = true ∧
        apartFromBack kIncbConsonant = true)) ∧
    ((apartFromFront kIncbLinker = true ∧
        within kIncbLinker.ranges.toList kZeroWidth.ranges.toList = true) ∧
      (apartFromFront kIncbExtend = true ∧
        within kIncbExtend.ranges.toList kZeroWidth.ranges.toList = true)) ∧
    apart kExtendedPictographic.ranges.toList kIncbConsonant.ranges.toList = true ∧
    apart kIncbLinker.ranges.toList kIncbConsonant.ranges.toList = true ∧
    apart kIncbExtend.ranges.toList kIncbConsonant.ranges.toList = true := by
  decide +kernel

/-- A member of a table that is apart from all of these ranges. -/
theorem gcb_apart {t : Table} {cp : Nat}
    (h : apartFromFront t = true ∧ apart t.ranges.toList kZeroWidth.ranges.toList = true ∧ apartFromBack t = true)
    (hcp : t.contains cp = true) : gcb cp = .other := by
  apply gcb_other
  simp only [List.forall_mem_append]
  exact ⟨⟨not_front h.1 hcp, not_has kZeroWidth.isSorted h.2.1 hcp⟩, not_back h.2.2 hcp⟩

/-- A member of a table that lies in the zero-width table and apart from the front ranges. -/
theorem gcb_within {t : Table} {cp : Nat}
    (h : apartFromFront t = true ∧ within t.ranges.toList kZeroWidth.ranges.toList = true)
    (hcp : t.contains cp = true) : gcb cp = .extend ∨ gcb cp = .zwj :=
  gcb_front (not_front h.1 hcp) (contains_of_within h.2 hcp)

theorem gcb_pictographic {cp : Nat} (h : isExtendedPictographic cp = true) : gcb cp = .other :=
  gcb_apart tables_apart.1.1 h

theorem gcb_consonant {cp : Nat} (h : isIncbConsonant cp = true) : gcb cp = .other :=
  gcb_apart tables_apart.1.2 h

theorem gcb_linker {cp : Nat} (h : isIncbLinker cp = true) : gcb cp = .extend ∨ gcb cp = .zwj :=
  gcb_within tables_apart.2.1.1 h

theorem gcb_incbExtend {cp : Nat} (h : isIncbExtend cp = true) : gcb cp = .extend ∨ gcb cp = .zwj :=
  gcb_within tables_apart.2.1.2 h

theorem pictographic_not_consonant {cp : Nat} (h : isExtendedPictographic cp = true) :
    isIncbConsonant cp = false :=
  not_contains_of_apart tables_apart.2.2.1 h

theorem linker_not_consonant {cp : Nat} (h : isIncbLinker cp = true) : isIncbConsonant cp = false :=
  not_contains_of_apart tables_apart.2.2.2.1 h

theorem incbExtend_not_consonant {cp : Nat} (h : isIncbExtend cp = true) :
    isIncbConsonant cp = false :=
  not_contains_of_apart tables_apart.2.2.2.2 h

theorem ite_ne {α : Type} {p : Prop} [Decidable p] {x y z : α} (hx : x ≠ z) (hy : y ≠ z) :
    (if p then x else y) ≠ z := by
  split_ifs
  · exact hx
  · exact hy

theorem gcb_zwj_iff (cp : Nat) : gcb cp = .zwj ↔ cp = kZwj := by
  constructor
  · intro h
    by_contra hn
    rw [gcb, if_neg hn] at h
    revert h
    repeat' apply ite_ne
    all_goals decide
  · rintro rfl
    rfl

/-! ## Contexts grow at their end -/

theorem trailing_snoc {p q : Nat → Prop} (left : List Nat) (x : Nat) :
    Trailing p q (left ++ [x]) ↔ p x ∨ (q x ∧ Trailing p q left) := by
  constructor
  · rintro ⟨pre, c, mid, heq, hc, hmid⟩
    rcases List.eq_nil_or_concat mid with rfl | ⟨mid', y, rfl⟩
    · obtain ⟨-, rfl⟩ : left = pre ∧ x = c := by simpa using heq
      exact .inl hc
    · obtain ⟨rfl, rfl⟩ : left = pre ++ c :: mid' ∧ x = y := by
        rw [List.concat_eq_append, ← List.cons_append, ← List.append_assoc] at heq
        exact List.append_singleton_inj.1 heq
      simp only [List.concat_eq_append, List.forall_mem_append, List.forall_mem_singleton] at hmid
      exact .inr ⟨hmid.2, pre, c, mid', rfl, hc, hmid.1⟩
  · rintro (hx | ⟨hx, pre, c, mid, rfl, hc, hmid⟩)
    · exact ⟨left, x, [], rfl, hx, by simp⟩
    · exact ⟨pre, c, mid ++ [x], by simp, hc,
        List.forall_mem_append.2 ⟨hmid, List.forall_mem_singleton.2 hx⟩⟩

theorem not_trailing_nil {p q : Nat → Prop} : ¬ Trailing p q [] := by
  rintro ⟨pre, c, mid, heq, -⟩
  simp at heq

/-- A consonant, and then marks and linkers. -/
def ConsonantBefore : List Nat → Prop :=
  Trailing (isIncbConsonant · = true) fun x => isIncbExtend x = true ∨ isIncbLinker x = true

/-- An emoji, and then marks and joiners. -/
def JoinedBefore : List Nat → Prop :=
  Trailing (isExtendedPictographic · = true) fun x => gcb x = .extend ∨ gcb x = .zwj

theorem conjunct_consonant {left : List Nat} (h : ConjunctBefore left) : ConsonantBefore left := by
  obtain ⟨pre, c, mid, rfl, hc, hmid, -⟩ := h
  exact ⟨pre, c, mid, rfl, hc, hmid⟩

theorem conjunct_snoc (left : List Nat) (x : Nat) :
    ConjunctBefore (left ++ [x]) ↔
      (isIncbLinker x = true ∧ ConsonantBefore left) ∨
        ((isIncbExtend x = true ∨ isIncbLinker x = true) ∧ ConjunctBefore left) := by
  constructor
  · rintro ⟨pre, c, mid, heq, hc, hmid, l, hl, hlinker⟩
    rcases List.eq_nil_or_concat mid with rfl | ⟨mid', y, rfl⟩
    · cases hl
    · obtain ⟨rfl, rfl⟩ : left = pre ++ c :: mid' ∧ x = y := by
        rw [List.concat_eq_append, ← List.cons_append, ← List.append_assoc] at heq
        exact List.append_singleton_inj.1 heq
      simp only [List.concat_eq_append, List.forall_mem_append, List.forall_mem_singleton] at hmid
      simp only [List.concat_eq_append, List.mem_append, List.mem_singleton] at hl
      rcases hl with hl | rfl
      · exact .inr ⟨hmid.2, pre, c, mid', rfl, hc, hmid.1, l, hl, hlinker⟩
      · exact .inl ⟨hlinker, pre, c, mid', rfl, hc, hmid.1⟩
  · rintro (⟨hx, pre, c, mid, rfl, hc, hmid⟩ | ⟨hx, pre, c, mid, rfl, hc, hmid, l, hl, hlinker⟩)
    · exact ⟨pre, c, mid ++ [x], by simp, hc,
        List.forall_mem_append.2 ⟨hmid, List.forall_mem_singleton.2 (.inr hx)⟩, x, by simp, hx⟩
    · exact ⟨pre, c, mid ++ [x], by simp, hc,
        List.forall_mem_append.2 ⟨hmid, List.forall_mem_singleton.2 hx⟩, l, by simp [hl], hlinker⟩

theorem oddFlags_snoc (left : List Nat) (x : Nat) :
    OddFlagsBefore (left ++ [x]) ↔ gcb x = .regionalIndicator ∧ ¬ OddFlagsBefore left := by
  simp only [OddFlagsBefore, List.reverse_append, List.reverse_singleton, List.singleton_append,
    List.takeWhile_cons]
  by_cases hx : gcb x = .regionalIndicator
  · simp only [hx, decide_true, if_true, List.length_cons, true_and]
    omega
  · simp [hx]

theorem emoji_snoc (left : List Nat) (z : Nat) :
    EmojiBefore (left ++ [z]) ↔ gcb z = .zwj ∧
      Trailing (isExtendedPictographic · = true) (gcb · = .extend) left := by
  constructor
  · rintro ⟨init, y, heq, hy, ht⟩
    obtain ⟨rfl, rfl⟩ := List.append_singleton_inj.1 heq
    exact ⟨hy, ht⟩
  · rintro ⟨hz, ht⟩
    exact ⟨left, z, rfl, hz, ht⟩

/-! ## The state is a summary of the context -/

/-- What the scan knows of the text up to `prev`, the last of it. -/
structure Summary (left : List Nat) (prev : Nat) (state : ClusterState) : Prop where
  flags : gcb prev = .regionalIndicator → (state.riCount % 2 = 1 ↔ OddFlagsBefore left)
  noFlags : gcb prev ≠ .regionalIndicator → gcb prev ≠ .extend → gcb prev ≠ .zwj → state.riCount = 0
  pending : state.pictographicZwjPending = true ↔ JoinedBefore left
  consonant : state.incbConsonantSeen = true ↔ ConsonantBefore left
  linker : state.incbLinkerSeen = true ↔ ConjunctBefore left

/-- Two code points between which the scan does not break. -/
def ScanJoins (init : List Nat) (a b : Nat) : Prop :=
  (gcb a = .cr ∧ gcb b = .lf) ∨
    ((gcb a).isControl = false ∧ (gcb b).isControl = false ∧
      (syllable (gcb a) (gcb b) = true ∨
        (gcb b = .extend ∨ gcb b = .zwj) ∨
        gcb b = .spacingMark ∨
        gcb a = .prepend ∨
        (ConjunctBefore (init ++ [a]) ∧ isIncbConsonant b = true) ∨
        ((gcb a = .zwj ∧ JoinedBefore (init ++ [a])) ∧ isExtendedPictographic b = true) ∨
        (OddFlagsBefore (init ++ [a]) ∧ gcb b = .regionalIndicator)))

theorem oddFlags_last {init : List Nat} {a : Nat} (h : OddFlagsBefore (init ++ [a])) :
    gcb a = .regionalIndicator :=
  ((oddFlags_snoc init a).1 h).1

/-- One joining rule in front of the others. -/
theorem ite_joins {c C P : Prop} [Decidable c] {x : Bool} (hc : c ↔ C) (h : x = false ↔ P) :
    (if c then false else x) = false ↔ C ∨ P := by
  rw [← hc, ← h]
  split_ifs with hx <;> simp [hx]

theorem breaksBetween_iff {init : List Nat} {a : Nat} {state : ClusterState}
    (h : Summary (init ++ [a]) a state) (b : Nat) :
    breaksBetween a b state = false ↔ ScanJoins init a b := by
  have hflags : gcb a = .regionalIndicator ∧ gcb b = .regionalIndicator →
      ((state.riCount % 2 == 0) = false ↔ OddFlagsBefore (init ++ [a])) := by
    rintro ⟨ha, -⟩
    rw [← h.flags ha, beq_eq_false_iff_ne]
    omega
  have hconjunct : (state.incbConsonantSeen && state.incbLinkerSeen) = true ↔
      ConjunctBefore (init ++ [a]) := by
    rw [Bool.and_eq_true, h.consonant, h.linker]
    exact ⟨And.right, fun hc => ⟨conjunct_consonant hc, hc⟩⟩
  have hpending := h.pending
  have hlast : OddFlagsBefore (init ++ [a]) → gcb a = .regionalIndicator := oddFlags_last
  simp only [breaksBetween, ScanJoins]
  by_cases h3 : gcb a = .cr ∧ gcb b = .lf
  · rw [if_pos (by simp [h3])]
    exact iff_of_true rfl (.inl h3)
  rw [if_neg (by simpa using h3)]
  by_cases h4 : (gcb a).isControl = true
  · rw [if_pos h4]
    simp [h3, h4]
  rw [if_neg h4]
  by_cases h5 : (gcb b).isControl = true
  · rw [if_pos h5]
    simp [h3, h5]
  rw [if_neg h5]
  simp only [h3, false_or, Bool.not_eq_true _ ▸ h4, Bool.not_eq_true _ ▸ h5, true_and]
  apply ite_joins Iff.rfl
  apply ite_joins (by simp)
  apply ite_joins (by simp)
  apply ite_joins (by simp)
  apply ite_joins (by rw [Bool.and_eq_true, hconjunct])
  apply ite_joins (by rw [Bool.and_eq_true, Bool.and_eq_true, beq_iff_eq, hpending])
  by_cases hri : gcb a = .regionalIndicator ∧ gcb b = .regionalIndicator
  · rw [if_pos (by simp [hri]), hflags hri]
    exact ⟨fun ho => ⟨ho, hri.2⟩, And.left⟩
  · rw [if_neg (by simpa using hri)]
    exact iff_of_false (by simp) fun ho => hri ⟨hlast ho.1, ho.2⟩

/-- A mark or a joiner starts a cluster behind a control only. -/
theorem control_of_break {prev next : Nat} {state : ClusterState}
    (h : breaksBetween prev next state = true) (hn : gcb next = .extend ∨ gcb next = .zwj) :
    (gcb prev).isControl = true := by
  by_contra hc
  rw [Bool.not_eq_true] at hc
  have hb : (gcb next).isControl = false := by rcases hn with hn | hn <;> rw [hn] <;> rfl
  have hjoin : breaksBetween prev next state = false := by
    rcases hn with hn | hn <;> rw [hn] at hb <;> simp [breaksBetween, hc, hn, hb]
  rw [h] at hjoin
  cases hjoin

/-- Nothing that a context of marks may end in is a control. -/
theorem not_trailing_control {p q : Nat → Prop} {left : List Nat} {prev : Nat}
    (hp : ∀ x, p x → (gcb x).isControl = false) (hq : ∀ x, q x → (gcb x).isControl = false)
    (hc : (gcb prev).isControl = true) : ¬ Trailing p q (left ++ [prev]) := by
  rw [trailing_snoc]
  rintro (h | ⟨h, -⟩)
  · simp [hp prev h] at hc
  · simp [hq prev h] at hc

theorem not_joinedBefore {left : List Nat} {prev : Nat} (hc : (gcb prev).isControl = true) :
    ¬ JoinedBefore (left ++ [prev]) := by
  apply not_trailing_control _ _ hc
  · intro x hx
    rw [gcb_pictographic hx]
    rfl
  · rintro x (hx | hx) <;> rw [hx] <;> rfl

theorem not_consonantBefore {left : List Nat} {prev : Nat} (hc : (gcb prev).isControl = true) :
    ¬ ConsonantBefore (left ++ [prev]) := by
  apply not_trailing_control _ _ hc
  · intro x hx
    rw [gcb_consonant hx]
    rfl
  · rintro x (hx | hx)
    · rcases gcb_incbExtend hx with h | h <;> rw [h] <;> rfl
    · rcases gcb_linker hx with h | h <;> rw [h] <;> rfl

/-- One more code point, when `state` is a summary of what the new code point can see. -/
theorem summary_advance (left : List Nat) {next : Nat} {state : ClusterState}
    (hflags : gcb next = .regionalIndicator → (state.riCount % 2 = 1 ↔ OddFlagsBefore left))
    (hpending : gcb next = .extend ∨ gcb next = .zwj →
      (state.pictographicZwjPending = true ↔ JoinedBefore left))
    (hconsonant : gcb next = .extend ∨ gcb next = .zwj →
      (state.incbConsonantSeen = true ↔ ConsonantBefore left))
    (hlinker : gcb next = .extend ∨ gcb next = .zwj →
      (state.incbLinkerSeen = true ↔ ConjunctBefore left)) :
    Summary (left ++ [next]) next (advanceState state next) := by
  have hmark : isIncbExtend next = true ∨ isIncbLinker next = true →
      gcb next = .extend ∨ gcb next = .zwj := fun h => h.elim gcb_incbExtend gcb_linker
  constructor
  · intro hri
    rw [oddFlags_snoc, ← hflags hri]
    simp only [advanceState, hri, if_true, true_and]
    omega
  · intro h1 h2 h3
    simp [advanceState, h1, h2, h3]
  · rw [JoinedBefore, trailing_snoc]
    by_cases hp : isExtendedPictographic next = true
    · simp [advanceState, hp]
    by_cases hm : gcb next = .extend ∨ gcb next = .zwj
    · have hz : gcb next = .extend ∨ next = kZwj := by rwa [← gcb_zwj_iff]
      have hadvance : (advanceState state next).pictographicZwjPending =
          state.pictographicZwjPending := by
        simp [advanceState, hp, hz]
      rw [hadvance, hpending hm]
      simp [hp, hm, JoinedBefore]
    · have hz : ¬ (gcb next = .extend ∨ next = kZwj) := by rwa [← gcb_zwj_iff]
      simp [advanceState, hp, hz, hm]
  · rw [ConsonantBefore, trailing_snoc]
    by_cases hc : isIncbConsonant next = true
    · simp [advanceState, hc]
    by_cases hm : isIncbExtend next = true ∨ isIncbLinker next = true
    · have hadvance : (advanceState state next).incbConsonantSeen = state.incbConsonantSeen := by
        rcases hm with hm | hm <;> simp [advanceState, hc, hm]
      rw [hadvance, hconsonant (hmark hm)]
      simp [hc, hm, ConsonantBefore]
    · simp [advanceState, hc, not_or.1 hm]
  · rw [conjunct_snoc]
    by_cases hl : isIncbLinker next = true
    · have hadvance : (advanceState state next).incbLinkerSeen =
          (state.incbLinkerSeen || state.incbConsonantSeen) := by
        simp [advanceState, linker_not_consonant hl, hl]
      have hm := hmark (.inr hl)
      rw [hadvance, Bool.or_eq_true, hlinker hm, hconsonant hm]
      simp [hl, or_comm]
    by_cases he : isIncbExtend next = true
    · have hadvance : (advanceState state next).incbLinkerSeen = state.incbLinkerSeen := by
        simp [advanceState, incbExtend_not_consonant he, hl, he]
      rw [hadvance, hlinker (hmark (.inl he))]
      simp [hl, he]
    · have hadvance : (advanceState state next).incbLinkerSeen = false := by
        simp [advanceState, hl, he]
      simp [hadvance, hl, he]

theorem summary_init (cp : Nat) : Summary [cp] cp (advanceState .init cp) := by
  have hodd : ¬ OddFlagsBefore [] := by simp [OddFlagsBefore]
  have hconjunct : ¬ ConjunctBefore [] := fun h => not_trailing_nil (conjunct_consonant h)
  apply summary_advance []
  · intro _
    exact iff_of_false (by decide) hodd
  · intro _
    exact iff_of_false (by decide) not_trailing_nil
  · intro _
    exact iff_of_false (by decide) not_trailing_nil
  · intro _
    exact iff_of_false (by decide) hconjunct

/-- Only a prepended mark joins a first regional indicator. -/
theorem prepend_of_joined {init : List Nat} {prev next : Nat} (h : ScanJoins init prev next)
    (hri : gcb next = .regionalIndicator) (hodd : ¬ OddFlagsBefore (init ++ [prev])) :
    gcb prev = .prepend := by
  rcases h with ⟨-, hlf⟩ | ⟨-, -, hsyllable | hm | hspacing | hprepend | ⟨-, hc⟩ | ⟨-, hp⟩ | ⟨ho, -⟩⟩
  · rw [hri] at hlf
    cases hlf
  · rw [hri] at hsyllable
    simp [syllable] at hsyllable
  · rw [hri] at hm
    rcases hm with hm | hm <;> cases hm
  · rw [hri] at hspacing
    cases hspacing
  · exact hprepend
  · rw [gcb_consonant hc] at hri
    cases hri
  · rw [gcb_pictographic hp] at hri
    cases hri
  · exact absurd ho hodd

/-- The summary goes on through joined code points. -/
theorem summary_join {init : List Nat} {prev next : Nat} {state : ClusterState}
    (h : Summary (init ++ [prev]) prev state) (hj : breaksBetween prev next state = false) :
    Summary (init ++ [prev] ++ [next]) next (advanceState state next) := by
  apply summary_advance
  · intro hri
    by_cases hprev : gcb prev = .regionalIndicator
    · exact h.flags hprev
    · have hodd : ¬ OddFlagsBefore (init ++ [prev]) := fun ho => hprev (oddFlags_last ho)
      have hprepend := prepend_of_joined ((breaksBetween_iff h next).1 hj) hri hodd
      rw [h.noFlags hprev (by rw [hprepend]; decide) (by rw [hprepend]; decide)]
      exact iff_of_false (by decide) hodd
  · exact fun _ => h.pending
  · exact fun _ => h.consonant
  · exact fun _ => h.linker

/-- And starts anew behind a break, where no context reaches across. -/
theorem summary_break {init : List Nat} {prev next : Nat} {state : ClusterState}
    (h : Summary (init ++ [prev]) prev state) (hb : breaksBetween prev next state = true) :
    Summary (init ++ [prev] ++ [next]) next (advanceState .init next) := by
  apply summary_advance
  · intro hri
    refine iff_of_false (by decide) ?_
    intro hodd
    have hprev := oddFlags_last hodd
    have hjoin : breaksBetween prev next state = false :=
      (breaksBetween_iff h next).2 (.inr ⟨by rw [hprev]; rfl, by rw [hri]; rfl,
        .inr (.inr (.inr (.inr (.inr (.inr ⟨hodd, hri⟩)))))⟩)
    rw [hb] at hjoin
    cases hjoin
  · intro hm
    exact iff_of_false (by decide) (not_joinedBefore (control_of_break hb hm))
  · intro hm
    exact iff_of_false (by decide) (not_consonantBefore (control_of_break hb hm))
  · intro hm
    exact iff_of_false (by decide) fun hc =>
      not_consonantBefore (control_of_break hb hm) (conjunct_consonant hc)

/-! ## The boundaries of a whole string -/

/-- The starts of the clusters behind `prev`, from one pass over the scalars. -/
def startsFrom (offset prev : Nat) (state : ClusterState) : List Decoded → List Nat
  | [] => []
  | d :: ds =>
    if breaksBetween prev d.cp state then
      offset :: startsFrom (offset + d.len) d.cp (advanceState .init d.cp) ds
    else startsFrom (offset + d.len) d.cp (advanceState state d.cp) ds

def lengths (ds : List Decoded) : Nat := (ds.map Decoded.len).sum

@[simp] theorem lengths_nil : lengths [] = 0 := rfl

@[simp] theorem lengths_cons (d : Decoded) (ds : List Decoded) :
    lengths (d :: ds) = d.len + lengths ds := by
  simp [lengths]

/-- The loop either takes all scalars or stops in front of the next start. -/
theorem clusterLoop_spec (ds : List Decoded) (offset prev : Nat) (state : ClusterState) :
    (clusterLoop prev state ds = lengths ds ∧ startsFrom offset prev state ds = []) ∨
      ∃ xs d rest, ds = xs ++ d :: rest ∧ clusterLoop prev state ds = lengths xs ∧
        startsFrom offset prev state ds = (offset + lengths xs) ::
          startsFrom (offset + lengths xs + d.len) d.cp (advanceState .init d.cp) rest := by
  induction ds generalizing offset prev state with
  | nil => exact .inl ⟨rfl, rfl⟩
  | cons d ds ih =>
    by_cases hb : breaksBetween prev d.cp state = true
    · exact .inr ⟨[], d, ds, rfl, by simp [clusterLoop, hb], by simp [startsFrom, hb]⟩
    · rcases ih (offset + d.len) d.cp (advanceState state d.cp) with
        ⟨hloop, hstarts⟩ | ⟨xs, e, rest, rfl, hloop, hstarts⟩
      · exact .inl ⟨by simp [clusterLoop, hb, hloop], by simp [startsFrom, hb, hstarts]⟩
      · refine .inr ⟨d :: xs, e, rest, rfl, by simp [clusterLoop, hb, hloop], ?_⟩
        simp [startsFrom, hb, hstarts, Nat.add_assoc]

theorem lengths_scalars (bytes : List UInt8) : lengths (scalars bytes) = bytes.length := by
  induction hn : bytes.length using Nat.strongRecOn generalizing bytes with
  | ind n ih =>
    cases bytes with
    | nil => exact hn
    | cons b0 rest =>
      obtain ⟨hpos, hle⟩ := decode_len b0 rest
      rw [List.length_cons] at hn
      have hrest := ih (n - (decode (b0 :: rest)).len) (by omega)
        ((b0 :: rest).drop (decode (b0 :: rest)).len) (by simp [hn])
      rw [scalars_cons, lengths_cons, hrest]
      omega

theorem scalars_pos (bytes : List UInt8) : ∀ d ∈ scalars bytes, 0 < d.len := by
  induction hn : bytes.length using Nat.strongRecOn generalizing bytes with
  | ind n ih =>
    cases bytes with
    | nil => simp
    | cons b0 rest =>
      obtain ⟨hpos, hle⟩ := decode_len b0 rest
      rw [scalars_cons, List.forall_mem_cons]
      refine ⟨hpos, ih (n - (decode (b0 :: rest)).len) ?_ _ ?_⟩
      · rw [← hn, List.length_cons]
        omega
      · rw [List.length_drop, hn]

theorem clusterStarts_eq (fuel offset : Nat) (bytes : List UInt8) (hf : bytes.length ≤ fuel)
    {d : Decoded} {ds : List Decoded} (h : scalars bytes = d :: ds) :
    clusterStarts fuel offset bytes =
      startsFrom (offset + d.len) d.cp (advanceState .init d.cp) ds := by
  induction fuel generalizing offset bytes d ds with
  | zero =>
    obtain rfl := List.length_eq_zero_iff.1 (Nat.le_zero.1 hf)
    cases h
  | succ fuel ih =>
    have hlen : clusterLength bytes =
        d.len + clusterLoop d.cp (advanceState .init d.cp) ds := by
      simp [clusterLength, h]
    have hdrop : ∀ xs rest, scalars bytes = xs ++ rest →
        scalars (bytes.drop (lengths xs)) = rest := by
      intro xs rest hx
      have := scalars_drop bytes xs.length
      rw [hx, List.take_left, List.drop_left] at this
      exact this
    have hpos : 0 < d.len := scalars_pos bytes d (by simp [h])
    have htotal := lengths_scalars bytes
    rcases clusterLoop_spec ds (offset + d.len) d.cp (advanceState .init d.cp) with
      ⟨hloop, hstarts⟩ | ⟨xs, e, rest, rfl, hloop, hstarts⟩
    · rw [h, lengths_cons] at htotal
      have hnil : bytes.drop (clusterLength bytes) = [] := by
        apply List.drop_eq_nil_of_le
        exact Nat.le_of_eq (by rw [hlen, hloop, htotal])
      rw [hstarts]
      simp [clusterStarts, hnil]
    · have hrest := hdrop (d :: xs) (e :: rest) (by simp [h])
      rw [lengths_cons, ← hloop, ← hlen] at hrest
      have hne : bytes.drop (clusterLength bytes) ≠ [] := by
        intro hnil
        rw [hnil] at hrest
        cases hrest
      have hnext := ih (offset + clusterLength bytes) (bytes.drop (clusterLength bytes))
        (by rw [List.length_drop]; omega) hrest
      rw [hstarts]
      rw [clusterStarts, if_neg hne, hnext, hlen, hloop]
      simp only [Nat.add_assoc]

theorem boundaries_eq {bytes : List UInt8} {d : Decoded} {ds : List Decoded}
    (h : scalars bytes = d :: ds) :
    boundaries bytes = startsFrom d.len d.cp (advanceState .init d.cp) ds := by
  rw [boundaries, clusterStarts_eq bytes.length 0 bytes (Nat.le_refl _) h, Nat.zero_add]

theorem startsFrom_le {ds : List Decoded} {offset prev : Nat} {state : ClusterState} :
    ∀ n ∈ startsFrom offset prev state ds, offset ≤ n := by
  induction ds generalizing offset prev state with
  | nil => simp [startsFrom]
  | cons d ds ih =>
    intro n hn
    simp only [startsFrom] at hn
    split_ifs at hn
    · rcases List.mem_cons.1 hn with rfl | hn
      · exact Nat.le_refl _
      · exact Nat.le_trans (Nat.le_add_right _ _) (ih n hn)
    · exact Nat.le_trans (Nat.le_add_right _ _) (ih n hn)

/-- A cluster starts in front of a code point exactly when the scan does not join it. -/
theorem mem_startsFrom (init init' : List Nat) {prev a : Nat} {state : ClusterState}
    (h : Summary (init ++ [prev]) prev state) (offset : Nat) (xs : List Decoded) (b : Decoded)
    (rest : List Decoded) (hpos : ∀ d ∈ xs ++ b :: rest, 0 < d.len)
    (heq : init ++ prev :: xs.map Decoded.cp = init' ++ [a]) :
    offset + lengths xs ∈ startsFrom offset prev state (xs ++ b :: rest) ↔
      ¬ ScanJoins init' a b.cp := by
  induction xs generalizing init prev state offset with
  | nil =>
    obtain ⟨rfl, rfl⟩ : init = init' ∧ prev = a := List.append_singleton_inj.1 heq
    have hb : 0 < b.len := hpos b (by simp)
    rw [← breaksBetween_iff h, Bool.not_eq_false]
    simp only [List.nil_append, startsFrom, lengths_nil, Nat.add_zero]
    split_ifs with hbreak
    · simp [hbreak]
    · refine iff_of_false (fun hmem => ?_) hbreak
      have := startsFrom_le _ hmem
      omega
  | cons x xs ih =>
    have hx : 0 < x.len := hpos x (by simp)
    have hxs : ∀ d ∈ xs ++ b :: rest, 0 < d.len := fun d hd => hpos d (List.mem_cons_of_mem _ hd)
    have heq' : (init ++ [prev]) ++ x.cp :: xs.map Decoded.cp = init' ++ [a] := by
      simpa using heq
    simp only [List.cons_append, startsFrom, lengths_cons, ← Nat.add_assoc]
    split_ifs with hbreak
    · have hrest := ih _ (summary_break h hbreak) (offset + x.len) hxs heq'
      rw [List.mem_cons, hrest]
      constructor
      · rintro (hn | hn)
        · omega
        · exact hn
      · exact .inr
    · exact ih _ (summary_join h (Bool.not_eq_true _ ▸ hbreak)) (offset + x.len) hxs heq'

/-! ## The scan and the rules -/

theorem emoji_joined {left : List Nat} (h : EmojiBefore left) :
    ∃ init a, left = init ++ [a] ∧ gcb a = .zwj ∧ JoinedBefore left := by
  obtain ⟨init, z, rfl, hz, pre, c, mid, rfl, hc, hmid⟩ := h
  refine ⟨_, z, rfl, hz, pre, c, mid ++ [z], by simp, hc, ?_⟩
  rw [List.forall_mem_append, List.forall_mem_singleton]
  exact ⟨fun x hx => .inl (hmid x hx), .inr hz⟩

/-- Behind a joiner, a context the scan takes for GB11's is that, or has a second joiner. -/
theorem joined_emoji {init : List Nat} {a : Nat} (hz : gcb a = .zwj)
    (h : JoinedBefore (init ++ [a])) :
    EmojiBefore (init ++ [a]) ∨
      ∃ pre p mid, init = pre ++ p :: mid ∧ isExtendedPictographic p = true ∧
        (∀ x ∈ mid, gcb x = .extend ∨ gcb x = .zwj) ∧ ∃ x ∈ mid, gcb x = .zwj := by
  rw [JoinedBefore, trailing_snoc] at h
  rcases h with hp | ⟨-, pre, p, mid, rfl, hp, hmid⟩
  · rw [gcb_pictographic hp] at hz
    cases hz
  · by_cases hj : ∃ x ∈ mid, gcb x = .zwj
    · exact .inr ⟨pre, p, mid, rfl, hp, hmid, hj⟩
    · refine .inl ⟨_, a, rfl, hz, pre, p, mid, rfl, hp, fun x hx => ?_⟩
      exact (hmid x hx).resolve_right fun hx' => hj ⟨x, hx, hx'⟩

/-- The rules join what the scan joins, but for two emoji with a second joiner between them. -/
theorem scanJoins_iff {init : List Nat} {a b : Nat} (rest : List Nat)
    (h : ¬ DoublyJoined (init ++ a :: b :: rest)) : ScanJoins init a b ↔ Joins init a b := by
  have hemoji : (gcb a = .zwj ∧ JoinedBefore (init ++ [a])) ∧ isExtendedPictographic b = true ↔
      EmojiBefore (init ++ [a]) ∧ isExtendedPictographic b = true := by
    constructor
    · rintro ⟨⟨hz, hj⟩, hb⟩
      rcases joined_emoji hz hj with he | ⟨pre, p, mid, rfl, hp, hmid, hx⟩
      · exact ⟨he, hb⟩
      · exact absurd ⟨pre, p, mid, a, b, rest, by simp, hp, hb, hz, hmid, hx⟩ h
    · rintro ⟨he, hb⟩
      obtain ⟨init', a', heq, hz, hj⟩ := emoji_joined he
      obtain ⟨rfl, rfl⟩ := List.append_singleton_inj.1 heq
      exact ⟨⟨hz, hj⟩, hb⟩
  rw [ScanJoins, Joins, hemoji]

/-- Two emoji with a second joiner between them: the scan joins them, and no rule does. -/
theorem doublyJoined_differs (pre mid : List Nat) {p z q : Nat}
    (hp : isExtendedPictographic p = true) (hq : isExtendedPictographic q = true)
    (hz : gcb z = .zwj) (hmid : ∀ x ∈ mid, gcb x = .extend ∨ gcb x = .zwj)
    (hx : ∃ x ∈ mid, gcb x = .zwj) :
    ScanJoins (pre ++ p :: mid) z q ∧ ¬ Joins (pre ++ p :: mid) z q := by
  have hother := gcb_pictographic hq
  constructor
  · refine .inr ⟨by rw [hz]; rfl, by rw [hother]; rfl, .inr (.inr (.inr (.inr (.inr (.inl ?_)))))⟩
    refine ⟨⟨hz, pre, p, mid ++ [z], by simp, hp, ?_⟩, hq⟩
    exact List.forall_mem_append.2 ⟨hmid, List.forall_mem_singleton.2 (.inr hz)⟩
  · rintro (⟨-, hlf⟩ | ⟨-, -, hs | hm | hspacing | hprepend | ⟨-, hc⟩ | ⟨he, -⟩ | ⟨-, hri⟩⟩)
    · rw [hother] at hlf
      cases hlf
    · rw [hz, hother] at hs
      cases hs
    · rw [hother] at hm
      rcases hm with hm | hm <;> cases hm
    · rw [hother] at hspacing
      cases hspacing
    · rw [hz] at hprepend
      cases hprepend
    · rw [pictographic_not_consonant hq] at hc
      cases hc
    · -- The marks of GB11 would have to reach back over the second joiner.
      obtain ⟨-, pre', p', mid', heq, hp', hmid'⟩ := (emoji_snoc _ z).1 he
      obtain ⟨x, hxm, hxz⟩ := hx
      rcases List.append_eq_append_iff.1 heq with ⟨as, rfl, has⟩ | ⟨bs, rfl, hbs⟩
      · cases as with
        | nil =>
          obtain ⟨rfl, rfl⟩ : p = p' ∧ mid = mid' := by simpa using has
          rw [hmid' x hxm] at hxz
          cases hxz
        | cons y as =>
          obtain ⟨rfl, rfl⟩ : p = y ∧ mid = as ++ p' :: mid' := by simpa using has
          have hp'' := hmid p' (by simp)
          rw [gcb_pictographic hp'] at hp''
          rcases hp'' with h | h <;> cases h
      · cases bs with
        | nil =>
          obtain ⟨rfl, rfl⟩ : p' = p ∧ mid' = mid := by simpa using hbs
          rw [hmid' x hxm] at hxz
          cases hxz
        | cons y bs =>
          obtain ⟨rfl, rfl⟩ : p' = y ∧ mid' = bs ++ p :: mid := by simpa using hbs
          rw [hmid' x (by simp [hxm])] at hxz
          cases hxz
    · rw [hother] at hri
      cases hri

theorem mem_boundaries {bytes : List UInt8} {init : List Decoded} {a b : Decoded}
    {rest : List Decoded} (h : scalars bytes = init ++ a :: b :: rest) :
    (init.map Decoded.len).sum + a.len ∈ boundaries bytes ↔
      ¬ ScanJoins (init.map Decoded.cp) a.cp b.cp := by
  have hpos := scalars_pos bytes
  cases init with
  | nil =>
    rw [List.nil_append] at h
    rw [h] at hpos
    have hmem := mem_startsFrom [] [] (summary_init a.cp) a.len [] b rest
      (fun d hd => hpos d (List.mem_cons_of_mem _ hd)) rfl
    rw [boundaries_eq h]
    simpa using hmem
  | cons d init =>
    rw [h] at hpos
    have hsplit : init ++ a :: b :: rest = (init ++ [a]) ++ b :: rest := by simp
    have hpos' : ∀ e ∈ (init ++ [a]) ++ b :: rest, 0 < e.len := by
      intro e he
      rw [← hsplit] at he
      exact hpos e (List.mem_cons_of_mem _ he)
    have hmem := mem_startsFrom [] (d.cp :: init.map Decoded.cp) (a := a.cp) (summary_init d.cp)
      d.len (init ++ [a]) b rest hpos' (by simp)
    rw [boundaries_eq (h.trans (List.cons_append ..)), hsplit, List.map_cons, List.map_cons,
      List.sum_cons, Nat.add_assoc]
    simpa [lengths, Nat.add_assoc] using hmem

/-- The boundaries the scan finds are those of the rules exactly when no two emoji of the string
are doubly joined. -/
theorem follows_rules_iff (bytes : List UInt8) :
    FollowsRules bytes ↔ ¬ DoublyJoined (codePoints bytes) := by
  constructor
  · rintro h ⟨pre, p, mid, z, q, rest, heq, hp, hq, hz, hmid, hx⟩
    obtain ⟨hjoins, hrules⟩ := doublyJoined_differs pre mid hp hq hz hmid hx
    have hcut : (scalars bytes).map Decoded.cp = (pre ++ p :: mid) ++ z :: q :: rest := by
      rw [← codePoints, heq]
      simp
    obtain ⟨init, tail, hs, hinit, htail⟩ := List.map_eq_append_iff.1 hcut
    obtain ⟨a, tail', rfl, rfl, htail'⟩ := List.map_eq_cons_iff.1 htail
    obtain ⟨b, tail'', rfl, rfl, -⟩ := List.map_eq_cons_iff.1 htail'
    have hmem := mem_boundaries hs
    have hfollow := h init a b tail'' hs
    rw [hinit] at hmem hfollow
    exact hmem.1 (hfollow.2 hrules) hjoins
  · intro h init a b rest hs
    rw [mem_boundaries hs, not_iff_not]
    apply scanJoins_iff (rest.map Decoded.cp)
    simpa [codePoints, hs] using h

/-- A face, two joiners, and a face: the scan makes them one cluster, and GB11 does not. -/
theorem follows_rules_double_joiner :
    ¬ FollowsRules (Utf8.encode [Char.ofNat 0x1F600, Char.ofNat 0x200D, Char.ofNat 0x200D,
      Char.ofNat 0x1F600]) := by
  intro h
  have hstart := h [⟨0x1F600, 4, true⟩, ⟨0x200D, 3, true⟩] ⟨0x200D, 3, true⟩ ⟨0x1F600, 4, true⟩ []
    (by decide +kernel)
  have hface : isExtendedPictographic 0x1F600 = true := by decide +kernel
  have hrules := doublyJoined_differs [] [0x200D] (z := 0x200D) hface hface
    ((gcb_zwj_iff _).2 rfl) (by simp [gcb_zwj_iff, kZwj]) (by simp [gcb_zwj_iff, kZwj])
  exact absurd (hstart.2 hrules.2) (by decide +kernel)

end SupraHarness.Width
