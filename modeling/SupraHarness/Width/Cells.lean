import SupraHarness.Lib.Fitting
import SupraHarness.Width.Grapheme

/-!
# Cells

The width of a code point, of a cluster and of a string. A string is measured cluster by cluster,
so it is the list of its clusters that counts: a string cut behind some of its clusters has these
clusters, since no code point is decoded beyond its own bytes.
-/
namespace SupraHarness.Width

open Ranges Fitting

inductive Ambiguous where
  | narrow | wide
  deriving DecidableEq, Repr

def nonprintable : Int := -1

def kVs15 : Nat := 0xFE0E
def kVs16 : Nat := 0xFE0F

def codePointWidth (cp : Nat) (ambiguous : Ambiguous) : Int :=
  if cp < 0x20 ∨ (0x7F ≤ cp ∧ cp < 0xA0) then nonprintable
  else if (kSurrogateLo ≤ cp ∧ cp ≤ kSurrogateHi) ∨ kMaxCodePoint < cp then nonprintable
  else if kZeroWidth.contains cp then 0
  else if kEmojiModifier.contains cp then 0
  else if kWide.contains cp then 2
  else if kEmojiPresentation.contains cp then 2
  else if kAmbiguous.contains cp then if ambiguous = .wide then 2 else 1
  else 1

/-- What `clusterWidth` has seen of a cluster. -/
structure Seen where
  widest : Int
  sawPrintable : Bool
  forcedEmoji : Bool
  forcedText : Bool
  deriving DecidableEq, Repr

def Seen.add (ambiguous : Ambiguous) (seen : Seen) (decoded : Decoded) : Seen :=
  if decoded.cp = kVs16 then { seen with forcedEmoji := true }
  else if decoded.cp = kVs15 then { seen with forcedText := true }
  else
    let w := codePointWidth decoded.cp ambiguous
    if w = nonprintable then seen
    else { seen with sawPrintable := true, widest := if seen.widest < w then w else seen.widest }

/-- Width of one grapheme cluster. -/
def clusterWidth (cluster : List UInt8) (ambiguous : Ambiguous) : Int :=
  let seen := (scalars cluster).foldl (Seen.add ambiguous) ⟨0, false, false, false⟩
  if !seen.sawPrintable then nonprintable
  else if seen.forcedText then if 1 < seen.widest then 1 else seen.widest
  else if seen.forcedEmoji then 2
  else seen.widest

/-- `supra_grapheme_width`: the width of the first cluster, and its length. -/
def graphemeWidth (bytes : List UInt8) (ambiguous : Ambiguous) : Int × Nat :=
  if bytes = [] then (nonprintable, 0)
  else
    let len := clusterLength bytes
    (clusterWidth (bytes.take len) ambiguous, len)

/-- What a cluster adds to a width: non-printable contributes nothing. -/
def cellsOf (w : Int) : Nat := if 0 < w then w.toNat else 0

/-- The loop of `supra_width_measure`, which ends at the latest when every byte is consumed: the
cells and the clusters. -/
def measureLoop (ambiguous : Ambiguous) : Nat → List UInt8 → Nat × Nat
  | 0, _ => (0, 0)
  | fuel + 1, bytes =>
    if bytes = [] then (0, 0)
    else
      let len := clusterLength bytes
      if len = 0 then (0, 0)
      else
        let r := measureLoop ambiguous fuel (bytes.drop len)
        (cellsOf (clusterWidth (bytes.take len) ambiguous) + r.1, r.2 + 1)

def widthMeasure (bytes : List UInt8) (ambiguous : Ambiguous) : Nat × Nat :=
  measureLoop ambiguous bytes.length bytes

def wcswidth (bytes : List UInt8) (ambiguous : Ambiguous) : Nat := (widthMeasure bytes ambiguous).1

/-! ## Clusters -/

/-- The clusters of a string, one after the other. -/
def clustersOf : Nat → List UInt8 → List (List UInt8)
  | 0, _ => []
  | fuel + 1, bytes =>
    if bytes = [] then []
    else bytes.take (clusterLength bytes) :: clustersOf fuel (bytes.drop (clusterLength bytes))

def clusters (bytes : List UInt8) : List (List UInt8) := clustersOf bytes.length bytes

/-- The scalars that the loop of `clusterLength` takes. -/
def joined (current : Nat) (state : ClusterState) : List Decoded → Nat
  | [] => 0
  | next :: rest =>
    if breaksBetween current next.cp state then 0 else joined next.cp (advanceState state next.cp) rest + 1

theorem clusterLoop_eq (current : Nat) (state : ClusterState) (ds : List Decoded) :
    clusterLoop current state ds = lengths (ds.take (joined current state ds)) := by
  induction ds generalizing current state with
  | nil => rfl
  | cons next rest ih =>
    rw [clusterLoop, joined]
    split
    · rfl
    · rw [List.take_succ_cons, lengths_cons, ih]

/-- The loop does not see what stands behind the scalars it takes. -/
theorem joined_take (current : Nat) (state : ClusterState) (ds : List Decoded) {n : Nat}
    (h : joined current state ds ≤ n) : joined current state (ds.take n) = joined current state ds := by
  induction ds generalizing current state n with
  | nil => simp
  | cons next rest ih =>
    rw [joined] at h ⊢
    cases n with
    | zero =>
      split at h
      · rename_i hb
        rw [if_pos hb]
        rfl
      · exact absurd h (by simp)
    | succ n =>
      rw [List.take_succ_cons, joined]
      split at h
      · rename_i hb
        rw [if_pos hb, if_pos hb]
      · rename_i hb
        rw [if_neg hb, if_neg hb, ih _ _ (Nat.le_of_succ_le_succ h)]

/-- The scalars of the first cluster. -/
def clusterScalars (bytes : List UInt8) : Nat :=
  match scalars bytes with
  | [] => 0
  | current :: rest => joined current.cp (advanceState .init current.cp) rest + 1

theorem clusterLength_eq (bytes : List UInt8) :
    clusterLength bytes = lengths ((scalars bytes).take (clusterScalars bytes)) := by
  unfold clusterLength clusterScalars
  cases scalars bytes with
  | nil => rfl
  | cons current rest => rw [List.take_succ_cons, lengths_cons, ← clusterLoop_eq]

theorem scalars_ne_nil {bytes : List UInt8} (h : bytes ≠ []) : scalars bytes ≠ [] := by
  cases bytes with
  | nil => exact absurd rfl h
  | cons b0 rest =>
    rw [scalars_cons]
    exact List.cons_ne_nil _ _

theorem clusterScalars_pos {bytes : List UInt8} (h : bytes ≠ []) : 0 < clusterScalars bytes := by
  unfold clusterScalars
  cases hs : scalars bytes with
  | nil => exact absurd hs (scalars_ne_nil h)
  | cons current rest => exact Nat.succ_pos _

theorem lengths_take_le (ds : List Decoded) (n : Nat) : lengths (ds.take n) ≤ lengths ds := by
  have h := total_take_mono (w := Decoded.len) ds (Nat.le_max_left n ds.length)
  rwa [List.take_of_length_le (Nat.le_max_right n ds.length)] at h

theorem clusterLength_le (bytes : List UInt8) : clusterLength bytes ≤ bytes.length := by
  rw [clusterLength_eq, ← lengths_scalars]
  exact lengths_take_le _ _

theorem clusterLength_pos {bytes : List UInt8} (h : bytes ≠ []) : 0 < clusterLength bytes := by
  rw [clusterLength_eq]
  obtain ⟨n, hn⟩ := Nat.exists_eq_succ_of_ne_zero (Nat.pos_iff_ne_zero.mp (clusterScalars_pos h))
  obtain ⟨d, ds, hs⟩ := List.exists_cons_of_ne_nil (scalars_ne_nil h)
  rw [hn, hs, List.take_succ_cons, lengths_cons]
  have hpos := scalars_pos bytes d (by simp [hs])
  omega

theorem clustersOf_enough {fuel fuel' : Nat} {bytes : List UInt8} (h : bytes.length ≤ fuel)
    (h' : bytes.length ≤ fuel') : clustersOf fuel bytes = clustersOf fuel' bytes := by
  induction fuel generalizing fuel' bytes with
  | zero =>
    obtain rfl := List.length_eq_zero_iff.mp (Nat.le_zero.mp h)
    cases fuel' <;> simp [clustersOf]
  | succ fuel ih =>
    cases fuel' with
    | zero =>
      obtain rfl := List.length_eq_zero_iff.mp (Nat.le_zero.mp h')
      simp [clustersOf]
    | succ fuel' =>
      rw [clustersOf, clustersOf]
      split
      · rfl
      · rename_i hne
        have hpos := clusterLength_pos hne
        have hlen : (bytes.drop (clusterLength bytes)).length ≤ min fuel fuel' := by
          rw [List.length_drop]
          omega
        rw [ih (Nat.le_trans hlen (Nat.min_le_left _ _)) (Nat.le_trans hlen (Nat.min_le_right _ _))]

@[simp] theorem clusters_nil : clusters [] = [] := rfl

theorem clusters_cons {bytes : List UInt8} (h : bytes ≠ []) :
    clusters bytes = bytes.take (clusterLength bytes) :: clusters (bytes.drop (clusterLength bytes)) := by
  have hpos := clusterLength_pos h
  obtain ⟨n, hn⟩ := Nat.exists_eq_succ_of_ne_zero (mt List.length_eq_zero_iff.mp h)
  rw [clusters, hn, clustersOf, if_neg h, clusters]
  congr 1
  apply clustersOf_enough
  · rw [List.length_drop]
    omega
  · exact Nat.le_refl _

/-- The clusters tile the string. -/
theorem flatten_clusters (bytes : List UInt8) : (clusters bytes).flatten = bytes := by
  induction hn : bytes.length using Nat.strongRecOn generalizing bytes with
  | ind n ih =>
    by_cases hne : bytes = []
    · rw [hne]
      rfl
    · have hpos := clusterLength_pos hne
      have hlen := List.length_pos_iff.mpr hne
      rw [clusters_cons hne, List.flatten_cons, ih (n - clusterLength bytes) (by omega) _
        (by rw [List.length_drop, hn]), List.take_append_drop]

theorem cluster_ne_nil (bytes : List UInt8) : ∀ c ∈ clusters bytes, c ≠ [] := by
  induction hn : bytes.length using Nat.strongRecOn generalizing bytes with
  | ind n ih =>
    by_cases hne : bytes = []
    · rw [hne]
      simp
    · have hpos := clusterLength_pos hne
      have hlen := List.length_pos_iff.mpr hne
      rw [clusters_cons hne, List.forall_mem_cons]
      refine ⟨?_, ih (n - clusterLength bytes) (by omega) _ (by rw [List.length_drop, hn])⟩
      apply List.ne_nil_of_length_pos
      rw [List.length_take]
      omega

/-- The cells of one cluster. -/
def clusterCells (ambiguous : Ambiguous) (cluster : List UInt8) : Nat := cellsOf (clusterWidth cluster ambiguous)

theorem measureLoop_eq (ambiguous : Ambiguous) (fuel : Nat) (bytes : List UInt8) (h : bytes.length ≤ fuel) :
    measureLoop ambiguous fuel bytes =
      (total (clusterCells ambiguous) (clusters bytes), (clusters bytes).length) := by
  induction fuel generalizing bytes with
  | zero =>
    obtain rfl := List.length_eq_zero_iff.mp (Nat.le_zero.mp h)
    rfl
  | succ fuel ih =>
    rw [measureLoop]
    by_cases hne : bytes = []
    · rw [if_pos hne, hne]
      rfl
    · have hpos := clusterLength_pos hne
      have hrest : (bytes.drop (clusterLength bytes)).length ≤ fuel := by
        rw [List.length_drop]
        omega
      rw [if_neg hne, clusters_cons hne]
      simp only [Nat.pos_iff_ne_zero.mp hpos, if_false, ih _ hrest, total_cons, List.length_cons, clusterCells]

/-- A string is as wide as its clusters together. -/
theorem wcswidth_eq (bytes : List UInt8) (ambiguous : Ambiguous) :
    wcswidth bytes ambiguous = total (clusterCells ambiguous) (clusters bytes) := by
  rw [wcswidth, widthMeasure, measureLoop_eq ambiguous bytes.length bytes (Nat.le_refl _)]

/-! ## Strings cut behind a cluster -/

/-- A code point is decoded from its own bytes. -/
theorem decode_take (bytes : List UInt8) {k : Nat} (h : (decode bytes).len ≤ k) :
    decode (bytes.take k) = decode bytes := by
  cases bytes with
  | nil => simp
  | cons b0 rest =>
    obtain ⟨hpos, -⟩ := decode_len b0 rest
    obtain ⟨k, rfl⟩ : ∃ j, k = j + 1 := ⟨k - 1, by omega⟩
    rw [List.take_succ_cons]
    simp only [decode] at h ⊢
    by_cases h1 : b0 < 0x80
    · rw [if_pos h1, if_pos h1]
    by_cases h2 : b0 < 0xC2 ∨ 0xF4 < b0
    · rw [if_neg h1, if_neg h1, if_pos h2, if_pos h2]
    by_cases h3 : b0 < 0xE0
    · simp only [if_neg h1, if_neg h2, if_pos h3] at h ⊢
      rcases rest with _ | ⟨b1, rest⟩
      · simp
      · rcases k with _ | k
        · dsimp only [List.take] at h ⊢
          split_ifs at h ⊢ <;> simp_all [malformed]
        · rfl
    by_cases h4 : b0 < 0xF0
    · simp only [if_neg h1, if_neg h2, if_neg h3, if_pos h4] at h ⊢
      rcases rest with _ | ⟨b1, _ | ⟨b2, rest⟩⟩
      · simp
      · rcases k with _ | k
        · rfl
        · simp
      · rcases k with _ | _ | k
        · dsimp only [List.take] at h ⊢
          split_ifs at h ⊢ <;> simp_all [malformed]
        · dsimp only [List.take] at h ⊢
          split_ifs at h ⊢ <;> simp_all [malformed]
        · rfl
    · simp only [if_neg h1, if_neg h2, if_neg h3, if_neg h4] at h ⊢
      rcases rest with _ | ⟨b1, _ | ⟨b2, _ | ⟨b3, rest⟩⟩⟩
      · simp
      · rcases k with _ | k
        · rfl
        · simp
      · rcases k with _ | _ | k
        · rfl
        · rfl
        · simp
      · rcases k with _ | _ | _ | k
        · dsimp only [List.take] at h ⊢
          split_ifs at h ⊢ <;> simp_all [malformed]
        · dsimp only [List.take] at h ⊢
          split_ifs at h ⊢ <;> simp_all [malformed]
        · dsimp only [List.take] at h ⊢
          split_ifs at h ⊢ <;> simp_all [malformed]
        · rfl

/-- A string cut behind some of its scalars has these scalars. -/
theorem scalars_take (bytes : List UInt8) (n : Nat) :
    scalars (bytes.take (lengths ((scalars bytes).take n))) = (scalars bytes).take n := by
  induction n generalizing bytes with
  | zero => simp
  | succ n ih =>
    cases bytes with
    | nil => simp
    | cons b0 rest =>
      obtain ⟨hpos, -⟩ := decode_len b0 rest
      rw [scalars_cons, List.take_succ_cons, lengths_cons]
      generalize hd : decode (b0 :: rest) = d at hpos
      generalize hk : lengths ((scalars ((b0 :: rest).drop d.len)).take n) = k
      have hdecode : decode ((b0 :: rest).take (d.len + k)) = d := by
        rw [decode_take _ (by rw [hd]; exact Nat.le_add_right _ _), hd]
      obtain ⟨m, hm⟩ : ∃ m, d.len + k = m + 1 := ⟨d.len + k - 1, by omega⟩
      have hcons : (b0 :: rest).take (d.len + k) = b0 :: rest.take m := by
        rw [hm, List.take_succ_cons]
      have hdrop : ((b0 :: rest).take (d.len + k)).drop d.len = ((b0 :: rest).drop d.len).take k := by
        rw [List.drop_take, Nat.add_sub_cancel_left]
      rw [hcons] at hdecode hdrop ⊢
      rw [scalars_cons, hdecode, hdrop, ← hk, ih]

/-- The first cluster of a string cut behind some of its scalars. -/
theorem clusterLength_take (bytes : List UInt8) {n : Nat} (hn : clusterScalars bytes ≤ n) :
    clusterLength (bytes.take (lengths ((scalars bytes).take n))) = clusterLength bytes := by
  have hs := scalars_take bytes n
  have hcount : clusterScalars (bytes.take (lengths ((scalars bytes).take n))) = clusterScalars bytes := by
    unfold clusterScalars at hn ⊢
    rw [hs]
    cases hsc : scalars bytes with
    | nil => simp
    | cons current rest =>
      rw [hsc] at hn
      cases n with
      | zero => exact absurd hn (by simp)
      | succ n =>
        rw [List.take_succ_cons]
        simp only
        rw [joined_take _ _ _ (Nat.le_of_succ_le_succ hn)]
  rw [clusterLength_eq, clusterLength_eq, hcount, hs, List.take_take, Nat.min_eq_left hn]

/-- Scalars behind the first cluster are scalars of the string. -/
theorem lengths_behind (bytes : List UInt8) (m : Nat) :
    lengths ((scalars bytes).take (clusterScalars bytes + m)) =
      clusterLength bytes + lengths ((scalars (bytes.drop (clusterLength bytes))).take m) := by
  have hdrop := scalars_drop bytes (clusterScalars bytes)
  change scalars (bytes.drop (lengths _)) = _ at hdrop
  rw [← clusterLength_eq] at hdrop
  rw [hdrop, clusterLength_eq, List.take_add, lengths, lengths, lengths, List.map_append, List.sum_append]

/-- Where a cluster ends, a scalar ends. -/
theorem exists_scalars (bytes : List UInt8) (n : Nat) :
    ∃ m, total List.length ((clusters bytes).take n) = lengths ((scalars bytes).take m) := by
  induction n generalizing bytes with
  | zero => exact ⟨0, by simp⟩
  | succ n ih =>
    by_cases hne : bytes = []
    · exact ⟨0, by simp [hne]⟩
    · obtain ⟨m, hm⟩ := ih (bytes.drop (clusterLength bytes))
      refine ⟨clusterScalars bytes + m, ?_⟩
      rw [clusters_cons hne, List.take_succ_cons, total_cons, List.length_take, hm,
        Nat.min_eq_left (clusterLength_le bytes), lengths_behind]

/-- A string cut behind some of its clusters has these clusters. -/
theorem clusters_take (bytes : List UInt8) (n : Nat) :
    clusters (bytes.take (total List.length ((clusters bytes).take n))) = (clusters bytes).take n := by
  induction n generalizing bytes with
  | zero => simp
  | succ n ih =>
    by_cases hne : bytes = []
    · simp [hne]
    · have hpos := clusterLength_pos hne
      have hlen := List.length_pos_iff.mpr hne
      have hle := clusterLength_le bytes
      obtain ⟨m, hm⟩ := exists_scalars (bytes.drop (clusterLength bytes)) n
      rw [clusters_cons hne, List.take_succ_cons, total_cons, List.length_take, Nat.min_eq_left hle]
      have hcut : clusterLength (bytes.take (clusterLength bytes +
          total List.length ((clusters (bytes.drop (clusterLength bytes))).take n))) = clusterLength bytes := by
        rw [hm, ← lengths_behind]
        exact clusterLength_take bytes (Nat.le_add_right _ _)
      have hcut_ne : bytes.take (clusterLength bytes +
          total List.length ((clusters (bytes.drop (clusterLength bytes))).take n)) ≠ [] := by
        apply List.ne_nil_of_length_pos
        rw [List.length_take]
        omega
      rw [clusters_cons hcut_ne, hcut, List.take_take, Nat.min_eq_left (Nat.le_add_right _ _), List.drop_take,
        Nat.add_sub_cancel_left, ih]

/-- The boundaries are the ends of the clusters, the last excepted. -/
theorem mem_clusterStarts {fuel offset : Nat} {bytes : List UInt8} (h : bytes.length ≤ fuel) (p : Nat) :
    p ∈ clusterStarts fuel offset bytes ↔
      ∃ n, 0 < n ∧ n < (clusters bytes).length ∧ p = offset + total List.length ((clusters bytes).take n) := by
  induction fuel generalizing offset bytes with
  | zero =>
    obtain rfl := List.length_eq_zero_iff.mp (Nat.le_zero.mp h)
    simp [clusterStarts]
  | succ fuel ih =>
    by_cases hne : bytes = []
    · simp [clusterStarts, hne]
    have hpos := clusterLength_pos hne
    have hlen : (bytes.drop (clusterLength bytes)).length ≤ fuel := by
      rw [List.length_drop]
      omega
    rw [clusterStarts, clusters_cons hne, List.length_cons]
    by_cases hend : bytes.drop (clusterLength bytes) = []
    · simp only [hend, if_true, clusters_nil, List.length_nil, List.not_mem_nil, false_iff]
      rintro ⟨n, hn, hlt, -⟩
      omega
    · rw [if_neg hend, List.mem_cons, ih hlen]
      have hfirst : (bytes.take (clusterLength bytes)).length = clusterLength bytes := by
        rw [List.length_take, Nat.min_eq_left (clusterLength_le bytes)]
      have hsome : 0 < (clusters (bytes.drop (clusterLength bytes))).length := by
        rw [clusters_cons hend]
        exact Nat.succ_pos _
      constructor
      · rintro (rfl | ⟨n, hn, hlt, rfl⟩)
        · refine ⟨1, Nat.one_pos, by omega, ?_⟩
          rw [List.take_succ_cons, total_cons, hfirst]
          simp
        · refine ⟨n + 1, Nat.succ_pos n, by omega, ?_⟩
          rw [List.take_succ_cons, total_cons, hfirst, Nat.add_assoc]
      · rintro ⟨n, hn, hlt, rfl⟩
        obtain ⟨n, rfl⟩ : ∃ m, n = m + 1 := ⟨n - 1, by omega⟩
        rw [List.take_succ_cons, total_cons, hfirst]
        rcases Nat.eq_zero_or_pos n with rfl | hn
        · left
          simp
        · right
          exact ⟨n, hn, by omega, by rw [Nat.add_assoc]⟩

theorem mem_boundaries_iff (bytes : List UInt8) (p : Nat) :
    p ∈ boundaries bytes ↔
      ∃ n, 0 < n ∧ n < (clusters bytes).length ∧ p = total List.length ((clusters bytes).take n) := by
  rw [boundaries, mem_clusterStarts (Nat.le_refl _)]
  simp only [Nat.zero_add]

end SupraHarness.Width

/-!
## Cutting a string to its cells

The second walk over a string: clusters are taken from the front as long as they fit. It takes the
longest beginning of whole clusters within the limit, which measures what the walk has counted,
since both walks find the same clusters and a string cut between two of them falls into theirs.
-/
namespace SupraHarness.Width

open Fitting

/-- The loop of `supra_width_truncate`, which ends at the latest when every byte is consumed: the
bytes and the cells consumed. -/
def truncateLoop (maxCells : Nat) (ambiguous : Ambiguous) : Nat → List UInt8 → Nat × Nat → Nat × Nat
  | 0, _, consumed => consumed
  | fuel + 1, bytes, consumed =>
    if bytes = [] then consumed
    else
      let len := clusterLength bytes
      if len = 0 then consumed
      else
        let cells := cellsOf (clusterWidth (bytes.take len) ambiguous)
        if maxCells < consumed.2 + cells then consumed
        else truncateLoop maxCells ambiguous fuel (bytes.drop len) (consumed.1 + len, consumed.2 + cells)

/-- `supra_width_truncate` -/
def widthTruncate (bytes : List UInt8) (maxCells : Nat) (ambiguous : Ambiguous) : Nat × Nat :=
  truncateLoop maxCells ambiguous bytes.length bytes (0, 0)

variable {bytes : List UInt8} {maxCells : Nat} {ambiguous : Ambiguous}

/-! ### Places between clusters -/

/-- The ends of a string and the boundaries inside it. -/
def Aligned (bytes : List UInt8) (p : Nat) : Prop := p = 0 ∨ p ∈ boundaries bytes ∨ p = bytes.length

theorem total_clusters (bytes : List UInt8) : total List.length (clusters bytes) = bytes.length := by
  rw [total, ← List.length_flatten, flatten_clusters]

/-- The places between clusters are the ends of the beginnings of whole clusters. -/
theorem aligned_iff (bytes : List UInt8) (p : Nat) :
    Aligned bytes p ↔ ∃ n, n ≤ (clusters bytes).length ∧ p = total List.length ((clusters bytes).take n) := by
  rw [Aligned, mem_boundaries_iff]
  constructor
  · rintro (rfl | ⟨n, -, hlt, rfl⟩ | rfl)
    · exact ⟨0, Nat.zero_le _, rfl⟩
    · exact ⟨n, Nat.le_of_lt hlt, rfl⟩
    · exact ⟨_, Nat.le_refl _, by rw [List.take_length, total_clusters]⟩
  · rintro ⟨n, hle, rfl⟩
    rcases Nat.eq_zero_or_pos n with rfl | hpos
    · exact Or.inl rfl
    · rcases Nat.lt_or_eq_of_le hle with hlt | rfl
      · exact Or.inr (Or.inl ⟨n, hpos, hlt, rfl⟩)
      · exact Or.inr (Or.inr (by rw [List.take_length, total_clusters]))

/-- What is behind some clusters of a string falls into the others. -/
theorem clusters_drop (bytes : List UInt8) (n : Nat) :
    clusters (bytes.drop (total List.length ((clusters bytes).take n))) = (clusters bytes).drop n := by
  induction n generalizing bytes with
  | zero => rw [List.take_zero, total_nil, List.drop_zero, List.drop_zero]
  | succ n ih =>
    by_cases hne : bytes = []
    · rw [hne]
      rfl
    · rw [clusters_cons hne, List.take_succ_cons, total_cons, List.length_take,
        Nat.min_eq_left (clusterLength_le bytes), ← List.drop_drop, ih, List.drop_succ_cons]

theorem wcswidth_take (bytes : List UInt8) (n : Nat) :
    wcswidth (bytes.take (total List.length ((clusters bytes).take n))) ambiguous =
      total (clusterCells ambiguous) ((clusters bytes).take n) := by
  rw [wcswidth_eq, clusters_take]

/-- Between two clusters, widths add up. -/
theorem wcswidth_add {p : Nat} (h : Aligned bytes p) :
    wcswidth bytes ambiguous = wcswidth (bytes.take p) ambiguous + wcswidth (bytes.drop p) ambiguous := by
  obtain ⟨n, -, rfl⟩ := (aligned_iff bytes p).mp h
  rw [wcswidth_take, wcswidth_eq (bytes.drop _), clusters_drop, ← total_append, List.take_append_drop, wcswidth_eq]

/-! ### The walk -/

/-- The walk takes the clusters that fit. -/
theorem truncateLoop_eq (fuel : Nat) (bytes : List UInt8) (consumed : Nat × Nat) (hfuel : bytes.length ≤ fuel)
    (hcells : consumed.2 ≤ maxCells) :
    truncateLoop maxCells ambiguous fuel bytes consumed =
      let kept := fitting (clusterCells ambiguous) (maxCells - consumed.2) (clusters bytes)
      (consumed.1 + total List.length kept, consumed.2 + total (clusterCells ambiguous) kept) := by
  induction fuel generalizing bytes consumed with
  | zero =>
    obtain rfl := List.length_eq_zero_iff.mp (Nat.le_zero.mp hfuel)
    rfl
  | succ fuel ih =>
    rw [truncateLoop]
    by_cases hne : bytes = []
    · rw [if_pos hne, hne]
      rfl
    · have hpos := clusterLength_pos hne
      rw [if_neg hne, clusters_cons hne, fitting]
      simp only [Nat.pos_iff_ne_zero.mp hpos, if_false]
      by_cases hover : maxCells < consumed.2 + cellsOf (clusterWidth (bytes.take (clusterLength bytes)) ambiguous)
      · have hno : ¬ clusterCells ambiguous (bytes.take (clusterLength bytes)) ≤ maxCells - consumed.2 := by
          rw [clusterCells]
          omega
        rw [if_pos hover, if_neg hno]
        rfl
      · have hyes : clusterCells ambiguous (bytes.take (clusterLength bytes)) ≤ maxCells - consumed.2 := by
          rw [clusterCells]
          omega
        have hrest : (bytes.drop (clusterLength bytes)).length ≤ fuel := by
          rw [List.length_drop]
          omega
        rw [if_neg hover, if_pos hyes, ih _ _ hrest (Nat.le_of_not_lt hover)]
        simp only [total_cons, List.length_take, Nat.min_eq_left (clusterLength_le bytes), Nat.sub_sub, clusterCells,
          Nat.add_assoc]

/-- What is taken of a string. -/
def kept (bytes : List UInt8) (maxCells : Nat) (ambiguous : Ambiguous) : List (List UInt8) :=
  fitting (clusterCells ambiguous) maxCells (clusters bytes)

theorem widthTruncate_eq (bytes : List UInt8) (maxCells : Nat) (ambiguous : Ambiguous) :
    widthTruncate bytes maxCells ambiguous =
      (total List.length (kept bytes maxCells ambiguous),
        total (clusterCells ambiguous) (kept bytes maxCells ambiguous)) := by
  rw [widthTruncate, truncateLoop_eq bytes.length bytes (0, 0) (Nat.le_refl _) (Nat.zero_le _)]
  simp only [Nat.zero_add, Nat.sub_zero, kept]

theorem kept_eq_take (bytes : List UInt8) (maxCells : Nat) (ambiguous : Ambiguous) :
    kept bytes maxCells ambiguous = (clusters bytes).take (kept bytes maxCells ambiguous).length := by
  have hbegins : kept bytes maxCells ambiguous <+: clusters bytes := fitting_prefix maxCells _
  exact List.prefix_iff_eq_take.mp hbegins

/-- The contract of a cut. -/
structure Cuts (bytes : List UInt8) (maxCells : Nat) (ambiguous : Ambiguous) (r : Nat × Nat) : Prop where
  aligned : Aligned bytes r.1
  measured : r.2 = wcswidth (bytes.take r.1) ambiguous
  fits : r.2 ≤ maxCells
  longest : ∀ p, Aligned bytes p → r.1 < p → maxCells < wcswidth (bytes.take p) ambiguous

theorem widthTruncate_cuts (bytes : List UInt8) (maxCells : Nat) (ambiguous : Ambiguous) :
    Cuts bytes maxCells ambiguous (widthTruncate bytes maxCells ambiguous) := by
  have htake := kept_eq_take bytes maxCells ambiguous
  have hbegins : kept bytes maxCells ambiguous <+: clusters bytes := fitting_prefix maxCells _
  rw [widthTruncate_eq]
  constructor
  · rw [aligned_iff]
    exact ⟨_, hbegins.length_le, congrArg (total List.length) htake⟩
  · rw [htake]
    exact (wcswidth_take bytes _).symm
  · exact total_fitting_le maxCells (clusters bytes)
  · intro p hp hlt
    obtain ⟨n, hn, rfl⟩ := (aligned_iff bytes p).mp hp
    rw [wcswidth_take]
    apply lt_total_of_longer _ hn
    by_contra hshort
    have hmono := @total_take_mono _ List.length (clusters bytes) _ _ (Nat.le_of_not_lt hshort)
    change _ ≤ total List.length ((clusters bytes).take (kept bytes maxCells ambiguous).length) at hmono
    rw [← htake] at hmono
    exact absurd hlt (Nat.not_lt.mpr hmono)

/-- A larger limit takes at least as much. -/
theorem widthTruncate_mono (bytes : List UInt8) {maxCells maxCells' : Nat} (h : maxCells ≤ maxCells')
    (ambiguous : Ambiguous) :
    (widthTruncate bytes maxCells ambiguous).1 ≤ (widthTruncate bytes maxCells' ambiguous).1 ∧
      (widthTruncate bytes maxCells ambiguous).2 ≤ (widthTruncate bytes maxCells' ambiguous).2 := by
  have hlonger := @fitting_mono _ (clusterCells ambiguous) _ _ h (clusters bytes)
  rw [widthTruncate_eq, widthTruncate_eq]
  exact ⟨total_le_of_sublist hlonger.sublist, total_le_of_sublist hlonger.sublist⟩

/-- The clusters tile every string, widths add up between them, and a cut takes the longest beginning of whole
clusters within the limit, more of it for a larger limit. -/
theorem clusters_tile_and_cut (bytes : List UInt8) (ambiguous : Ambiguous) :
    (clusters bytes).flatten = bytes ∧ (∀ c ∈ clusters bytes, 0 < c.length) ∧
      (∀ front back, bytes = front ++ back → Aligned bytes front.length →
        wcswidth bytes ambiguous = wcswidth front ambiguous + wcswidth back ambiguous) ∧
      ∀ maxCells, Cuts bytes maxCells ambiguous (widthTruncate bytes maxCells ambiguous) ∧
        ∀ maxCells', maxCells ≤ maxCells' →
          (widthTruncate bytes maxCells ambiguous).1 ≤ (widthTruncate bytes maxCells' ambiguous).1 ∧
            (widthTruncate bytes maxCells ambiguous).2 ≤ (widthTruncate bytes maxCells' ambiguous).2 := by
  refine ⟨flatten_clusters bytes, ?_, ?_, ?_⟩
  · intro c hc
    exact List.length_pos_iff.mpr (cluster_ne_nil bytes c hc)
  · rintro front back rfl haligned
    have hadd := @wcswidth_add (front ++ back) ambiguous front.length haligned
    rwa [List.take_left, List.drop_left] at hadd
  · intro maxCells
    exact ⟨widthTruncate_cuts bytes maxCells ambiguous, fun maxCells' h => widthTruncate_mono bytes h ambiguous⟩

end SupraHarness.Width
