import SupraHarness.Lib.Run
import SupraHarness.Prompt.Ledger
import SupraHarness.Prompt.Prefix

/-!
# Restoring a ledger from its snapshot

What the loader checks, as one predicate, and what every run of ledger
operations keeps of it. Beside the ledger a session counts the segments that
were appended since the latest seal. As long as no live prefix was dropped, the
snapshot of a ledger is restored to the same ledger exactly when there is no
seal or nothing was appended after it.
-/
namespace SupraHarness.Prompt

open SupraHarness.Types
open SupraHarness.Run (run run_invariant)

variable {blake3 : List UInt8 → ContentHash}

/-! ## What the loader accepts -/

/-- Everything `from_snapshot` checks. -/
structure Restorable (s : LedgerSnapshot blake3) : Prop where
  dense : s.entries.toList.map (fun entry => entry.seq.get) = List.range' 0 s.entries.toList.length
  distinct : (idsOf s.entries).toList.Nodup
  next : s.nextSeq.get = s.entries.toList.length
  unsealed : s.latestGeneration = none → s.generation = 0
  counter : ∀ record, s.latestGeneration = some record →
    s.generation.toNat = record.generation.toNat + 1
  segments : ∀ record, s.latestGeneration = some record → record.segments = idsOf s.entries
  prefixHash : ∀ record, s.latestGeneration = some record →
    record.prefixHash = hashSequence blake3 (pairsOf s.entries)

/-- The entry loop: positions count up from `index`, and no identity is new twice. -/
theorem validateEntries_ok {entries : List (Sealed blake3 Segment)} {index : Nat}
    {ids : List SegmentId} (hsize : index + entries.length ≤ 2 ^ 64) :
    validateEntries index ids entries = .ok () ↔
      entries.map (fun entry => entry.seq.get) = List.range' index entries.length ∧
      (entries.map fun entry => entry.value.id).Nodup ∧
      ∀ entry ∈ entries, entry.value.id ∉ ids := by
  induction entries generalizing index ids with
  | nil => simp [validateEntries]
  | cons entry rest ih =>
    have hindex : index < 2 ^ 64 := by simp only [List.length_cons] at hsize; omega
    have hrest : index + 1 + rest.length ≤ 2 ^ 64 := by simp only [List.length_cons] at hsize; omega
    rw [validateEntries, if_neg (not_not_intro hindex)]
    by_cases hseq : entry.seq.get = index
    · by_cases hid : entry.value.id ∈ ids
      · simp [hseq, hid]
      · rw [if_neg (not_not_intro hseq), if_neg (by simp), if_neg hid, ih hrest]
        simp only [List.map_cons, List.length_cons, List.range'_succ, List.cons.injEq, hseq, true_and,
          List.nodup_cons, List.mem_map, List.mem_cons, not_or, forall_eq_or_imp]
        constructor
        · rintro ⟨hdense, hnodup, hfresh⟩
          refine ⟨hdense, ⟨?_, hnodup⟩, hid, ?_⟩
          · rintro ⟨other, hmem, heq⟩
            exact (hfresh other hmem).1 heq
          · intro other hmem
            exact (hfresh other hmem).2
        · rintro ⟨hdense, ⟨hnew, hnodup⟩, -, hfresh⟩
          refine ⟨hdense, hnodup, ?_⟩
          intro other hmem
          exact ⟨fun heq => hnew ⟨other, hmem, heq⟩, hfresh other hmem⟩
    · simp [hseq, List.range'_succ]

theorem validateNext_ok {s : LedgerSnapshot blake3} :
    validateNext s = .ok () ↔ s.nextSeq.get = s.entries.toList.length := by
  have hsize : s.entries.toList.length < 2 ^ 64 := s.entries.fits.trans (by decide)
  simp only [validateNext]
  rw [if_neg (not_not_intro hsize)]
  by_cases h : s.nextSeq.get = s.entries.toList.length <;> simp [h]

theorem succU64_ok_iff {n m : UInt64} : succU64 n = some m ↔ m.toNat = n.toNat + 1 := by
  constructor
  · intro h
    exact succU64_eq_some h
  · intro h
    have hlt : n.toNat + 1 < 2 ^ 64 := h ▸ m.toNat_lt
    rw [succU64, if_pos hlt, Option.some.injEq, ← UInt64.toNat_inj, UInt64.toNat_ofNat_of_lt' hlt, h]

theorem validateSeal_ok {s : LedgerSnapshot blake3} :
    validateSeal s = .ok () ↔
      (s.latestGeneration = none → s.generation = 0) ∧
      ∀ record, s.latestGeneration = some record →
        s.generation.toNat = record.generation.toNat + 1 ∧ record.segments = idsOf s.entries ∧
        record.prefixHash = hashSequence blake3 (pairsOf s.entries) := by
  unfold validateSeal
  cases hlatest : s.latestGeneration with
  | none => by_cases h : s.generation = 0 <;> simp [h]
  | some record =>
    cases hnext : succU64 record.generation with
    | none =>
      have hno : s.generation.toNat ≠ record.generation.toNat + 1 := by
        intro h
        rw [succU64_ok_iff.mpr h] at hnext
        cases hnext
      simp [hnext, hno]
    | some expected =>
      have hexpected : s.generation = expected ↔ s.generation.toNat = record.generation.toNat + 1 := by
        rw [← succU64_eq_some hnext, UInt64.toNat_inj]
      simp only [hnext, reduceCtorEq, false_implies, Option.some.injEq, forall_eq', true_and,
        ← hexpected, ne_eq]
      by_cases hgen : s.generation = expected
      · by_cases hseg : record.segments = idsOf s.entries
        · by_cases hhash : record.prefixHash = hashSequence blake3 (pairsOf s.entries) <;>
            simp [hgen, hseg, hhash]
        · simp [hgen, hseg]
      · simp [hgen]

theorem bind_ok_iff {ε α : Type} {x : Except ε Unit} {y : Except ε α} {a : α} :
    (x >>= fun _ => y) = .ok a ↔ x = .ok () ∧ y = .ok a := by
  cases x with
  | error e => simp [bind, Except.bind]
  | ok u => simp [bind, Except.bind]

/-- The loader accepts exactly the restorable snapshots. -/
theorem validateSnapshot_ok {s : LedgerSnapshot blake3} :
    validateSnapshot s = .ok () ↔ Restorable s := by
  have hsize : 0 + s.entries.toList.length ≤ 2 ^ 64 := by
    have hfits := s.entries.fits
    omega
  rw [validateSnapshot, bind_ok_iff, bind_ok_iff, validateEntries_ok hsize, validateNext_ok,
    validateSeal_ok]
  constructor
  · rintro ⟨⟨hdense, hdistinct, -⟩, hnext, hnone, hsome⟩
    exact ⟨hdense, hdistinct, hnext, hnone, fun r hr => (hsome r hr).1, fun r hr => (hsome r hr).2.1,
      fun r hr => (hsome r hr).2.2⟩
  · intro h
    exact ⟨⟨h.dense, h.distinct, by simp⟩, h.next, h.unsealed,
      fun r hr => ⟨h.counter r hr, h.segments r hr, h.prefixHash r hr⟩⟩

/-- What is restored has the persisted fields, whatever they were. -/
theorem fromSnapshot_eq_ok {s : LedgerSnapshot blake3} {l : PromptLedger blake3} :
    PromptLedger.fromSnapshot s = .ok l ↔ Restorable s ∧ l.snapshot = s := by
  rw [PromptLedger.fromSnapshot, bind_ok_iff, validateSnapshot_ok]
  constructor
  · rintro ⟨h, hl⟩
    cases hl
    exact ⟨h, rfl⟩
  · rintro ⟨h, rfl⟩
    exact ⟨h, rfl⟩

/-! ## Runs of the ledger -/

/-- A ledger and the number of segments appended since its latest seal. -/
structure Session (blake3 : List UInt8 → ContentHash) where
  ledger : PromptLedger blake3
  unsealed : Nat

def Session.new : Session blake3 := ⟨PromptLedger.new, 0⟩

inductive Op (blake3 : List UInt8 → ContentHash) where
  | append (segment : Segment)
  | sealGeneration
  | clearForRewrite
  | rewrite
  | fromSnapshot (snapshot : LedgerSnapshot blake3)

/-- One call; a refused append or snapshot leaves the ledger that was there. -/
def step (s : Session blake3) : Op blake3 → Option (Session blake3)
  | .append segment => do
    let (l, answer) ← s.ledger.append segment
    match answer with
    | .ok _ => some ⟨l, s.unsealed + 1⟩
    | .error _ => some ⟨l, s.unsealed⟩
  | .sealGeneration => do
    let (l, _) ← s.ledger.sealGeneration
    some ⟨l, 0⟩
  | .clearForRewrite => some ⟨s.ledger.clearForRewrite, s.unsealed⟩
  | .rewrite => do
    let (l, _) ← s.ledger.rewrite
    some ⟨l, 0⟩
  | .fromSnapshot snapshot =>
    match PromptLedger.fromSnapshot snapshot with
    | .ok l => some ⟨l, 0⟩
    | .error _ => some s

/-- Positions count up from `base`, identities are distinct, the counter is one past the seal. -/
structure Ordered (base : Nat) (l : PromptLedger blake3) : Prop where
  seqs : l.entries.toList.map (fun entry => entry.seq.get) = List.range' base l.entries.toList.length
  next : l.nextSeq.get = base + l.entries.toList.length
  distinct : (idsOf l.entries).toList.Nodup
  unsealed : l.latestGeneration = none → l.generation = 0
  counter : ∀ record, l.latestGeneration = some record →
    l.generation.toNat = record.generation.toNat + 1

/-- The latest seal covers all but the last `unsealed` segments, and is current when that is none. -/
def SealTracks (s : Session blake3) : Prop :=
  ∀ record, s.ledger.latestGeneration = some record →
    record.segments.toList.length + s.unsealed = s.ledger.entries.toList.length ∧
    (s.unsealed = 0 → record.segments = idsOf s.ledger.entries ∧
      record.prefixHash = s.ledger.prefixHash)

/-- In a session whose prefix still starts at position zero, the seal tracks the live sequence. -/
def Inv (s : Session blake3) : Prop :=
  ∃ base, Ordered base s.ledger ∧ (base = 0 → SealTracks s)

/-- What an append does: it refuses a known identity, or adds one entry at the next position. -/
theorem append_eq_some {l l' : PromptLedger blake3} {segment : Segment}
    {answer : Except PromptError SeqNo} (h : l.append segment = some (l', answer)) :
    (l' = l ∧ answer = .error (.duplicateSegment segment.id) ∧
      segment.id ∈ (idsOf l.entries).toList) ∨
    (segment.id ∉ (idsOf l.entries).toList ∧ answer = .ok l.nextSeq ∧
      l'.entries.toList = l.entries.toList ++ [Sealed.seal blake3 l.nextSeq segment] ∧
      l'.nextSeq.get = l.nextSeq.get + 1 ∧ l'.generation = l.generation ∧
      l'.latestGeneration = l.latestGeneration) := by
  have hany : (l.entries.toList.any fun entry => entry.value.id == segment.id) = true ↔
      segment.id ∈ (idsOf l.entries).toList := by
    simp [idsOf, List.any_eq_true]
  unfold PromptLedger.append at h
  by_cases hid : segment.id ∈ (idsOf l.entries).toList
  · rw [if_pos (hany.mpr hid)] at h
    cases h
    exact Or.inl ⟨rfl, rfl, hid⟩
  · rw [if_neg (fun h => hid (hany.mp h))] at h
    simp only [Option.bind_eq_bind, Option.bind_eq_some_iff] at h
    obtain ⟨next, hnext, entries, hpush, h⟩ := h
    cases h
    exact Or.inr ⟨hid, rfl, Vec.push_eq_some hpush, SeqNo.next_eq_some hnext, rfl, rfl⟩

/-- What a seal does: it records the live sequence and advances the counter. -/
theorem sealGeneration_eq_some {l l' : PromptLedger blake3} {record : Generation}
    (h : l.sealGeneration = some (l', record)) :
    record = ⟨l.generation, idsOf l.entries, l.prefixHash⟩ ∧ l'.entries = l.entries ∧
      l'.nextSeq = l.nextSeq ∧ l'.generation.toNat = l.generation.toNat + 1 ∧
      l'.latestGeneration = some record := by
  unfold PromptLedger.sealGeneration at h
  simp only [Option.bind_eq_bind, Option.bind_eq_some_iff] at h
  obtain ⟨generation, hgen, h⟩ := h
  cases h
  exact ⟨rfl, rfl, rfl, succU64_eq_some hgen, rfl⟩

theorem ordered_append {base : Nat} {l l' : PromptLedger blake3} {segment : Segment}
    {answer : Except PromptError SeqNo} (hl : Ordered base l)
    (h : l.append segment = some (l', answer)) : Ordered base l' := by
  obtain ⟨rfl, -, -⟩ | ⟨hid, -, hentries, hnext, hgen, hlatest⟩ := append_eq_some h
  · exact hl
  · constructor
    · rw [hentries, List.map_append, hl.seqs, List.length_append, List.length_singleton,
        List.range'_concat]
      simp [Sealed.seal, hl.next]
    · rw [hnext, hl.next, hentries, List.length_append, List.length_singleton, Nat.add_assoc]
    · have hids : (idsOf l'.entries).toList = (idsOf l.entries).toList ++ [segment.id] := by
        simp [idsOf, hentries, Sealed.seal]
      rw [hids]
      exact List.nodup_append.mpr ⟨hl.distinct, List.nodup_singleton _, by
        intro a ha b hb hab
        rw [List.mem_singleton.mp hb] at hab
        exact hid (hab ▸ ha)⟩
    · rw [hgen, hlatest]
      exact hl.unsealed
    · rw [hgen, hlatest]
      exact hl.counter

theorem ordered_seal {base : Nat} {l l' : PromptLedger blake3} {record : Generation}
    (hl : Ordered base l) (h : l.sealGeneration = some (l', record)) : Ordered base l' := by
  obtain ⟨hrecord, hentries, hnext, hgen, hlatest⟩ := sealGeneration_eq_some h
  constructor
  · rw [hentries, hl.seqs]
  · rw [hnext, hentries, hl.next]
  · rw [hentries]
    exact hl.distinct
  · intro hnone
    rw [hlatest] at hnone
    cases hnone
  · intro r hr
    rw [hlatest, Option.some.injEq] at hr
    rw [hgen, ← hr, hrecord]

/-- Right after a seal nothing is unsealed and the seal is current. -/
theorem sealTracks_seal {l l' : PromptLedger blake3} {record : Generation}
    (h : l.sealGeneration = some (l', record)) : SealTracks ⟨l', 0⟩ := by
  obtain ⟨hrecord, hentries, -, -, hlatest⟩ := sealGeneration_eq_some h
  intro r hr
  rw [hlatest, Option.some.injEq] at hr
  subst hr
  rw [hrecord, PromptLedger.prefixHash, PromptLedger.prefixHash, hentries]
  exact ⟨by simp [idsOf], fun _ => ⟨rfl, rfl⟩⟩

/-- Dropping the live prefix moves the base to the next position. -/
theorem ordered_clear {base : Nat} {l : PromptLedger blake3} (hl : Ordered base l) :
    Ordered (base + l.entries.toList.length) l.clearForRewrite := by
  constructor
  · rfl
  · simpa [PromptLedger.clearForRewrite] using hl.next
  · simp [PromptLedger.clearForRewrite, idsOf]
  · exact hl.unsealed
  · exact hl.counter

theorem clear_of_empty {l : PromptLedger blake3} (h : l.entries.toList = []) :
    l.clearForRewrite = l := by
  have hempty : l.entries = Vec.empty := Vec.ext h
  cases l
  simp_all [PromptLedger.clearForRewrite]

theorem ordered_reappend {base : Nat} {live : List Segment} {l l' : PromptLedger blake3}
    {skipped skipped' : List PromptError} (hl : Ordered base l)
    (h : l.reappend skipped live = some (l', skipped')) : Ordered base l' := by
  induction live generalizing l skipped with
  | nil =>
    cases h
    exact hl
  | cons segment rest ih =>
    simp only [PromptLedger.reappend, Option.bind_eq_bind, Option.bind_eq_some_iff] at h
    obtain ⟨⟨m, answer⟩, happend, h⟩ := h
    have hm := ordered_append hl happend
    cases answer with
    | ok seq => exact ih hm h
    | error e => exact ih hm h

/-- A rewrite moves the base past the old prefix and ends with a current seal. -/
theorem rewrite_inv {base : Nat} {l l' : PromptLedger blake3} {before after : Generation}
    {skipped : List PromptError} (hl : Ordered base l)
    (h : l.rewrite = some (l', before, after, skipped)) :
    (∃ base', Ordered base' l') ∧ SealTracks ⟨l', 0⟩ := by
  simp only [PromptLedger.rewrite, Option.bind_eq_bind, Option.bind_eq_some_iff] at h
  obtain ⟨⟨l₁, first⟩, hfirst, ⟨l₂, refused⟩, happend, ⟨l₃, second⟩, hsecond, h⟩ := h
  cases h
  have hcleared := ordered_clear (ordered_seal hl hfirst)
  exact ⟨⟨_, ordered_seal (ordered_reappend hcleared happend) hsecond⟩, sealTracks_seal hsecond⟩

theorem inv_new : Inv (Session.new : Session blake3) := by
  refine ⟨0, ?_, ?_⟩
  · constructor <;> simp [Session.new, PromptLedger.new, SeqNo.zero, SeqNo.get, idsOf]
  · intro _ record h
    cases h

/-- A restored ledger starts at position zero under a current seal. -/
theorem inv_restored {s : LedgerSnapshot blake3} {l : PromptLedger blake3}
    (h : PromptLedger.fromSnapshot s = .ok l) : Inv ⟨l, 0⟩ := by
  obtain ⟨hs, rfl⟩ := fromSnapshot_eq_ok.mp h
  have hnext : l.nextSeq.get = 0 + l.entries.toList.length := by
    rw [Nat.zero_add]
    exact hs.next
  refine ⟨0, ⟨hs.dense, hnext, hs.distinct, hs.unsealed, hs.counter⟩, ?_⟩
  intro _ record hr
  refine ⟨?_, fun _ => ⟨hs.segments record hr, hs.prefixHash record hr⟩⟩
  rw [hs.segments record hr]
  simp [idsOf, PromptLedger.snapshot]

theorem step_inv (s : Session blake3) (op : Op blake3) (s' : Session blake3) (hs : Inv s)
    (h : step s op = some s') : Inv s' := by
  obtain ⟨base, hl, htracks⟩ := hs
  cases op with
  | append segment =>
    simp only [step, Option.bind_eq_bind, Option.bind_eq_some_iff] at h
    obtain ⟨⟨l, answer⟩, happend, h⟩ := h
    refine ⟨base, ?_, ?_⟩
    · cases answer <;> cases h <;> exact ordered_append hl happend
    · intro hbase record hr
      obtain ⟨rfl, rfl, -⟩ | ⟨-, rfl, hentries, -, -, hlatest⟩ := append_eq_some happend
      · cases h
        exact htracks hbase record hr
      · cases h
        obtain ⟨hcount, -⟩ := htracks hbase record (hlatest ▸ hr)
        refine ⟨?_, fun h0 => absurd h0 (Nat.succ_ne_zero _)⟩
        simp only [hentries, List.length_append, List.length_singleton]
        omega
  | sealGeneration =>
    simp only [step, Option.bind_eq_bind, Option.bind_eq_some_iff] at h
    obtain ⟨⟨l, record⟩, hseal, h⟩ := h
    cases h
    exact ⟨base, ordered_seal hl hseal, fun _ => sealTracks_seal hseal⟩
  | clearForRewrite =>
    cases h
    refine ⟨base + s.ledger.entries.toList.length, ordered_clear hl, ?_⟩
    intro hbase
    have hempty : s.ledger.entries.toList = [] := List.eq_nil_of_length_eq_zero (by omega)
    have htracks := htracks (by omega)
    rw [SealTracks] at htracks ⊢
    rw [clear_of_empty hempty]
    exact htracks
  | rewrite =>
    simp only [step, Option.bind_eq_bind, Option.bind_eq_some_iff] at h
    obtain ⟨⟨l, before, after, skipped⟩, hrewrite, h⟩ := h
    cases h
    obtain ⟨⟨base', hordered⟩, hseal⟩ := rewrite_inv hl hrewrite
    exact ⟨base', hordered, fun _ => hseal⟩
  | fromSnapshot snapshot =>
    simp only [step] at h
    cases hrestore : PromptLedger.fromSnapshot snapshot with
    | ok l =>
      rw [hrestore] at h
      cases h
      exact inv_restored hrestore
    | error e =>
      rw [hrestore] at h
      cases h
      exact ⟨base, hl, htracks⟩

/-- A ledger that still starts at position zero is restorable when its seal is current. -/
theorem restorable_iff {s : Session blake3} (hs : Inv s)
    (hzero : s.ledger.nextSeq.get = s.ledger.entries.toList.length) :
    Restorable s.ledger.snapshot ↔ s.ledger.latestGeneration = none ∨ s.unsealed = 0 := by
  obtain ⟨base, hl, htracks⟩ := hs
  have hbase : base = 0 := by
    have hnext := hl.next
    omega
  subst hbase
  constructor
  · intro h
    cases hlatest : s.ledger.latestGeneration with
    | none => exact Or.inl rfl
    | some record =>
      right
      have hcount := (htracks rfl record hlatest).1
      rw [h.segments record hlatest] at hcount
      simp only [idsOf, PromptLedger.snapshot, Vec.toList_map, List.length_map] at hcount
      omega
  · intro h
    have hcurrent : ∀ record, s.ledger.latestGeneration = some record →
        record.segments = idsOf s.ledger.entries ∧ record.prefixHash = s.ledger.prefixHash := by
      intro record hr
      rcases h with hnone | hzero
      · rw [hnone] at hr
        cases hr
      · exact (htracks rfl record hr).2 hzero
    exact ⟨hl.seqs, hl.distinct, hzero, hl.unsealed, hl.counter, fun r hr => (hcurrent r hr).1,
      fun r hr => (hcurrent r hr).2⟩

theorem validateEntries_error {entries : List (Sealed blake3 Segment)} {index : Nat}
    {ids : List SegmentId} {e : PromptError} (h : validateEntries index ids entries = .error e) :
    ∃ detail, e = .invalidSnapshot detail := by
  induction entries generalizing index ids with
  | nil => cases h
  | cons entry rest ih =>
    unfold validateEntries at h
    split at h
    · cases h; exact ⟨_, rfl⟩
    · split at h
      · cases h; exact ⟨_, rfl⟩
      · split at h
        · cases h; exact ⟨_, rfl⟩
        · split at h
          · cases h; exact ⟨_, rfl⟩
          · exact ih h

theorem validateNext_error {s : LedgerSnapshot blake3} {e : PromptError}
    (h : validateNext s = .error e) : ∃ detail, e = .invalidSnapshot detail := by
  simp only [validateNext] at h
  split at h
  · cases h; exact ⟨_, rfl⟩
  · split at h
    · cases h; exact ⟨_, rfl⟩
    · cases h

theorem validateSeal_error {s : LedgerSnapshot blake3} {e : PromptError}
    (h : validateSeal s = .error e) : ∃ detail, e = .invalidSnapshot detail := by
  simp only [validateSeal] at h
  repeat' split at h
  all_goals first | exact ⟨_, (Except.error.inj h).symm⟩ | cases h

/-- Every refusal of the loader names an invalid snapshot. -/
theorem fromSnapshot_error {s : LedgerSnapshot blake3} {e : PromptError}
    (h : PromptLedger.fromSnapshot s = .error e) : ∃ detail, e = .invalidSnapshot detail := by
  unfold PromptLedger.fromSnapshot validateSnapshot at h
  cases hentries : validateEntries 0 [] s.entries.toList with
  | error e' =>
    rw [hentries] at h
    cases h
    exact validateEntries_error hentries
  | ok u =>
    cases hnext : validateNext s with
    | error e' =>
      rw [hentries, hnext] at h
      cases h
      exact validateNext_error hnext
    | ok u =>
      cases hseal : validateSeal s with
      | error e' =>
        rw [hentries, hnext, hseal] at h
        cases h
        exact validateSeal_error hseal
      | ok u =>
        rw [hentries, hnext, hseal] at h
        cases h

/-- After every run of ledger operations, a snapshot that is accepted gives back the same ledger.
While the live prefix starts at position zero, it is accepted when nothing was appended since the
latest seal, or nothing was sealed, and refused as invalid otherwise. -/
theorem snapshot_restored_iff (ops : List (Op blake3)) (s : Session blake3)
    (h : run step Session.new ops = some s) :
    (∀ l, PromptLedger.fromSnapshot s.ledger.snapshot = .ok l → l = s.ledger) ∧
    (s.ledger.nextSeq.get = s.ledger.entries.toList.length →
      (s.ledger.latestGeneration = none ∨ s.unsealed = 0 →
        PromptLedger.fromSnapshot s.ledger.snapshot = .ok s.ledger) ∧
      (¬ (s.ledger.latestGeneration = none ∨ s.unsealed = 0) →
        ∃ detail, PromptLedger.fromSnapshot s.ledger.snapshot = .error (.invalidSnapshot detail))) := by
  have hinv : Inv s := run_invariant step_inv ops inv_new h
  have hsame : ∀ l, PromptLedger.fromSnapshot s.ledger.snapshot = .ok l → l = s.ledger := by
    intro l hl
    obtain ⟨-, heq⟩ := fromSnapshot_eq_ok.mp hl
    simp only [PromptLedger.snapshot, LedgerSnapshot.mk.injEq] at heq
    exact PromptLedger.ext heq.1 heq.2.1 heq.2.2.1 heq.2.2.2
  refine ⟨hsame, ?_⟩
  intro hzero
  rw [← restorable_iff hinv hzero]
  constructor
  · intro hr
    exact fromSnapshot_eq_ok.mpr ⟨hr, rfl⟩
  · intro hr
    cases hres : PromptLedger.fromSnapshot s.ledger.snapshot with
    | ok l => exact absurd (fromSnapshot_eq_ok.mp hres).1 hr
    | error e =>
      obtain ⟨detail, rfl⟩ := fromSnapshot_error hres
      exact ⟨detail, rfl⟩

/-! A prefix of one contract, sealed, and then a turn. -/

def zeroDigest : List UInt8 → ContentHash := fun _ => ⟨Vector.replicate 32 0⟩

def contract : Segment := { contractSegment with id := Id.fromU128 1 }

def question : Segment :=
  ⟨Id.fromU128 2, .turn (Id.fromU128 3) .user, ⟨[.text ⟨"hi", by decide⟩], by decide⟩, by decide, by decide⟩

theorem append_after_seal_refused :
    ((run step (Session.new : Session zeroDigest)
        [.append contract, .sealGeneration, .append question]).map
      fun s => PromptLedger.fromSnapshot s.ledger.snapshot) =
      some (.error (.invalidSnapshot "generation 0 records a different segment sequence")) := by
  rfl

def sealedRun : List (Op zeroDigest) :=
  [.append contract, .sealGeneration, .append question, .sealGeneration]

/-- Sealed again, the same ledger comes back. -/
theorem snapshot_restored_sealed :
    ∃ s, run step Session.new sealedRun = some s ∧
      PromptLedger.fromSnapshot s.ledger.snapshot = .ok s.ledger := by
  have hs := snapshot_restored_iff sealedRun _ rfl
  exact ⟨_, rfl, (hs.2 rfl).1 (Or.inr rfl)⟩

end SupraHarness.Prompt

/-!
## The ledger only grows

A session that never rewrites its prefix appends and seals. Its entries count up from position
zero, no identity comes twice, and whatever the ledger held earlier is the beginning of what it
holds now. A seal taken earlier is proved again exactly when nothing was appended since, as long
as the hash function tells the two pair sequences apart.
-/
namespace SupraHarness.Prompt

open SupraHarness.Types
open SupraHarness.Run (run run_invariant)

variable {blake3 : List UInt8 → ContentHash} {l l' m : PromptLedger blake3}

/-- The calls of a session without a rewrite. -/
inductive Call where
  | append (segment : Segment)
  | sealGeneration

/-- One call; a refused append leaves the ledger that was there. -/
def call (l : PromptLedger blake3) : Call → Option (PromptLedger blake3)
  | .append segment => (l.append segment).map Prod.fst
  | .sealGeneration => l.sealGeneration.map Prod.fst

theorem ordered_new : Ordered 0 (PromptLedger.new : PromptLedger blake3) := by
  constructor <;> simp [PromptLedger.new, SeqNo.zero, SeqNo.get, idsOf]

theorem call_ordered (l : PromptLedger blake3) (c : Call) (l' : PromptLedger blake3) (hl : Ordered 0 l)
    (h : call l c = some l') : Ordered 0 l' := by
  cases c with
  | append segment =>
    obtain ⟨⟨l'', answer⟩, happend, rfl⟩ := Option.map_eq_some_iff.mp h
    exact ordered_append hl happend
  | sealGeneration =>
    obtain ⟨⟨l'', record⟩, hseal, rfl⟩ := Option.map_eq_some_iff.mp h
    exact ordered_seal hl hseal

/-- A call keeps the entries and may add one behind them. -/
theorem call_extends {c : Call} (h : call l c = some l') : l.entries.toList <+: l'.entries.toList := by
  cases c with
  | append segment =>
    obtain ⟨⟨l'', answer⟩, happend, rfl⟩ := Option.map_eq_some_iff.mp h
    obtain ⟨rfl, -, -⟩ | ⟨-, -, hentries, -⟩ := append_eq_some happend
    · exact List.prefix_rfl
    · rw [hentries]
      exact List.prefix_append _ _
  | sealGeneration =>
    obtain ⟨⟨l'', record⟩, hseal, rfl⟩ := Option.map_eq_some_iff.mp h
    rw [(sealGeneration_eq_some hseal).2.1]

theorem run_extends {calls : List Call} (h : run call l calls = some m) :
    l.entries.toList <+: m.entries.toList := by
  have hstep : ∀ (s : PromptLedger blake3) (c : Call) (s' : PromptLedger blake3),
      l.entries.toList <+: s.entries.toList → call s c = some s' → l.entries.toList <+: s'.entries.toList := by
    intro s c s' hs hc
    exact hs.trans (call_extends hc)
  exact run_invariant hstep calls List.prefix_rfl h

/-- An append that is refused changes nothing. -/
theorem append_error {segment : Segment} {e : PromptError} (h : l.append segment = some (l', .error e)) : l' = l := by
  obtain ⟨rfl, -, -⟩ | ⟨-, hok, -⟩ := append_eq_some h
  · rfl
  · cases hok

theorem verifyGeneration_ok (l : PromptLedger blake3) (record : Generation) :
    l.verifyGeneration record = .ok () ↔ l.prefixHash = record.prefixHash := by
  rw [PromptLedger.verifyGeneration]
  by_cases h : l.prefixHash = record.prefixHash
  · simp [h]
  · simp [h]

/-- The pair sequence of a ledger, as it is hashed. -/
def pairMessage (l : PromptLedger blake3) : List UInt8 := canonical (⟨pairsOf l.entries⟩ : Pairs)

/-- A longer sequence has another pair sequence. -/
theorem entries_eq_of_pairs (hbegins : l.entries.toList <+: m.entries.toList) (h : pairMessage m = pairMessage l) :
    m.entries = l.entries := by
  have hpairs := Pairs.mk.inj (canonical_injective h)
  have hlength : m.entries.toList.length = l.entries.toList.length := by
    have hlen := congrArg (fun v => v.toList.length) hpairs
    simpa [pairsOf] using hlen
  exact Vec.ext (hbegins.eq_of_length hlength.symm).symm

/-- A seal is proved again exactly when the entries are those that were sealed. -/
theorem verify_iff {record : Generation} (hbegins : l.entries.toList <+: m.entries.toList)
    (hseal : l.sealGeneration = some (l', record)) (hfree : blake3 (pairMessage m) = blake3 (pairMessage l) →
      pairMessage m = pairMessage l) : m.verifyGeneration record = .ok () ↔ m.entries = l.entries := by
  rw [verifyGeneration_ok, (sealGeneration_eq_some hseal).1]
  constructor
  · intro h
    exact entries_eq_of_pairs hbegins (hfree h)
  · intro h
    rw [PromptLedger.prefixHash, h]
    rfl

/-- A ledger built by appends and seals: its positions are dense, its identities distinct, every earlier
ledger is its beginning, and it proves an earlier seal exactly when its entries are the sealed ones. -/
theorem ledger_appends_only {before after : List Call} (hbefore : run call PromptLedger.new before = some l)
    (hafter : run call l after = some m) :
    m.entries.toList.map (fun entry => entry.seq.get) = List.range m.entries.toList.length ∧
      m.nextSeq.get = m.entries.toList.length ∧ (idsOf m.entries).toList.Nodup ∧
      l.entries.toList <+: m.entries.toList ∧
      (∀ segment m' e, m.append segment = some (m', .error e) → m' = m) ∧
      ∀ sealed record, l.sealGeneration = some (sealed, record) → record.segments = idsOf l.entries ∧
        ((blake3 (pairMessage m) = blake3 (pairMessage l) → pairMessage m = pairMessage l) →
          (m.verifyGeneration record = .ok () ↔ m.entries = l.entries)) := by
  have hordered := run_invariant call_ordered after (run_invariant call_ordered before ordered_new hbefore) hafter
  have hbegins := run_extends hafter
  refine ⟨?_, ?_, hordered.distinct, hbegins, ?_, ?_⟩
  · rw [hordered.seqs, List.range_eq_range']
  · rw [hordered.next, Nat.zero_add]
  · intro segment m' e h
    exact append_error h
  · intro sealed record hseal
    refine ⟨?_, fun hfree => verify_iff hbegins hseal hfree⟩
    rw [(sealGeneration_eq_some hseal).1]

/-- The digests of the messages of a contract and a question, and of their pair sequences. -/
def chainDigest (message : List UInt8) : ContentHash :=
  if message.head? = some 0x20 then
    if message.length = 76 then contractDigest message
    else ⟨#v[163, 94, 149, 248, 0, 226, 150, 249, 82, 0, 12, 136, 9, 159, 130, 228,
      72, 66, 9, 190, 136, 59, 80, 126, 182, 99, 24, 166, 36, 42, 184, 201]⟩
  else if message[10]? = some 2 then ⟨#v[66, 217, 88, 27, 3, 38, 199, 3, 185, 241, 47, 184, 157, 64, 6, 43,
    209, 82, 118, 27, 75, 166, 179, 13, 41, 131, 165, 94, 80, 163, 142, 138]⟩
  else contractDigest message

def contractHeld : PromptLedger chainDigest :=
  ⟨⟨[Sealed.seal chainDigest ⟨0⟩ contractSegment], by simp⟩, ⟨1⟩, 0, none⟩

def contractRecord : Generation := ⟨0, idsOf contractHeld.entries, contractHeld.prefixHash⟩

def questionHeld : PromptLedger chainDigest :=
  ⟨⟨[Sealed.seal chainDigest ⟨0⟩ contractSegment, Sealed.seal chainDigest ⟨1⟩ question], by simp⟩, ⟨2⟩, 1,
    some contractRecord⟩

/-- A question behind a sealed contract: the seal is not proved again. -/
theorem ledger_appends_only_question :
    run call PromptLedger.new [.append contractSegment] = some contractHeld ∧
      run call contractHeld [.sealGeneration, .append question] = some questionHeld ∧
      questionHeld.verifyGeneration contractRecord ≠ .ok () := by
  have hbefore : run call PromptLedger.new [.append contractSegment] = some contractHeld := rfl
  have hafter : run call contractHeld [.sealGeneration, .append question] = some questionHeld := rfl
  have hseal := (ledger_appends_only hbefore hafter).2.2.2.2.2 _ contractRecord rfl
  have hfree : chainDigest (pairMessage questionHeld) ≠ chainDigest (pairMessage contractHeld) := by decide +kernel
  refine ⟨hbefore, hafter, ?_⟩
  rw [Ne, hseal.2 fun h => absurd h hfree]
  intro h
  have hlength := congrArg (fun v => v.toList.length) h
  exact absurd hlength (by decide)

end SupraHarness.Prompt
