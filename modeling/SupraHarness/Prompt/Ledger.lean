import SupraHarness.Types.Segment

/-!
# The append-only prompt ledger

The ordered sequence of sealed segments, the next sequence number, the
generation counter and the latest generation seal. The operations are those of
the ledger and of the generation rewrite; `none` is an abort by an overflow
check. A snapshot is untrusted until every persisted invariant has been checked.
-/
namespace SupraHarness.Prompt

open SupraHarness.Types

inductive PromptError where
  | duplicateSegment (id : SegmentId)
  | generationUnverified (generation : UInt64) (expected found : String)
  | invalidSnapshot (detail : String)
  | regionOrder (earlier later : String)
  deriving DecidableEq, Repr

/-- The `(SeqNo, ContentHash)` sequence, under the ledger's own domain separator. -/
structure Pairs where
  pairs : Vec (SeqNo × ContentHash)
  deriving DecidableEq

/-- One pair: the sequence number under tag 2 and the digest under tag 3. -/
def writePair (w : CanonicalWriter) (pair : SeqNo × ContentHash) : CanonicalWriter :=
  (w.u64 2 pair.1.raw).bytes 3 pair.2.bytes.toList

instance : Sealable Pairs where
  canonicalKind := 0x20
  writeCanonical p w :=
    p.pairs.toList.foldl writePair (w.u64 1 (UInt64.ofNat p.pairs.toList.length))

/-- One frozen prefix: the segment sequence sealed under its hash. -/
@[ext] structure Generation where
  generation : UInt64
  segments : Vec SegmentId
  prefixHash : ContentHash
  deriving DecidableEq

section

variable (blake3 : List UInt8 → ContentHash)

def hashSequence (sequence : Vec (SeqNo × ContentHash)) : ContentHash :=
  ContentHash.of blake3 (⟨sequence⟩ : Pairs)

/-- Durable state for one ledger, as it is read back: not trusted yet. -/
@[ext] structure LedgerSnapshot where
  entries : Vec (Sealed blake3 Segment)
  nextSeq : SeqNo
  generation : UInt64
  latestGeneration : Option Generation

/-- The prompt prefix as an ordered, append-only sequence. -/
@[ext] structure PromptLedger where
  entries : Vec (Sealed blake3 Segment)
  nextSeq : SeqNo
  generation : UInt64
  latestGeneration : Option Generation

end

variable {blake3 : List UInt8 → ContentHash}

/-- The `(SeqNo, ContentHash)` pairs of a sequence of entries. -/
def pairsOf (entries : Vec (Sealed blake3 Segment)) : Vec (SeqNo × ContentHash) :=
  entries.map fun entry => (entry.seq, entry.hash)

/-- The segment identities of a sequence of entries. -/
def idsOf (entries : Vec (Sealed blake3 Segment)) : Vec SegmentId :=
  entries.map fun entry => entry.value.id

namespace PromptLedger

/-- An empty ledger at generation zero. -/
def new : PromptLedger blake3 := ⟨Vec.empty, SeqNo.zero, 0, none⟩

/-- Append one segment under the next sequence number, or refuse a repeated identity. -/
def append (l : PromptLedger blake3) (segment : Segment) :
    Option (PromptLedger blake3 × Except PromptError SeqNo) :=
  if l.entries.toList.any fun entry => entry.value.id == segment.id then
    some (l, .error (.duplicateSegment segment.id))
  else do
    let next ← l.nextSeq.next
    let entries ← l.entries.push (Sealed.seal blake3 l.nextSeq segment)
    some ({ l with entries := entries, nextSeq := next }, .ok l.nextSeq)

def prefixHash (l : PromptLedger blake3) : ContentHash :=
  hashSequence blake3 (pairsOf l.entries)

/-- Freeze the live prefix into a generation seal. -/
def sealGeneration (l : PromptLedger blake3) : Option (PromptLedger blake3 × Generation) := do
  let record : Generation := ⟨l.generation, idsOf l.entries, l.prefixHash⟩
  let generation ← succU64 l.generation
  some ({ l with generation := generation, latestGeneration := some record }, record)

/-- Re-prove a generation seal against the live sequence. -/
def verifyGeneration (l : PromptLedger blake3) (record : Generation) : Except PromptError Unit :=
  if l.prefixHash ≠ record.prefixHash then
    .error (.generationUnverified record.generation record.prefixHash.text l.prefixHash.text)
  else .ok ()

/-- Drop the live prefix after a generation rewrite, keeping only the seal. -/
def clearForRewrite (l : PromptLedger blake3) : PromptLedger blake3 :=
  { l with entries := Vec.empty }

def snapshot (l : PromptLedger blake3) : LedgerSnapshot blake3 :=
  ⟨l.entries, l.nextSeq, l.generation, l.latestGeneration⟩

/-- The loop of `rewrite`: append the segments in order, collecting what refuses. -/
def reappend (l : PromptLedger blake3) (skipped : List PromptError) :
    List Segment → Option (PromptLedger blake3 × List PromptError)
  | [] => some (l, skipped)
  | segment :: rest => do
    let (l, answer) ← l.append segment
    match answer with
    | .ok _ => reappend l skipped rest
    | .error error => reappend l (skipped ++ [error]) rest

/-- `generation::rewrite`: seal, drain, append the same segments again, seal. -/
def rewrite (l : PromptLedger blake3) :
    Option (PromptLedger blake3 × Generation × Generation × List PromptError) := do
  let (l, before) ← l.sealGeneration
  let live := l.entries.toList.map fun entry => entry.value
  let (l, skipped) ← l.clearForRewrite.reappend [] live
  let (l, after) ← l.sealGeneration
  some (l, before, after, skipped)

end PromptLedger

/-- `generation::verify_rewrite` -/
def verifyRewrite (before after : Generation) : Except PromptError Unit :=
  if before.segments ≠ after.segments then
    .error (.generationUnverified after.generation before.prefixHash.text after.prefixHash.text)
  else .ok ()

/-! ## Restoring -/

/-- The entry loop of `validate_snapshot`, from position `index` on. -/
def validateEntries (index : Nat) (ids : List SegmentId) :
    List (Sealed blake3 Segment) → Except PromptError Unit
  | [] => .ok ()
  | entry :: rest =>
    if ¬ index < 2 ^ 64 then
      .error (.invalidSnapshot "the entry count exceeds the sequence-number range")
    else if entry.seq.get ≠ index then
      .error (.invalidSnapshot s!"entry {index} has sequence {entry.seq.text}, expected #{index}")
    else if entry.verify = false then
      .error (.invalidSnapshot s!"entry {entry.seq.text} has an invalid content seal")
    else if entry.value.id ∈ ids then
      .error (.invalidSnapshot s!"segment {entry.value.id.text} appears more than once")
    else validateEntries (index + 1) (entry.value.id :: ids) rest

def validateNext (s : LedgerSnapshot blake3) : Except PromptError Unit :=
  let expected := s.entries.toList.length
  if ¬ expected < 2 ^ 64 then
    .error (.invalidSnapshot "the entry count exceeds the sequence-number range")
  else if s.nextSeq.get ≠ expected then
    .error (.invalidSnapshot s!"next sequence is {s.nextSeq.text}, expected #{expected}")
  else .ok ()

def validateSeal (s : LedgerSnapshot blake3) : Except PromptError Unit :=
  let counter := toString s.generation.toNat
  match s.latestGeneration with
  | none =>
    if s.generation ≠ 0 then
      .error (.invalidSnapshot s!"generation counter is {counter} but no generation seal is present")
    else .ok ()
  | some record =>
    let number := toString record.generation.toNat
    match succU64 record.generation with
    | none => .error (.invalidSnapshot "the latest generation number cannot advance")
    | some expected =>
      let next := toString expected.toNat
      let found := hashSequence blake3 (pairsOf s.entries)
      if s.generation ≠ expected then
        .error (.invalidSnapshot s!"generation counter is {counter}, expected {next} after seal {number}")
      else if record.segments ≠ idsOf s.entries then
        .error (.invalidSnapshot s!"generation {number} records a different segment sequence")
      else if record.prefixHash ≠ found then
        .error (.invalidSnapshot
          s!"generation {number} records prefix hash {record.prefixHash.text}, recomputed {found.text}")
      else .ok ()

def validateSnapshot (s : LedgerSnapshot blake3) : Except PromptError Unit := do
  validateEntries 0 [] s.entries.toList
  validateNext s
  validateSeal s

/-- Restore a ledger after proving every persisted invariant. -/
def PromptLedger.fromSnapshot (s : LedgerSnapshot blake3) : Except PromptError (PromptLedger blake3) := do
  validateSnapshot s
  .ok ⟨s.entries, s.nextSeq, s.generation, s.latestGeneration⟩

end SupraHarness.Prompt
