import SupraHarness.Types.Hash

/-!
# Prompt segments

A segment is an identity, a region of the prefix and a list of blocks. The two
structural rules of the constructor and the byte budget of an index entry are
fields, so every segment of the model is one the code can build. The last part
shows that each canonical encoding is lawful: block by block, entry by entry and
kind by kind, the bytes determine the value.
-/
namespace SupraHarness.Types

open SupraHarness.Code

/-- JSON text whose keys are already in canonical order, as its producer asserts. -/
@[ext] structure CanonicalJson where
  text : Str
  deriving DecidableEq, Repr

inductive Role where
  | user | assistant
  deriving DecidableEq, Repr

def Role.discriminant : Role → UInt8
  | .user => 0
  | .assistant => 1

/-- One piece of a turn. -/
inductive Block where
  | text (text : Str)
  | thinking (text : Str) (signature : Option Str)
  | toolUse (callId name : Str) (input : CanonicalJson)
  | toolResult (callId content : Str) (isError : Bool)
  deriving DecidableEq, Repr

def Block.isToolTraffic : Block → Bool
  | .toolUse .. => true
  | .toolResult .. => true
  | _ => false

def Block.discriminant : Block → UInt8
  | .text .. => 0
  | .thinking .. => 1
  | .toolUse .. => 2
  | .toolResult .. => 3

instance : Sealable Block where
  canonicalKind := 0x02
  writeCanonical b w :=
    let w := w.u8 0 b.discriminant
    match b with
    | .text text => w.str 1 text
    | .thinking text signature => (w.str 1 text).optStr 2 signature
    | .toolUse callId name input => ((w.str 1 callId).str 2 name).str 3 input.text
    | .toolResult callId content isError => ((w.str 1 callId).str 2 content).bool 3 isError

/-- Combined byte budget for topic and gist. -/
def maxContentBytes : Nat := 80

inductive SegmentError where
  | indexEntryTooLong (bytes : Nat)
  | indexSegmentHasBlocks (blocks : Nat)
  | interleavedToolTraffic (block : Nat)
  deriving DecidableEq, Repr

/-- The stand-in that an evicted turn leaves in the prefix. -/
@[ext] structure MemoryIndexEntry where
  turn : TurnId
  topic : Str
  gist : Str
  budget : topic.len + gist.len ≤ maxContentBytes
  deriving DecidableEq

def MemoryIndexEntry.new (turn : TurnId) (topic gist : Str) : Except SegmentError MemoryIndexEntry :=
  if h : topic.len + gist.len ≤ maxContentBytes then
    .ok ⟨turn, topic, gist, h⟩
  else
    .error (.indexEntryTooLong (topic.len + gist.len))

instance : Sealable MemoryIndexEntry where
  canonicalKind := 0x03
  writeCanonical entry w :=
    (((w.u64 1 entry.turn.timestampMs).bytes 2 entry.turn.leBytes).str 3 entry.topic).str 4 entry.gist

/-- Which prefix region a segment belongs to. -/
inductive SegmentKind where
  | toolManifest
  | systemContract
  | memoryIndex (entry : MemoryIndexEntry)
  | turn (turn : TurnId) (role : Role)
  deriving DecidableEq

def SegmentKind.discriminant : SegmentKind → UInt8
  | .toolManifest => 0
  | .systemContract => 1
  | .memoryIndex .. => 2
  | .turn .. => 3

def SegmentKind.isMemoryIndex : SegmentKind → Bool
  | .memoryIndex .. => true
  | _ => false

instance : Sealable SegmentKind where
  canonicalKind := 0x04
  writeCanonical kind w :=
    let w := w.u8 0 kind.discriminant
    match kind with
    | .toolManifest => w
    | .systemContract => w
    | .memoryIndex entry => w.nested 1 entry
    | .turn turn role => (w.bytes 1 turn.leBytes).u8 2 role.discriminant

/-- The scan of `first_interleaving`, from block `index` on. -/
def interleavingFrom (seenRun inRun : Bool) (index : Nat) : List Block → Option Nat
  | [] => none
  | block :: blocks =>
    if block.isToolTraffic then
      if inRun then interleavingFrom seenRun true (index + 1) blocks
      else if seenRun then some index
      else interleavingFrom true true (index + 1) blocks
    else interleavingFrom seenRun false (index + 1) blocks

/-- The first block that resumes tool traffic after prose. -/
def firstInterleaving (blocks : List Block) : Option Nat :=
  interleavingFrom false false 0 blocks

/-- One ledger entry's contents. -/
@[ext] structure Segment where
  id : SegmentId
  kind : SegmentKind
  blocks : Vec Block
  indexEmpty : kind.isMemoryIndex = true → blocks.toList = []
  consecutive : firstInterleaving blocks.toList = none
  deriving DecidableEq

def Segment.new (id : SegmentId) (kind : SegmentKind) (blocks : Vec Block) :
    Except SegmentError Segment :=
  if hindex : kind.isMemoryIndex = true → blocks.toList = [] then
    match hat : firstInterleaving blocks.toList with
    | none => .ok ⟨id, kind, blocks, hindex, hat⟩
    | some i => .error (.interleavedToolTraffic i)
  else
    .error (.indexSegmentHasBlocks blocks.toList.length)

theorem Segment.new_eq_ok {id : SegmentId} {kind : SegmentKind} {blocks : Vec Block} {segment : Segment}
    (h : Segment.new id kind blocks = .ok segment) :
    segment.id = id ∧ segment.kind = kind ∧ segment.blocks = blocks := by
  unfold Segment.new at h
  split at h
  · split at h
    · cases h
      exact ⟨rfl, rfl, rfl⟩
    · cases h
  · cases h

instance : Sealable Segment where
  canonicalKind := 0x01
  writeCanonical segment w :=
    let w := ((w.bytes 1 segment.id.leBytes).nested 2 segment.kind).count 3 segment.blocks.toList.length
    segment.blocks.toList.foldl (fun w block => w.nested 4 block) w

/-! ## The encodings are lawful -/

/-- Discriminants tell blocks of different shape apart; equal shapes are split field by field. -/
instance : LawfulSealable Block where
  appends b w := by
    cases b <;> simp [Sealable.writeCanonical, body]
  prefixFree := by
    intro a b r s h
    cases a with
    | text x => cases b <;> simp_all [body, Sealable.writeCanonical, Block.discriminant]
    | thinking x y => cases b <;> simp_all [body, Sealable.writeCanonical, Block.discriminant]
    | toolUse x y z =>
      cases b <;> simp_all [body, Sealable.writeCanonical, Block.discriminant, CanonicalJson.ext_iff]
    | toolResult x y z => cases b <;> simp_all [body, Sealable.writeCanonical, Block.discriminant]

instance : LawfulSealable MemoryIndexEntry where
  appends entry w := by
    simp [Sealable.writeCanonical, body]
  prefixFree := by
    intro a b r s h
    simp only [body, Sealable.writeCanonical, CanonicalWriter.fed_str, CanonicalWriter.fed_bytes,
      CanonicalWriter.fed_u64, List.nil_append, List.append_assoc, u64_cancel, id_cancel, str_cancel,
      true_and] at h
    obtain ⟨-, hturn, htopic, hgist, hrest⟩ := h
    exact ⟨MemoryIndexEntry.ext hturn htopic hgist, hrest⟩

theorem Role.discriminant_injective : Function.Injective Role.discriminant := by
  intro a b h
  cases a <;> cases b <;> first | rfl | exact absurd h (by decide)

theorem SegmentKind.body_memoryIndex (entry : MemoryIndexEntry) :
    body (SegmentKind.memoryIndex entry) =
      field 0 [2] ++ field 1 [Sealable.canonicalKind MemoryIndexEntry] ++ body entry := by
  rw [body]
  simp [Sealable.writeCanonical, SegmentKind.discriminant, CanonicalWriter.nested, body]

instance : LawfulSealable SegmentKind where
  appends kind w := by
    cases kind <;> simp [Sealable.writeCanonical, body]
  prefixFree := by
    intro a b r s h
    cases a with
    | toolManifest => cases b <;> simp_all [body, Sealable.writeCanonical, SegmentKind.discriminant]
    | systemContract => cases b <;> simp_all [body, Sealable.writeCanonical, SegmentKind.discriminant]
    | memoryIndex x =>
      cases b with
      | memoryIndex y =>
        simp only [SegmentKind.body_memoryIndex, List.append_assoc, u8_cancel, body_cancel,
          true_and] at h
        exact ⟨congrArg SegmentKind.memoryIndex h.1, h.2⟩
      | _ => simp_all [body, Sealable.writeCanonical, SegmentKind.discriminant]
    | turn x y =>
      cases b <;> simp_all [body, Sealable.writeCanonical, SegmentKind.discriminant,
        Role.discriminant_injective.eq_iff]

/-- The blocks of a segment as `nested` writes them, one after the other. -/
def blockField (block : Block) : List UInt8 :=
  field 4 [Sealable.canonicalKind Block] ++ body block

theorem prefixFree_blockField : PrefixFree blockField := by
  intro a b r s h
  simp only [blockField, List.append_assoc, u8_cancel, body_cancel, true_and] at h
  exact h

theorem fed_foldl_nested (blocks : List Block) (w : CanonicalWriter) :
    (blocks.foldl (fun w block => w.nested 4 block) w).fed = w.fed ++ blocks.flatMap blockField := by
  induction blocks generalizing w with
  | nil => simp
  | cons block blocks ih => simp [ih, blockField]

/-- What a segment appends: identity, region, block count and blocks. -/
theorem Segment.body_eq (segment : Segment) :
    body segment = field 1 segment.id.leBytes ++ (field 2 [Sealable.canonicalKind SegmentKind] ++
      (body segment.kind ++ (field 3 (header segment.blocks.toList.length) ++
        segment.blocks.toList.flatMap blockField))) := by
  simp [body, Sealable.writeCanonical, fed_foldl_nested, header]

instance : LawfulSealable Segment where
  appends segment w := by
    rw [Segment.body_eq]
    simp [Sealable.writeCanonical, fed_foldl_nested, header]
  prefixFree := by
    intro a b r s h
    simp only [Segment.body_eq, List.append_assoc, id_cancel, u8_cancel, body_cancel, true_and] at h
    obtain ⟨hid, hkind, hblocks⟩ := h
    obtain ⟨hblocks, hrest⟩ := (vec_cancel prefixFree_blockField).mp hblocks
    exact ⟨Segment.ext hid hkind hblocks, hrest⟩

end SupraHarness.Types

/-!
## Sealed values

A sealed value carries its position and the digest of its contents. The digest
is checked whenever a value is sealed or read back, so it is a field that no
sealed value can have wrong. Sequence numbers and counters are 64-bit with
overflow checks on: the step past the last one aborts.
-/
namespace SupraHarness.Types

/-- The checked `+ 1` of a 64-bit counter; past the maximum the process aborts. -/
def succU64 (n : UInt64) : Option UInt64 :=
  if n.toNat + 1 < 2 ^ 64 then some (UInt64.ofNat (n.toNat + 1)) else none

theorem succU64_eq_some {n m : UInt64} (h : succU64 n = some m) : m.toNat = n.toNat + 1 := by
  unfold succU64 at h
  split at h
  · rename_i hlt
    rw [← Option.some.inj h, UInt64.toNat_ofNat_of_lt' hlt]
  · cases h

/-- Position in the ledger. -/
@[ext] structure SeqNo where
  raw : UInt64
  deriving DecidableEq, Repr

namespace SeqNo

def zero : SeqNo := ⟨0⟩

def next (s : SeqNo) : Option SeqNo := (succU64 s.raw).map SeqNo.mk

def get (s : SeqNo) : Nat := s.raw.toNat

def text (s : SeqNo) : String := "#" ++ toString s.get

theorem next_eq_some {s t : SeqNo} (h : s.next = some t) : t.get = s.get + 1 := by
  obtain ⟨m, hm, rfl⟩ := Option.map_eq_some_iff.mp h
  exact succU64_eq_some hm

end SeqNo

namespace Vec

variable {α β : Type}

def empty : Vec α := ⟨[], by simp⟩

/-- `push`; past the largest allocation the process aborts. -/
def push (v : Vec α) (x : α) : Option (Vec α) :=
  if h : v.toList.length + 1 < 2 ^ 63 then some ⟨v.toList ++ [x], by simpa using h⟩ else none

def map (f : α → β) (v : Vec α) : Vec β := ⟨v.toList.map f, by simpa using v.fits⟩

@[simp] theorem toList_empty : (empty : Vec α).toList = [] := rfl

@[simp] theorem toList_map (f : α → β) (v : Vec α) : (v.map f).toList = v.toList.map f := rfl

theorem push_eq_some {v w : Vec α} {x : α} (h : v.push x = some w) : w.toList = v.toList ++ [x] := by
  unfold push at h
  split at h
  · exact (congrArg Vec.toList (Option.some.inj h)).symm
  · cases h

end Vec

/-- An immutable, position-stamped, content-hashed ledger entry. -/
@[ext] structure Sealed (blake3 : List UInt8 → ContentHash) (α : Type) [Sealable α] where
  seq : SeqNo
  hash : ContentHash
  value : α
  genuine : ContentHash.of blake3 value = hash

def Sealed.seal {α : Type} [Sealable α] (blake3 : List UInt8 → ContentHash) (seq : SeqNo) (value : α) : Sealed blake3 α :=
  ⟨seq, ContentHash.of blake3 value, value, rfl⟩

namespace Sealed

variable {blake3 : List UInt8 → ContentHash} {α : Type} [Sealable α]

/-- Recompute the digest and compare it with the stored one. -/
def verify (s : Sealed blake3 α) : Bool := ContentHash.of blake3 s.value == s.hash

@[simp] theorem verify_eq_true (s : Sealed blake3 α) : s.verify = true := by
  simp [verify, s.genuine]

/-- Position and contents say everything: the digest follows from the contents. -/
theorem eq_of_seq_value {s t : Sealed blake3 α} (hseq : s.seq = t.seq) (hvalue : s.value = t.value) :
    s = t := by
  have hhash : s.hash = t.hash := by
    rw [← s.genuine, ← t.genuine, hvalue]
  exact Sealed.ext hseq hhash hvalue

end Sealed

end SupraHarness.Types
