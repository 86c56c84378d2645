import SupraHarness.Prompt.Ledger

/-!
# The prefix hash determines the ledger

Every entry is hashed on its own, and the prefix hash runs over the pairs of
sequence number and digest. The bytes that the canonical writers are fed for a
sequence of entries determine the sequence, whatever the digests are; and when
the hash function has no collision on these messages, the prefix hash alone
determines it.
-/
namespace SupraHarness.Prompt

open SupraHarness.Code SupraHarness.Types

variable {blake3 : List UInt8 → ContentHash}

def pairField (pair : SeqNo × ContentHash) : List UInt8 :=
  field 2 (u64Bytes pair.1.raw) ++ field 3 pair.2.bytes.toList

theorem prefixFree_pairField : PrefixFree pairField := by
  intro a b r s h
  simp only [pairField, List.append_assoc, u64_cancel, hash_cancel, true_and] at h
  exact ⟨Prod.ext (SeqNo.ext h.1) h.2.1, h.2.2⟩

theorem fed_foldl_writePair (pairs : List (SeqNo × ContentHash)) (w : CanonicalWriter) :
    (pairs.foldl writePair w).fed = w.fed ++ pairs.flatMap pairField := by
  induction pairs generalizing w with
  | nil => simp
  | cons pair pairs ih => simp [ih, writePair, pairField]

theorem Pairs.body_eq (p : Pairs) :
    body p = field 1 (header p.pairs.toList.length) ++ p.pairs.toList.flatMap pairField := by
  simp [body, Sealable.writeCanonical, fed_foldl_writePair, header]

instance : LawfulSealable Pairs where
  appends p w := by
    rw [Pairs.body_eq]
    simp [Sealable.writeCanonical, fed_foldl_writePair, header]
  prefixFree := by
    intro a b r s h
    rw [Pairs.body_eq, Pairs.body_eq, List.append_assoc, List.append_assoc,
      vec_cancel prefixFree_pairField] at h
    obtain ⟨hpairs, hrest⟩ := h
    cases a
    cases b
    exact ⟨congrArg Pairs.mk hpairs, hrest⟩

/-! ## The messages behind a prefix hash -/

/-- The messages hashed for a sequence of entries: each segment's, then the pair sequence's. -/
def messages (entries : Vec (Sealed blake3 Segment)) : List (List UInt8) :=
  entries.toList.map (fun entry => canonical entry.value) ++ [canonical (⟨pairsOf entries⟩ : Pairs)]

/-- The bytes fed through the canonical writers, one writer after the other. -/
def fedBytes (entries : Vec (Sealed blake3 Segment)) : List UInt8 := (messages entries).flatten

theorem segment_message (segment : Segment) : canonical segment = 0x01 :: body segment :=
  canonical_eq segment

theorem pairs_message (p : Pairs) : canonical p = 0x20 :: body p :=
  canonical_eq p

/-- The domain byte says where the segments end; each segment is split off by its own encoding. -/
theorem flatten_messages_inj {xs ys : List Segment} {p q : Pairs}
    (h : (xs.map canonical).flatten ++ canonical p = (ys.map canonical).flatten ++ canonical q) :
    xs = ys ∧ p = q := by
  induction xs generalizing ys with
  | nil =>
    cases ys with
    | nil => exact ⟨rfl, canonical_injective (by simpa using h)⟩
    | cons y ys => simp [segment_message, pairs_message] at h
  | cons x xs ih =>
    cases ys with
    | nil => simp [segment_message, pairs_message] at h
    | cons y ys =>
      rw [List.map_cons, List.map_cons, List.flatten_cons, List.flatten_cons, segment_message x,
        segment_message y, List.append_assoc, List.append_assoc, List.cons_append, List.cons_append,
        List.cons.injEq] at h
      obtain ⟨hxy, hrest⟩ := body_cancel.mp h.2
      obtain ⟨hxs, hpq⟩ := ih hrest
      exact ⟨by rw [hxy, hxs], hpq⟩

/-- Positions and contents, read off separately, give back the entries. -/
theorem entries_ext {xs ys : Vec (Sealed blake3 Segment)}
    (hvalue : xs.toList.map (fun entry => entry.value) = ys.toList.map fun entry => entry.value)
    (hpairs : pairsOf xs = pairsOf ys) : xs = ys := by
  have hseq : xs.toList.map (fun entry => entry.seq) = ys.toList.map fun entry => entry.seq := by
    have hmap := congrArg (fun v => v.toList.map Prod.fst) hpairs
    simpa [pairsOf, List.map_map, Function.comp_def] using hmap
  have hlength : xs.toList.length = ys.toList.length := by
    simpa using congrArg List.length hseq
  apply Vec.ext
  apply List.ext_getElem hlength
  intro i hx hy
  apply Sealed.eq_of_seq_value
  · have hi := List.getElem_of_eq hseq (i := i) (by simpa using hx)
    rwa [List.getElem_map, List.getElem_map] at hi
  · have hi := List.getElem_of_eq hvalue (i := i) (by simpa using hx)
    rwa [List.getElem_map, List.getElem_map] at hi

/-- The bytes fed for two sequences of entries are equal only when the sequences are. -/
theorem fedBytes_injective :
    Function.Injective (fedBytes : Vec (Sealed blake3 Segment) → List UInt8) := by
  intro xs ys h
  have hmap : ∀ zs : Vec (Sealed blake3 Segment), zs.toList.map (fun entry => canonical entry.value) =
      (zs.toList.map fun entry => entry.value).map canonical := by
    intro zs
    rw [List.map_map]
    rfl
  simp only [fedBytes, messages, List.flatten_append, List.flatten_singleton, hmap] at h
  obtain ⟨hvalue, hpairs⟩ := flatten_messages_inj h
  exact entries_ext hvalue (Pairs.mk.inj hpairs)

/-- Without a collision among the messages, equal prefix hashes come from equal entries. -/
theorem entries_eq_of_hash {xs ys : Vec (Sealed blake3 Segment)}
    (hfree : Set.InjOn blake3 {m | m ∈ messages xs ∨ m ∈ messages ys})
    (h : hashSequence blake3 (pairsOf xs) = hashSequence blake3 (pairsOf ys)) : xs = ys := by
  have hpairs : canonical (⟨pairsOf xs⟩ : Pairs) = canonical (⟨pairsOf ys⟩ : Pairs) := by
    apply hfree
    · exact Or.inl (List.mem_append_right _ List.mem_cons_self)
    · exact Or.inr (List.mem_append_right _ List.mem_cons_self)
    · exact h
  have hpairs : pairsOf xs = pairsOf ys := Pairs.mk.inj (canonical_injective hpairs)
  have hdigest : ∀ zs : Vec (Sealed blake3 Segment),
      (zs.toList.map fun entry => canonical entry.value).map blake3 =
        (pairsOf zs).toList.map Prod.snd := by
    intro zs
    simp only [pairsOf, Vec.toList_map, List.map_map]
    apply List.map_congr_left
    intro entry _
    exact entry.genuine
  have hmessages : xs.toList.map (fun entry => canonical entry.value) =
      ys.toList.map fun entry => canonical entry.value := by
    apply map_inj_of_injOn
    · apply hfree.mono
      rintro m (hm | hm)
      · exact Or.inl (List.mem_append_left _ hm)
      · exact Or.inr (List.mem_append_left _ hm)
    · rw [hdigest, hdigest, hpairs]
  apply entries_ext _ hpairs
  apply List.map_injective_iff.mpr canonical_injective
  rw [List.map_map, List.map_map]
  exact hmessages

/-- The canonical encoding behind the prefix hash is injective on sequences of entries, and two
ledgers with one prefix hash hold the same entries unless the hash function collides on them. -/
theorem prefix_encoding_injective :
    (∀ xs ys : Vec (Sealed blake3 Segment), fedBytes xs = fedBytes ys → xs = ys) ∧
    ∀ l m : PromptLedger blake3,
      Set.InjOn blake3 {b | b ∈ messages l.entries ∨ b ∈ messages m.entries} →
      l.prefixHash = m.prefixHash → l.entries = m.entries := by
  constructor
  · intro xs ys h
    exact fedBytes_injective h
  · intro l m hfree h
    exact entries_eq_of_hash hfree h

/-! A ledger of one segment, before and after it is sealed. -/

def contractSegment : Segment :=
  ⟨Id.fromU128 (0x018bcfe56800 * 2 ^ 80), .systemContract, ⟨[.text ⟨"ok", by decide⟩], by decide⟩,
    by decide, by decide⟩

/-- The digests of the two messages of the one-segment ledger, told apart by the domain byte. -/
def contractDigest : List UInt8 → ContentHash
  | 0x20 :: _ => ⟨#v[234, 170, 8, 165, 172, 167, 129, 8, 236, 185, 70, 7, 5, 226, 205, 67,
      137, 161, 89, 70, 133, 62, 250, 173, 72, 19, 131, 138, 216, 158, 128, 142]⟩
  | _ => ⟨#v[46, 20, 85, 119, 244, 209, 167, 89, 97, 80, 43, 154, 99, 13, 127, 119,
      18, 65, 79, 40, 61, 247, 1, 37, 244, 177, 234, 228, 204, 237, 151, 93]⟩

def contractLedger : PromptLedger contractDigest :=
  ⟨⟨[Sealed.seal contractDigest SeqNo.zero contractSegment], by simp⟩, ⟨1⟩, 0, none⟩

def sealedContractLedger : PromptLedger contractDigest :=
  { contractLedger with
    generation := 1
    latestGeneration := some ⟨0, idsOf contractLedger.entries, contractLedger.prefixHash⟩ }

theorem prefix_encoding_injective_contract :
    contractLedger.prefixHash = sealedContractLedger.prefixHash ∧
      contractLedger.entries = sealedContractLedger.entries := by
  have hhash : contractLedger.prefixHash = sealedContractLedger.prefixHash := rfl
  have hfree : Set.InjOn contractDigest
      {b | b ∈ messages contractLedger.entries ∨ b ∈ messages sealedContractLedger.entries} := by
    have hmessage : ∀ b, b ∈ messages contractLedger.entries ∨
        b ∈ messages sealedContractLedger.entries →
        b = 0x01 :: body contractSegment ∨
          b = 0x20 :: body (⟨pairsOf contractLedger.entries⟩ : Pairs) := by
      intro b hb
      have hb : b ∈ messages contractLedger.entries := or_self_iff.mp hb
      simpa [messages, contractLedger, Sealed.seal, segment_message, pairs_message] using hb
    have hne : contractDigest (0x01 :: body contractSegment) ≠
        contractDigest (0x20 :: body (⟨pairsOf contractLedger.entries⟩ : Pairs)) := by
      simp [contractDigest]
    intro b hb c hc h
    rcases hmessage b hb with rfl | rfl <;> rcases hmessage c hc with rfl | rfl
    · rfl
    · exact absurd h hne
    · exact absurd h.symm hne
    · rfl
  exact ⟨hhash, prefix_encoding_injective.2 contractLedger sealedContractLedger hfree hhash⟩

end SupraHarness.Prompt
