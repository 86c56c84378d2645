import SupraHarness.Digest.Retrieve
import SupraHarness.Types.Segment

/-!
# The gist of an index entry

An evicted turn leaves an entry of eighty bytes, a topic and a gist. For a symbol there are gists that
say more and gists that say less; the first that fits is taken, or the first whose words can be cut to
fit. A symbol gets no entry where even the gists that say least do not fit beside its topic.
-/
namespace SupraHarness.Digest

open Str
open Types (TurnId MemoryIndexEntry maxContentBytes)

/-- `str::split_whitespace`. -/
def splitWhitespace (text : Text) : List Text := (text.splitOnP isWhitespace).filter (· ≠ [])

/-- `PromptError::IndexEntryTooLong`. -/
structure IndexEntryTooLong where
  turn : TurnId
  bytes : Nat
  deriving DecidableEq, Repr

/-- Build the index entry that replaces an evicted turn. Refused when over budget. -/
def indexEntry (turn : TurnId) (topic gist : Types.Str) : Except IndexEntryTooLong MemoryIndexEntry :=
  match MemoryIndexEntry.new turn topic gist with
  | .error _ => .error ⟨turn, topic.len + gist.len⟩
  | .ok entry => .ok entry

theorem utf8ByteSize_ofList (text : Text) : (String.ofList text).utf8ByteSize = byteLen text := by
  induction text with
  | nil => rfl
  | cons c text ih =>
    rw [String.ofList_cons, String.utf8ByteSize_append, String.utf8ByteSize_singleton, ih, byteLen, byteLen,
      Utf8.encode_cons, List.length_append, String.length_utf8EncodeChar]

/-- A text within the budget, as a string of the entry. -/
def strOf (text : Text) (small : byteLen text ≤ maxContentBytes) : Types.Str :=
  ⟨String.ofList text, by rw [utf8ByteSize_ofList]; exact small.trans_lt (by decide)⟩

/-! ## The code -/

section Code
variable (symbol : Symbol) (turn : TurnId)

/-- `name (kind)`. -/
def topicOf : Text := symbol.name ++ " (".toList ++ symbol.kind.name.toList ++ ")".toList

/-- `unwrap_or("")`. -/
def parentOf : Text := symbol.parent.getD []

/-- The trimmed first line, if there is one. -/
def lineOf (firstLine : Option Text) : Text := (firstLine.map trim).getD []

/-- Candidate gists, most informative first. -/
def candidates (line : Text) : List Text :=
  (if parentOf symbol ≠ [] ∧ line ≠ [] then [parentOf symbol ++ ": ".toList ++ line] else []) ++
    (if line ≠ [] then [line] else []) ++
    (if parentOf symbol ≠ [] then ["in ".toList ++ parentOf symbol] else []) ++
    [symbol.kind.name.toList]

/-- Word by word, as long as there is room. -/
def pushWords (room : Nat) : Text → List Text → Text
  | shortened, [] => shortened
  | shortened, word :: words =>
    if room < byteLen shortened + byteLen word + 1 then shortened
    else pushWords room ((if shortened.isEmpty then [] else shortened ++ [' ']) ++ word) words

/-- Shorten a candidate at a word boundary, if it is long and the room is not too small. -/
def shorten (topic gist : Text) : Option Text :=
  if 16 < byteLen gist ∧ ' ' ∈ gist then
    let room := maxContentBytes - byteLen topic
    if 20 < room then
      let shortened := pushWords room [] (splitWhitespace gist)
      if shortened ≠ [] ∧ byteLen topic + byteLen shortened ≤ maxContentBytes then some shortened else none
    else none
  else none

/-- The entry is built, and its two texts are given back. -/
def build (topic gist : Text) (fits : byteLen topic + byteLen gist ≤ maxContentBytes) :
    Except IndexEntryTooLong (Text × Text) :=
  match indexEntry turn (strOf topic (by omega)) (strOf gist (by omega)) with
  | .ok _ => .ok (topic, gist)
  | .error error => .error error

/-- One candidate after the other. -/
def tryCandidates (topic : Text) : List Text → Except IndexEntryTooLong (Text × Text)
  | [] => .error ⟨turn, byteLen topic⟩
  | gist :: rest =>
    if fits : byteLen topic + byteLen gist ≤ maxContentBytes then build turn topic gist fits
    else
      match shorten topic gist with
      | some shortened =>
        if fits : byteLen topic + byteLen shortened ≤ maxContentBytes then build turn topic shortened fits
        else tryCandidates topic rest
      | none => tryCandidates topic rest

end Code

/-- Build the topic and gist pair the index entry needs, within budget. -/
def gistForEntry (symbol : Symbol) (firstLine : Option Text) (turn : TurnId) :
    Except IndexEntryTooLong (Text × Text) :=
  tryCandidates turn (topicOf symbol) (candidates symbol (lineOf firstLine))

/-! ## What an entry may say -/

/-- What can be said of a symbol with a first line. -/
inductive Candidate (symbol : Symbol) (line : Text) : Text → Prop where
  | parentLine (parent : parentOf symbol ≠ []) (here : line ≠ []) :
      Candidate symbol line (parentOf symbol ++ ": ".toList ++ line)
  | line (here : line ≠ []) : Candidate symbol line line
  | inParent (parent : parentOf symbol ≠ []) : Candidate symbol line ("in ".toList ++ parentOf symbol)
  | kind : Candidate symbol line symbol.kind.name.toList

/-- Some of the words of a text, from its beginning. -/
def FirstWords (text gist : Text) : Prop :=
  ∃ kept, kept ≠ [] ∧ kept <+: splitWhitespace text ∧ gist = [' '].intercalate kept

/-- An entry within the budget that says something of the symbol; and no error unless the topic alone is
over the budget. -/
def Justified (symbol : Symbol) (line : Text) : Except IndexEntryTooLong (Text × Text) → Prop
  | .ok (topic, gist) => topic = topicOf symbol ∧ byteLen topic + byteLen gist ≤ maxContentBytes ∧
      ∃ candidate, Candidate symbol line candidate ∧ (gist = candidate ∨ FirstWords candidate gist)
  | .error _ => maxContentBytes < byteLen (topicOf symbol)

/-- The topic and the kind, the first line or the parent fit. -/
def Speakable (symbol : Symbol) (line : Text) : Prop :=
  byteLen (topicOf symbol) + byteLen symbol.kind.name.toList ≤ maxContentBytes ∨
    line ≠ [] ∧ byteLen (topicOf symbol) + byteLen line ≤ maxContentBytes ∨
    parentOf symbol ≠ [] ∧ byteLen (topicOf symbol) + (3 + byteLen (parentOf symbol)) ≤ maxContentBytes

instance (symbol : Symbol) (line : Text) : Decidable (Speakable symbol line) := by
  unfold Speakable; infer_instance

section Proofs
variable {symbol : Symbol} {turn : TurnId} {line topic gist : Text}

@[simp] theorem byteLen_append (front after : Text) : byteLen (front ++ after) = byteLen front + byteLen after := by
  simp [byteLen]

theorem mem_candidates : gist ∈ candidates symbol line ↔ Candidate symbol line gist := by
  simp only [candidates, List.mem_append, List.mem_ite_nil_right, List.mem_singleton]
  constructor
  · rintro (((⟨⟨parent, here⟩, rfl⟩ | ⟨here, rfl⟩) | ⟨parent, rfl⟩) | rfl)
    · exact .parentLine parent here
    · exact .line here
    · exact .inParent parent
    · exact .kind
  · intro candidate
    cases candidate with
    | parentLine parent here => exact .inl (.inl (.inl ⟨⟨parent, here⟩, rfl⟩))
    | line here => exact .inl (.inl (.inr ⟨here, rfl⟩))
    | inParent parent => exact .inl (.inr ⟨parent, rfl⟩)
    | kind => exact .inr rfl

/-- Some candidate fits exactly when one of the short ones does: the line with the parent in front of it
is longer than the line. -/
theorem speakable_iff :
    Speakable symbol line ↔
      ∃ gist ∈ candidates symbol line, byteLen (topicOf symbol) + byteLen gist ≤ maxContentBytes := by
  have three : byteLen "in ".toList = 3 := by decide
  simp only [mem_candidates]
  constructor
  · rintro (fits | ⟨here, fits⟩ | ⟨parent, fits⟩)
    · exact ⟨_, .kind, fits⟩
    · exact ⟨_, .line here, fits⟩
    · exact ⟨_, .inParent parent, by rwa [byteLen_append, three]⟩
  · rintro ⟨_, candidate, fits⟩
    cases candidate with
    | parentLine parent here =>
      rw [byteLen_append] at fits
      exact .inr (.inl ⟨here, by omega⟩)
    | line here => exact .inr (.inl ⟨here, fits⟩)
    | inParent parent =>
      rw [byteLen_append, three] at fits
      exact .inr (.inr ⟨parent, fits⟩)
    | kind => exact .inl fits

theorem build_eq (fits : byteLen topic + byteLen gist ≤ maxContentBytes) :
    build turn topic gist fits = .ok (topic, gist) := by
  have sizes : (strOf topic (by omega)).len + (strOf gist (by omega)).len ≤ maxContentBytes := by
    rw [Types.Str.len, Types.Str.len, strOf, strOf, utf8ByteSize_ofList, utf8ByteSize_ofList]
    exact fits
  rw [build, indexEntry, MemoryIndexEntry.new, dif_pos sizes]

theorem intercalate_cons_space (word : Text) (words : List Text) :
    [' '].intercalate (word :: words) = word ++ words.flatMap (' ' :: ·) := by
  induction words generalizing word with
  | nil => simp
  | cons next words ih => rw [List.intercalate_cons_cons, ih, List.flatMap_cons]; simp

/-- Words are pushed from the front, a space before each. -/
theorem pushWords_of_ne_nil {room : Nat} {shortened : Text} (started : shortened ≠ []) (words : List Text) :
    ∃ kept, kept <+: words ∧ pushWords room shortened words = shortened ++ kept.flatMap (' ' :: ·) := by
  induction words generalizing shortened with
  | nil => exact ⟨[], List.nil_prefix, (List.append_nil _).symm⟩
  | cons word words ih =>
    rw [pushWords]
    by_cases full : room < byteLen shortened + byteLen word + 1
    · rw [if_pos full]
      exact ⟨[], List.nil_prefix, (List.append_nil _).symm⟩
    · have more : shortened ++ [' '] ++ word ≠ [] := by simp
      obtain ⟨kept, front, equal⟩ := ih more
      rw [if_neg full, if_neg (by simpa using started), equal]
      exact ⟨word :: kept, List.cons_prefix_cons.2 ⟨rfl, front⟩, by simp⟩

theorem firstWords_of_pushWords {room : Nat} {text : Text} (some_ : pushWords room [] (splitWhitespace text) ≠ []) :
    FirstWords text (pushWords room [] (splitWhitespace text)) := by
  rw [FirstWords]
  cases words : splitWhitespace text with
  | nil =>
    rw [words] at some_
    exact absurd rfl some_
  | cons word rest =>
    rw [words, pushWords] at some_
    rw [pushWords]
    by_cases full : room < byteLen [] + byteLen word + 1
    · rw [if_pos full] at some_
      exact absurd rfl some_
    · have visible : word ≠ [] := by
        have mem : word ∈ splitWhitespace text := words ▸ List.mem_cons_self
        simpa using (List.mem_filter.1 mem).2
      obtain ⟨kept, front, equal⟩ := @pushWords_of_ne_nil room word visible rest
      refine ⟨word :: kept, List.cons_ne_nil _ _, List.cons_prefix_cons.2 ⟨rfl, front⟩, ?_⟩
      rw [if_neg full, intercalate_cons_space]
      exact equal

theorem shorten_eq_some {shortened : Text} (cut : shorten topic gist = some shortened) :
    20 < maxContentBytes - byteLen topic ∧ byteLen topic + byteLen shortened ≤ maxContentBytes ∧
      FirstWords gist shortened := by
  unfold shorten at cut
  dsimp only at cut
  split_ifs at cut with long room fits
  obtain rfl := Option.some.inj cut
  exact ⟨room, fits.2, firstWords_of_pushWords fits.1⟩

/-- What the attempts end in: a candidate or its first words, or an error when no candidate fits. -/
theorem tryCandidates_spec (gists : List Text) :
    match tryCandidates turn topic gists with
    | .ok (first, gist) => first = topic ∧ byteLen topic + byteLen gist ≤ maxContentBytes ∧
        ∃ candidate ∈ gists, gist = candidate ∨ FirstWords candidate gist
    | .error _ => ∀ gist ∈ gists, maxContentBytes < byteLen topic + byteLen gist := by
  induction gists with
  | nil => exact fun _ mem => absurd mem (List.not_mem_nil)
  | cons gist rest ih =>
    have later : ∀ outcome, tryCandidates turn topic rest = outcome →
        maxContentBytes < byteLen topic + byteLen gist →
        match outcome with
        | .ok (first, said) => first = topic ∧ byteLen topic + byteLen said ≤ maxContentBytes ∧
            ∃ candidate ∈ gist :: rest, said = candidate ∨ FirstWords candidate said
        | .error _ => ∀ said ∈ gist :: rest, maxContentBytes < byteLen topic + byteLen said := by
      rintro outcome rfl big
      cases tried : tryCandidates turn topic rest with
      | error _ =>
        rw [tried] at ih
        exact List.forall_mem_cons.2 ⟨big, ih⟩
      | ok pair =>
        rw [tried] at ih
        obtain ⟨same, fits, candidate, mem, said⟩ := ih
        exact ⟨same, fits, candidate, List.mem_cons_of_mem _ mem, said⟩
    rw [tryCandidates]
    split_ifs with fits
    · rw [build_eq]
      exact ⟨rfl, fits, gist, List.mem_cons_self, .inl rfl⟩
    · cases cut : shorten topic gist with
      | none => exact later _ rfl (Nat.not_le.1 fits)
      | some shortened =>
        obtain ⟨-, small, words⟩ := shorten_eq_some cut
        dsimp only
        rw [dif_pos small, build_eq]
        exact ⟨rfl, small, gist, List.mem_cons_self, .inr words⟩

/-- Where a candidate fits, an entry is built: a candidate before it that is shortened has one too. -/
theorem tryCandidates_ok {gists : List Text} (some_ : ∃ gist ∈ gists, byteLen topic + byteLen gist ≤ maxContentBytes) :
    ∃ pair, tryCandidates turn topic gists = .ok pair := by
  have spec := @tryCandidates_spec turn topic gists
  cases tried : tryCandidates turn topic gists with
  | ok pair => exact ⟨pair, rfl⟩
  | error _ =>
    rw [tried] at spec
    obtain ⟨gist, mem, fits⟩ := some_
    exact absurd fits (Nat.not_le.2 (spec gist mem))

/-- Shortening needs room for twenty bytes, and a kind is shorter than that: a symbol of which no candidate
fits has no entry. -/
theorem tryCandidates_error (none_ : ¬ Speakable symbol line) :
    tryCandidates turn (topicOf symbol) (candidates symbol line) = .error ⟨turn, byteLen (topicOf symbol)⟩ := by
  have kinds : byteLen symbol.kind.name.toList ≤ 8 := by
    cases symbol.kind <;> decide
  have narrow : ¬ 20 < maxContentBytes - byteLen (topicOf symbol) := by
    intro room
    exact none_ (.inl (by omega))
  rw [speakable_iff] at none_
  generalize candidates symbol line = gists at none_
  induction gists with
  | nil => rfl
  | cons gist rest ih =>
    simp only [List.mem_cons, exists_eq_or_imp, not_or] at none_
    rw [tryCandidates, dif_neg none_.1]
    cases cut : shorten (topicOf symbol) gist with
    | none => exact ih none_.2
    | some shortened => exact absurd (shorten_eq_some cut).1 narrow

end Proofs

/-- The pair is as documented exactly where the topic alone is over the budget, or where the kind, the
first line or the parent fits beside it. -/
theorem gistForEntry_justified_iff (symbol : Symbol) (firstLine : Option Text) (turn : TurnId) :
    Justified symbol (lineOf firstLine) (gistForEntry symbol firstLine turn) ↔
      maxContentBytes < byteLen (topicOf symbol) ∨ Speakable symbol (lineOf firstLine) := by
  rw [gistForEntry]
  by_cases speakable : Speakable symbol (lineOf firstLine)
  · refine iff_of_true ?_ (.inr speakable)
    have spec := @tryCandidates_spec turn (topicOf symbol) (candidates symbol (lineOf firstLine))
    obtain ⟨⟨topic, gist⟩, tried⟩ := @tryCandidates_ok turn _ _ (speakable_iff.1 speakable)
    rw [tried] at spec ⊢
    obtain ⟨same, fits, candidate, mem, said⟩ := spec
    exact ⟨same, same ▸ fits, candidate, mem_candidates.1 mem, said⟩
  · rw [tryCandidates_error speakable, Justified, or_iff_left speakable]

/-- A name of sixty-five letters and no first line. -/
def lone : Symbol :=
  { kind := .function, name := List.replicate 65 'x', parent := none, startByte := 0, endByte := 1, startLine := 0,
    path := [], language := .rust }

/-- Its topic has seventy-six bytes, and yet there is no entry. -/
theorem lone_refused : ¬ Justified lone (lineOf none) (gistForEntry lone none (.fromU128 1)) := by
  rw [gistForEntry, tryCandidates_error (by decide), Justified]
  decide

end SupraHarness.Digest
