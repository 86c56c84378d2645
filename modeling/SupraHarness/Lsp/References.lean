import SupraHarness.Lib.FileUri
import SupraHarness.Lib.Scan
import SupraHarness.Lsp.Positions

/-!
# References from locations

A location is a URI and a position. The client cuts the scheme off the URI and takes what is left for the name of a
file, so that the reference is the one the location denotes only where the URI has no authority and nothing to decode;
and it reads the position in the text of that file.
-/
namespace SupraHarness.Lsp

open Positions
open FileUri (Name fileOf)

/-- A location of the server: only the start of its range is read. -/
structure Location where
  uri : Text
  line : UInt32
  character : UInt32
  deriving DecidableEq, Repr

structure Reference where
  file : Name
  occurrences : List Nat
  semantic : Bool
  deriving DecidableEq, Repr

/-- `path_from_uri`. -/
def pathFromUri (uri : Text) : Option Name := (Str.stripPrefix "file://".toList uri).map Utf8.encode

/-- The components that paths are compared by, with whether the path begins at the root: empty ones do not count, and a
dot only at the beginning. -/
def components (path : Name) : Bool × List Name :=
  let parts := path.splitOn 0x2F
  (path.head? = some 0x2F,
    (parts.take 1).filter (· ≠ []) ++ (parts.drop 1).filter fun part => part ≠ [] ∧ part ≠ [0x2E])

/-- The reference for one location, if it is kept; nothing where a counter overflows. -/
def referenceOf (files : Name → Option Text) (path : Name) (text : Text) (location : Location) :
    Option (Option Reference) :=
  match pathFromUri location.uri with
  | none => some none
  | some file =>
    match if components file = components path then some text else files file with
    | none => some none
    | some target => (byteOffset target location.line.toNat location.character.toNat).map fun byte =>
      byte.map fun byte => ⟨file, [byte], true⟩

/-- Names with the same components are names of the same file: where both are read, the texts are the same. -/
def Resolves (files : Name → Option Text) : Prop := ∀ file file' text text',
  components file = components file' → files file = some text → files file' = some text' → text = text'

/-- No carriage return ends a line before a line of the text by itself, and the counter holds the line behind it. -/
def Plain (text : Text) (line : Nat) : Prop := ∀ front rest, splitAtLine line text = some (front, rest) →
  returns front = 0 ∧ ('\n' ∈ rest → line + 1 < 2 ^ 32)

theorem splitAtFeed_of_splitAtLine {line : Nat} {text front rest : Text} (h : splitAtLine line text = some (front, rest))
    (none : returns front = 0) : splitAtFeed line text = some (front, rest) := by
  induction line, text using splitAtLine.induct generalizing front with
  | case1 text =>
    rw [splitAtLine] at h
    rw [splitAtFeed, h]
  | case2 line =>
    rw [splitAtLine] at h
    cases h
  | case3 line more ih =>
    rw [splitAtLine] at h
    obtain ⟨⟨front', rest'⟩, found, equal⟩ := Option.map_eq_some_iff.1 h
    cases equal
    dsimp only at none
    rw [returns_feed] at none
    rw [splitAtFeed, if_neg (by decide), splitAtFeed, if_pos rfl, ih found none]
    rfl
  | case4 line c more other ends ih =>
    rw [splitAtLine.eq_4 _ _ _ other, if_pos ends] at h
    obtain ⟨⟨front', rest'⟩, found, equal⟩ := Option.map_eq_some_iff.1 h
    cases equal
    dsimp only at none
    rcases ends with rfl | rfl
    · rw [returns_of_ne (by decide)] at none
      rw [splitAtFeed, if_pos rfl, ih found none]
      rfl
    · have alone : front'.head? ≠ some '\n' := by
        intro first
        obtain ⟨more', rfl⟩ := List.head?_eq_some_iff.1 first
        rw [(splitAtLine_eq_some found).1] at other
        exact other _ rfl rfl
      rw [returns_alone alone] at none
      cases none
  | case5 line c more other ends ih =>
    rw [splitAtLine.eq_4 _ _ _ other, if_neg ends] at h
    obtain ⟨⟨front', rest'⟩, found, equal⟩ := Option.map_eq_some_iff.1 h
    cases equal
    dsimp only at none
    obtain ⟨feed, return_⟩ := not_or.1 ends
    rw [returns_of_ne return_] at none
    rw [splitAtFeed, if_neg feed, ih found none]
    rfl

/-- The next line feed is behind the end of the line. -/
theorem size_takeWhile_lt {part : Text} (mem : '\n' ∈ part) (rest : Text) :
    size ((part ++ rest).takeWhile fun c => ¬ IsEnd c) < size part := by
  induction part with
  | nil => cases mem
  | cons c part ih =>
    have wide := c.utf8Size_pos
    rw [List.cons_append, size_cons]
    by_cases ends : IsEnd c
    · rw [List.takeWhile_cons_of_neg (by simpa using ends), size_nil]
      omega
    · have inside : '\n' ∈ part := (List.mem_cons.1 mem).resolve_left fun equal => ends (.inl equal.symm)
      rw [List.takeWhile_cons_of_pos (by simpa using ends), size_cons]
      have less := ih inside
      omega

theorem feed_mem_of_splitAtFeed {line : Nat} {text front rest : Text}
    (h : splitAtFeed (line + 1) text = some (front, rest)) : '\n' ∈ front := by
  induction text generalizing front with
  | nil =>
    rw [splitAtFeed] at h
    cases h
  | cons c text ih =>
    rw [splitAtFeed] at h
    split_ifs at h with feed
    · obtain ⟨split, -, equal⟩ := Option.map_eq_some_iff.1 h
      cases equal
      exact feed ▸ List.mem_cons_self
    · obtain ⟨split, found, equal⟩ := Option.map_eq_some_iff.1 h
      cases equal
      exact List.mem_cons_of_mem _ (ih found)

/-- A position is read as the offset that it denotes just where the line is plain. -/
theorem byteOffset_iff {text : Text} {line character offset : Nat} (line_lt : line < 2 ^ 32) (character_lt : character < 2 ^ 32)
    (h : denoted text line character = some offset) :
    byteOffset text line character = some (some offset) ↔ Plain text line := by
  obtain ⟨⟨front, rest⟩, split, inside⟩ := Option.bind_eq_some_iff.1 h
  obtain ⟨further, found, rfl⟩ := Option.map_eq_some_iff.1 inside
  dsimp only at found ⊢
  obtain ⟨rfl, count⟩ := splitAtLine_eq_some split
  have plain : Plain (front ++ rest) line ↔ returns front = 0 ∧ ('\n' ∈ rest → line + 1 < 2 ^ 32) := by
    refine ⟨fun all => all _ _ split, fun both front' rest' split' => ?_⟩
    rw [split] at split'
    cases split'
    exact both
  rw [plain]
  by_cases none : returns front = 0
  · have walked : seekUnit character (size front) 0 rest = some (size front + further) :=
      seekUnit_within character_lt (Nat.zero_le _) found
    rw [byteOffset_of_split line_lt (splitAtFeed_of_splitAtLine split none), walked]
    split_ifs with room
    · exact ⟨fun _ => ⟨none, room⟩, fun _ => rfl⟩
    · exact ⟨(nofun), fun both => absurd both.2 room⟩
  · refine ⟨fun equal => ?_, fun both => absurd both.1 none⟩
    obtain ⟨more, left⟩ : ∃ more, line = front.count '\n' + (more + 1) := ⟨returns front - 1, by omega⟩
    have ahead := splitAtFeed_append more front rest
    cases behind : splitAtFeed (more + 1) rest with
    | none =>
      rw [behind, ← left] at ahead
      rw [byteOffset_of_none line_lt ahead] at equal
      cases equal
    | some split' =>
      obtain ⟨part, rest'⟩ := split'
      rw [behind, ← left] at ahead
      rw [byteOffset_of_split line_lt ahead] at equal
      split_ifs at equal
      obtain ⟨reached, walked, same⟩ := Option.map_eq_some_iff.1 equal
      cases Option.some.inj same
      have ge := seekUnit_ge walked
      have le := within_le found
      have less := size_takeWhile_lt (feed_mem_of_splitAtFeed behind) rest'
      rw [← splitAtFeed_eq_some behind] at less
      dsimp only at ge
      rw [size_append] at ge
      omega

/-- The name that is left of a URI is the file that it denotes just where nothing of it was to be read otherwise. -/
theorem pathFromUri_iff {uri : Text} {file : Name} (h : fileOf uri = some file) :
    pathFromUri uri = some file ↔ "file:///".toList <+: uri ∧ '%' ∉ uri := by
  rw [pathFromUri]
  cases cut : Str.stripPrefix "file://".toList uri with
  | none =>
    refine ⟨(nofun), ?_⟩
    rintro ⟨⟨rest, rfl⟩, -⟩
    cases cut
  | some rest =>
    have whole : uri = "file://".toList ++ rest := Scan.stripPrefix_eq_some.1 cut
    subst whole
    have scheme : '%' ∈ "file://".toList ++ rest ↔ '%' ∈ rest := by
      rw [List.mem_append, or_iff_right (by decide)]
    rw [Option.map_some, Option.some_inj, eq_comm, FileUri.fileOf_eq h, scheme]
    refine and_congr_left fun _ => ⟨fun rooted => ?_, ?_⟩
    · obtain ⟨more, rfl⟩ := List.head?_eq_some_iff.1 rooted
      exact ⟨more, rfl⟩
    · rintro ⟨more, equal⟩
      have behind : rest = '/' :: more := by
        have same : "file://".toList ++ '/' :: more = "file://".toList ++ rest := equal
        exact (List.append_cancel_left same).symm
      rw [behind]
      rfl

/-- The reference of a location of a file is the one it denotes just where its URI is written out and its line is plain. -/
theorem referenceOf_iff {files : Name → Option Text} (resolves : Resolves files) {path : Name} {text : Text}
    (read : files path = some text) {location : Location} {file : Name} (names : fileOf location.uri = some file)
    {target : Text} (found : files file = some target) {offset : Nat}
    (denotes : denoted target location.line.toNat location.character.toNat = some offset) :
    referenceOf files path text location = some (some ⟨file, [offset], true⟩) ↔
      ("file:///".toList <+: location.uri ∧ '%' ∉ location.uri) ∧ Plain target location.line.toNat := by
  rw [← pathFromUri_iff names, ← byteOffset_iff location.line.toNat_lt location.character.toNat_lt denotes, referenceOf]
  cases cut : pathFromUri location.uri with
  | none => exact ⟨(nofun), fun both => nomatch both.1⟩
  | some name =>
    dsimp only
    rw [Option.some_inj]
    by_cases same : name = file
    · have target_eq : (if components name = components path then some text else files name) = some target := by
        split_ifs with equal
        · rw [same] at equal
          rw [resolves _ _ _ _ equal found read]
        · rw [same, found]
      rw [target_eq]
      dsimp only
      rw [Option.map_eq_some_iff, and_iff_right same]
      constructor
      · rintro ⟨byte, walked, equal⟩
        obtain ⟨byte, rfl, equal⟩ := Option.map_eq_some_iff.1 equal
        cases equal
        exact walked
      · intro walked
        exact ⟨_, walked, by rw [same]; rfl⟩
    · refine ⟨fun equal => absurd ?_ same, fun both => absurd both.1 same⟩
      cases chosen : (if components name = components path then some text else files name) with
      | none =>
        rw [chosen] at equal
        cases equal
      | some target' =>
        rw [chosen] at equal
        obtain ⟨byte, -, kept⟩ := Option.map_eq_some_iff.1 equal
        obtain ⟨byte, -, made⟩ := Option.map_eq_some_iff.1 kept
        exact (Reference.mk.inj made).1

/-- An offset comes back unless a carriage return stands before it on its line, its position is the one the protocol has
unless a carriage return ends a line before it, and a reference is the one its location denotes just where the URI is
written out and no carriage return ends a line before the position; all this while the counters hold. -/
theorem positions_iff (before after : Text) {files : Name → Option Text} (resolves : Resolves files) {path : Name} {text : Text}
    (read : files path = some text) {location : Location} {file : Name} (names : fileOf location.uri = some file)
    {target : Text} (found : files file = some target) {offset : Nat}
    (denotes : denoted target location.line.toNat location.character.toNat = some offset) :
    (((positionOf (before ++ after) (size before)).bind fun place => byteOffset (before ++ after) place.1 place.2) =
        some (some (size before)) ↔
      Fits before ∧ ('\n' ∈ after → before.count '\n' + 1 < 2 ^ 32) ∧ '\r' ∉ lastLine before) ∧
    (positionOf (before ++ after) (size before) = some (place before) ↔ Fits before ∧ returns before = 0) ∧
    (referenceOf files path text location = some (some ⟨file, [offset], true⟩) ↔
      ("file:///".toList <+: location.uri ∧ '%' ∉ location.uri) ∧ Plain target location.line.toNat) :=
  ⟨there_and_back before after, positionOf_place before after, referenceOf_iff resolves read names found denotes⟩

/-- Two files, the name of one of which is what a URI of the other comes down to when nothing in it is decoded. -/
def twoFiles (name : Name) : Option Text :=
  if name = Utf8.encode "/a b".toList then some "one".toList
  else if name = Utf8.encode "/a%20b".toList then some "a\rb\nc".toList
  else none

theorem positions_iff_two_files :
    (((positionOf "a😀\nb".toList 5).bind fun place => byteOffset "a😀\nb".toList place.1 place.2) = some (some 5) ↔
      Fits "a😀".toList ∧ ('\n' ∈ "\nb".toList → "a😀".toList.count '\n' + 1 < 2 ^ 32) ∧ '\r' ∉ lastLine "a😀".toList) ∧
    (positionOf "a😀\nb".toList 5 = some (place "a😀".toList) ↔ Fits "a😀".toList ∧ returns "a😀".toList = 0) ∧
    (referenceOf twoFiles (Utf8.encode "/a b".toList) "one".toList ⟨"file:///a%20b".toList, 0, 2⟩ =
        some (some ⟨Utf8.encode "/a b".toList, [2], true⟩) ↔
      ("file:///".toList <+: "file:///a%20b".toList ∧ '%' ∉ "file:///a%20b".toList) ∧ Plain "one".toList 0) := by
  have resolves : Resolves twoFiles := by
    intro file file' text text' same read read'
    rw [twoFiles] at read read'
    split_ifs at read read' with one one' two two' one' two'
    · rw [← Option.some.inj read, ← Option.some.inj read']
    · rw [one, two] at same
      exact absurd same (by decide)
    · rw [two', one'] at same
      exact absurd same (by decide)
    · rw [← Option.some.inj read, ← Option.some.inj read']
  exact positions_iff "a😀".toList "\nb".toList resolves (by decide) (by decide) (by decide) (by decide)

/-- Behind a carriage return an offset does not come back, a name is not decoded, and a position is looked for lines too far
down. -/
theorem positions_differ :
    ¬ InEnd "a\r".toList "b".toList ∧
    ((positionOf "a\rb".toList 2).bind fun place => byteOffset "a\rb".toList place.1 place.2) = some (some 1) ∧
    size "a\r".toList = 2 ∧
    fileOf "file:///a%20b".toList = some (Utf8.encode "/a b".toList) ∧
    referenceOf twoFiles (Utf8.encode "/a b".toList) "one".toList ⟨"file:///a%20b".toList, 0, 0⟩ =
      some (some ⟨Utf8.encode "/a%20b".toList, [0], true⟩) ∧
    denoted "a\rb\nc".toList 1 0 = some 2 ∧ byteOffset "a\rb\nc".toList 1 0 = some (some 4) := by
  exact ⟨fun both => absurd both.2 (by decide), by decide, by decide, by decide, by decide, by decide, by decide⟩

end SupraHarness.Lsp
