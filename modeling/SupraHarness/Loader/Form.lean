import Mathlib.Order.Lattice
import SupraHarness.Lib.Lines
import SupraHarness.Lib.Results
import SupraHarness.Lib.Trim
import SupraHarness.Loader.Manifest

/-!
# The form of a SKILL.md

Empty lines, an opening fence, header lines, a closing fence and the body. The parser takes files of this form, but
for the empty lines, which it wants to end in a bare line feed, and it takes some that are not of it: the first
header line may begin with a fence, and a closing fence at the end of the file may be followed by a carriage return.
-/
namespace SupraHarness.Loader

open Digest (Path Text splitOnce)
open Lines Scan Str

def fence : Text := "---".toList

/-- A header line of the form `key: value`. -/
def Pair (key value line : Text) : Prop :=
  ∃ before after, line = before ++ ':' :: after ∧ ':' ∉ before ∧ trim before = key ∧ trim after = value

/-- A header line that a name or a description stands in. -/
def Required (value line : Text) : Prop := Pair "name".toList value line ∨ Pair "description".toList value line

/-- Header lines: each blank or of the form `key: value`, a name and a description among them, neither blank. -/
structure Headers (lines : List Text) : Prop where
  form : ∀ line ∈ lines, trim line = [] ∨ ':' ∈ line
  name : ∃ line ∈ lines, ∃ value, Pair "name".toList value line
  description : ∃ line ∈ lines, ∃ value, Pair "description".toList value line
  nonblank : ∀ line ∈ lines, ∀ value, Required value line → value ≠ []

/-! ## One header line -/

theorem trim_eq (text : Text) : trim text = Trim.trim isWhitespace text := rfl

theorem trim_concat_return (text : Text) : trim (text ++ ['\r']) = trim text := by
  obtain ⟨front, back, hf, hb, hc, whole⟩ := Trim.exists_trim isWhitespace text
  have blank : Trim.Blank isWhitespace (back ++ ['\r']) := hb.append (List.forall_mem_singleton.2 rfl)
  have same := Trim.trim_append hf hc blank
  rw [← List.append_assoc, ← whole] at same
  exact same

theorem colon_of_trim {line : Text} (blank : trim line = []) : ':' ∉ line := by
  obtain ⟨front, back, hf, hb, -, whole⟩ := Trim.exists_trim isWhitespace line
  rw [← trim_eq, blank, List.append_nil] at whole
  intro mem
  rw [whole] at mem
  exact absurd (hf.append hb ':' mem) (by decide)

theorem splitOnce_pair {before after : Text} (free : ':' ∉ before) :
    splitOnce [':'] (before ++ ':' :: after) = some (before, after) := by
  have found : find [':'] (before ++ ':' :: after) = some before.length := by
    have here : find [':'] (':' :: after) = some 0 := find_of_starts (List.prefix_append [':'] after)
    rw [find_skip free, here, Option.map_some, Nat.zero_add]
  rw [splitOnce, found]
  simp

theorem splitOnce_eq_none {line : Text} (free : ':' ∉ line) : splitOnce [':'] line = none := by
  have found : find [':'] line = none := by
    rw [← List.append_nil line, find_skip free]
    rfl
  rw [splitOnce, found]
  rfl

/-- What a line is to the parser. -/
theorem line_cases (line : Text) : trim line = [] ∨ (trim line ≠ [] ∧ ':' ∉ line) ∨
    trim line ≠ [] ∧ ∃ before after, line = before ++ ':' :: after ∧ ':' ∉ before := by
  by_cases blank : trim line = []
  · exact .inl blank
  · refine .inr ?_
    by_cases mem : ':' ∈ line
    · obtain ⟨before, after, whole, free⟩ := List.eq_append_cons_of_mem mem
      exact .inr ⟨blank, before, after, whole, free⟩
    · exact .inl ⟨blank, mem⟩

theorem pair_iff {key value before after : Text} (free : ':' ∉ before) :
    Pair key value (before ++ ':' :: after) ↔ trim before = key ∧ trim after = value := by
  constructor
  · rintro ⟨before', after', whole, free', key, value⟩
    obtain ⟨rfl, rfl⟩ := before_unique free free' whole
    exact ⟨key, value⟩
  · rintro ⟨key, value⟩
    exact ⟨before, after, rfl, free, key, value⟩

theorem not_pair {key value line : Text} (free : ':' ∉ line) : ¬ Pair key value line := by
  rintro ⟨before, after, rfl, -⟩
  exact free (by simp)

variable {path : Path} {front next : Front}

theorem readLine_blank {line : Text} (blank : trim line = []) : readLine path front line = .ok front := by
  rw [readLine, if_pos blank]

theorem readLine_plain {line : Text} (full : trim line ≠ []) (free : ':' ∉ line) :
    readLine path front line = .error (.parse path ("expected `key: value`, found " ++ Llm.debug (String.ofList line))) := by
  rw [readLine, if_neg full, splitOnce_eq_none free]

/-- A carriage return at the end of a line makes no difference to what is read of it. -/
theorem readLine_return (line : Text) : readLine path front (line ++ ['\r']) = .ok next ↔ readLine path front line = .ok next := by
  have same := trim_concat_return line
  rcases line_cases line with blank | ⟨full, free⟩ | ⟨full, before, after, rfl, free⟩
  · rw [readLine_blank blank, readLine_blank (same.trans blank)]
  · have free' : ':' ∉ line ++ ['\r'] := by simpa using free
    rw [readLine_plain full free, readLine_plain (same ▸ full) free']
    exact iff_of_false nofun nofun
  · have pair : before ++ ':' :: after ++ ['\r'] = before ++ ':' :: (after ++ ['\r']) := List.append_assoc _ _ _
    rw [readLine, readLine, if_neg full, if_neg (same ▸ full), splitOnce_pair free, pair, splitOnce_pair free]
    dsimp only
    rw [trim_concat_return after]

/-- The names a header line has given. -/
structure Front.Gives (front next : Front) (line : Text) : Prop where
  name : next.name.isSome ↔ front.name.isSome ∨ ∃ value, Pair "name".toList value line
  description : next.description.isSome ↔ front.description.isSome ∨ ∃ value, Pair "description".toList value line

/-- A line that gives neither leaves both. -/
theorem gives_of_other {line : Text} (other : ∀ value, ¬ Required value line) (name : next.name = front.name)
    (description : next.description = front.description) : front.Gives next line where
  name := by
    have none : ¬ ∃ value, Pair "name".toList value line := fun ⟨value, said⟩ => other value (.inl said)
    rw [name, or_iff_left none]
  description := by
    have none : ¬ ∃ value, Pair "description".toList value line := fun ⟨value, said⟩ => other value (.inr said)
    rw [description, or_iff_left none]

theorem not_required {line : Text} (free : ':' ∉ line) (value : Text) : ¬ Required value line :=
  not_or.2 ⟨not_pair free, not_pair free⟩

theorem nonblank_eq_ok {field : String} {value value' : Text} :
    nonblank path field value = .ok value' ↔ value ≠ [] ∧ value' = value := by
  rw [nonblank]
  split_ifs with blank
  · exact iff_of_false nofun fun both => both.1 blank
  · rw [Except.ok.injEq, and_iff_right blank, eq_comm]

/-- What is read of a line, and whether it is. -/
theorem readLine_spec (path : Path) (front : Front) (line : Text) :
    ((∃ next, readLine path front line = .ok next) ↔
        (trim line = [] ∨ ':' ∈ line) ∧ ∀ value, Required value line → value ≠ []) ∧
      ∀ next, readLine path front line = .ok next → front.Gives next line := by
  rcases line_cases line with blank | ⟨full, free⟩ | ⟨full, before, after, rfl, free⟩
  · have free := colon_of_trim blank
    rw [readLine_blank blank]
    refine ⟨iff_of_true ⟨front, rfl⟩ ⟨.inl blank, fun value said => ?_⟩, fun next same => ?_⟩
    · exact absurd said (not_required free value)
    · cases same
      exact gives_of_other (not_required free) rfl rfl
  · rw [readLine_plain full free]
    refine ⟨iff_of_false (by rintro ⟨next, refused⟩; cases refused) ?_, nofun⟩
    rintro ⟨blank | mem, -⟩
    · exact full blank
    · exact free mem
  · rw [readLine, if_neg full, splitOnce_pair free]
    dsimp only
    have mem : ':' ∈ before ++ ':' :: after := by simp
    split_ifs with name description requires
    · constructor
      · simp [Required, pair_iff free, Results.map_eq_ok, nonblank_eq_ok, name]
      · intro next read
        obtain ⟨value, -, rfl⟩ := Results.map_eq_ok.1 read
        constructor
        · simp [pair_iff free, name]
        · simp [pair_iff free, name]
    · constructor
      · simp [Required, pair_iff free, Results.map_eq_ok, nonblank_eq_ok, description]
      · intro next read
        obtain ⟨value, -, rfl⟩ := Results.map_eq_ok.1 read
        constructor
        · simp [pair_iff free, description]
        · simp [pair_iff free, description]
    all_goals
      have other (value : Text) : ¬ Required value (before ++ ':' :: after) := by
        rw [Required, pair_iff free, pair_iff free]
        exact not_or.2 ⟨fun both => name both.1, fun both => description both.1⟩
      refine ⟨iff_of_true ⟨_, rfl⟩ ⟨.inr mem, fun value said => absurd said (other value)⟩, fun next read => ?_⟩
      cases read
      exact gives_of_other other rfl rfl

/-! ## All header lines -/

/-- The front matter when nothing of it has been read. -/
def Front.unread : Front := ⟨none, none, [], .empty⟩

/-- All lines are read exactly if each can be, and have then given what one of them gives. -/
theorem readLines_spec (path : Path) (lines : List Text) (front : Front) :
    ((∃ read, lines.foldlM (readLine path) front = .ok read) ↔
        ∀ line ∈ lines, (trim line = [] ∨ ':' ∈ line) ∧ ∀ value, Required value line → value ≠ []) ∧
      ∀ read, lines.foldlM (readLine path) front = .ok read →
        (read.name.isSome ↔ front.name.isSome ∨ ∃ line ∈ lines, ∃ value, Pair "name".toList value line) ∧
          (read.description.isSome ↔
            front.description.isSome ∨ ∃ line ∈ lines, ∃ value, Pair "description".toList value line) := by
  induction lines generalizing front with
  | nil =>
    refine ⟨iff_of_true ⟨front, rfl⟩ (List.forall_mem_nil _), fun read same => ?_⟩
    cases same
    simp
  | cons line lines ih =>
    obtain ⟨can, gives⟩ := readLine_spec path front line
    simp only [List.foldlM_cons, Results.bind_eq_ok, List.forall_mem_cons, ← can, List.exists_mem_cons_iff]
    constructor
    · constructor
      · rintro ⟨read, next, here, later⟩
        exact ⟨⟨next, here⟩, (ih next).1.1 ⟨read, later⟩⟩
      · rintro ⟨⟨next, here⟩, others⟩
        obtain ⟨read, later⟩ := (ih next).1.2 others
        exact ⟨read, next, here, later⟩
    · rintro read ⟨next, here, later⟩
      obtain ⟨name, description⟩ := (ih next).2 read later
      rw [name, description, (gives next here).name, (gives next here).description, or_assoc, or_assoc]
      exact ⟨Iff.rfl, Iff.rfl⟩

/-- A name and a description are read of exactly the lines that are headers. -/
theorem headers_iff (path : Path) (lines : List Text) :
    (∃ read, lines.foldlM (readLine path) .unread = .ok read ∧ read.name.isSome ∧ read.description.isSome) ↔
      Headers lines := by
  obtain ⟨can, gives⟩ := readLines_spec path lines .unread
  constructor
  · rintro ⟨read, all, name, description⟩
    have each := can.1 ⟨read, all⟩
    obtain ⟨hn, hd⟩ := gives read all
    exact ⟨fun line mem => (each line mem).1, (hn.1 name).resolve_left nofun, (hd.1 description).resolve_left nofun,
      fun line mem => (each line mem).2⟩
  · intro h
    obtain ⟨read, all⟩ := can.2 fun line mem => ⟨h.form line mem, h.nonblank line mem⟩
    obtain ⟨hn, hd⟩ := gives read all
    exact ⟨read, all, hn.2 (.inr h.name), hd.2 (.inr h.description)⟩

/-- Header lines are read as they stand in the file, but for the last line feed, as what they say is. -/
theorem readLines_lined {headers : List Text} (plain : ∀ raw ∈ headers, '\n' ∉ raw) (some : headers ≠ [])
    {start read : Front} : (lines (lined headers).dropLast).foldlM (readLine path) start = .ok read ↔
      (headers.map content).foldlM (readLine path) start = .ok read := by
  obtain ⟨init, last, rfl⟩ := (List.eq_nil_or_concat' headers).resolve_left some
  have here : '\n' ∉ last := plain last (by simp)
  have cut : (lined (init ++ [last])).dropLast = lined init ++ last := by
    rw [lined_append, lined_cons, lined_nil, ← List.append_assoc, List.dropLast_concat]
  rw [cut, lines_lined fun raw mem => plain raw (List.mem_append_left _ mem), lines_plain here, List.map_append,
    List.foldlM_append, List.foldlM_append, Results.bind_eq_ok, Results.bind_eq_ok]
  refine exists_congr fun front => and_congr_right fun _ => ?_
  have one (line : Text) : [line].foldlM (readLine path) front = readLine path front line := by
    rw [List.foldlM_cons]
    cases readLine path front line <;> rfl
  rw [List.map_singleton, one]
  split_ifs with empty
  · rw [empty, content_nil, readLine_blank rfl]
    exact Iff.rfl
  · rw [one]
    rcases content_cases last with same | more
    · rw [← same]
    · nth_rewrite 1 [more]
      exact readLine_return _

end SupraHarness.Loader
