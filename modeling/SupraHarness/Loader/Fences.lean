import SupraHarness.Loader.Form

/-!
# Which texts are skills

A text that the parser takes is cut at its fences in one way only. What the parser wants of the cut and what the
form of a SKILL.md wants of it differ in the empty lines, the first header line and the closing fence.
-/
namespace SupraHarness.Loader

open Digest (Path Text)
open Lines Scan Str

/-- A text cut into lines, without their line feeds, and what stands behind the line feed of the closing line, if it
has one. -/
structure Form where
  empties : List Text
  opening : Text
  headers : List Text
  closing : Text
  rest : Option Text
  deriving DecidableEq, Repr

namespace Form

/-- What stands behind the closing line, with its line feed. -/
def after (form : Form) : Text := (form.rest.map ('\n' :: ·)).getD []

def text (form : Form) : Text :=
  lined (form.empties ++ form.opening :: form.headers) ++ form.closing ++ form.after

def body (form : Form) : Text := form.rest.getD []

/-- The form of a SKILL.md: empty lines, a line `---`, header lines none of which begins with `---`, a line that is
exactly `---`, and the body. -/
structure Proper (form : Form) : Prop where
  lines : ∀ raw ∈ form.empties ++ form.opening :: form.headers ++ [form.closing], '\n' ∉ raw
  empty : ∀ raw ∈ form.empties, content raw = []
  opens : content form.opening = fence
  headers : Headers (form.headers.map content)
  inner : ∀ raw ∈ form.headers, ¬ fence <+: content raw
  closes : (if form.rest.isSome then content form.closing else form.closing) = fence

/-- The same, with a first header line that may begin with `---` and a closing line that a carriage return may end
at the end of the text. -/
structure Shaped (form : Form) : Prop where
  lines : ∀ raw ∈ form.empties ++ form.opening :: form.headers ++ [form.closing], '\n' ∉ raw
  empty : ∀ raw ∈ form.empties, content raw = []
  opens : content form.opening = fence
  filled : form.headers ≠ []
  inner : ∀ raw ∈ form.headers.tail, ¬ fence <+: content raw
  closes : content form.closing = fence

/-- The first header line begins with `---`, or the closing line ends the text with a carriage return. -/
def Odd (form : Form) : Prop :=
  (∃ raw ∈ form.headers.head?, fence <+: content raw) ∨ form.rest = none ∧ form.closing ≠ fence

/-- No empty line has a carriage return. -/
def Bare (form : Form) : Prop := ∀ raw ∈ form.empties, raw = []

end Form

theorem return_notMem_fence : '\r' ∉ fence := by decide

theorem feed_notMem_fence : '\n' ∉ fence := by decide

theorem Headers.ne_nil {lines : List Text} (h : Headers lines) : lines ≠ [] := by
  rintro rfl
  obtain ⟨line, mem, -⟩ := h.name
  cases mem

namespace Form

variable {form other : Form} {path : Path} {text front body : Text}

theorem proper_iff : form.Proper ↔ form.Shaped ∧ Headers (form.headers.map content) ∧ ¬ form.Odd := by
  constructor
  · intro h
    refine ⟨⟨h.lines, h.empty, h.opens, ?_, fun raw mem => h.inner raw (List.mem_of_mem_tail mem), ?_⟩, h.headers, ?_⟩
    · exact fun none => h.headers.ne_nil (by rw [none]; rfl)
    · have closes := h.closes
      split_ifs at closes with ended
      · exact closes
      · rw [closes]
        exact content_of_plain return_notMem_fence
    · rintro (⟨raw, first, starts⟩ | ⟨last, differs⟩)
      · exact h.inner raw (List.mem_of_mem_head? first) starts
      · have closes := h.closes
        rw [last] at closes
        exact differs closes
  · rintro ⟨h, headers, plain⟩
    refine ⟨h.lines, h.empty, h.opens, headers, fun raw mem starts => ?_, ?_⟩
    · obtain ⟨first, others, whole⟩ := List.exists_cons_of_ne_nil h.filled
      have tail := h.inner
      rw [whole] at mem tail
      rcases List.mem_cons.1 mem with rfl | mem
      · exact plain (.inl ⟨raw, by rw [whole]; rfl, starts⟩)
      · exact tail raw mem starts
    · split_ifs with ended
      · exact h.closes
      · by_contra differs
        exact plain (.inr ⟨by simpa using ended, differs⟩)

/-! ## The cut is the only one -/

theorem Shaped.pieces (h : form.Shaped) : form.text.splitOn '\n' =
    form.empties ++ form.opening :: (form.headers ++ form.closing :: (form.rest.map (·.splitOn '\n')).getD []) := by
  obtain ⟨front, last⟩ := List.forall_mem_append.1 h.lines
  have closing : '\n' ∉ form.closing := last _ (List.mem_singleton_self _)
  rw [text, List.append_assoc, splitOn_lined front, List.append_assoc, List.cons_append, after]
  cases form.rest with
  | none =>
    rw [Option.map_none, Option.map_none, Option.getD_none, Option.getD_none, List.append_nil,
      List.splitOn_eq_singleton closing]
  | some body =>
    rw [Option.map_some, Option.map_some, Option.getD_some, Option.getD_some,
      List.splitOn_append_cons_self_of_not_mem closing]

theorem Shaped.full (h : form.Shaped) : content form.opening ≠ [] := by
  rw [h.opens]
  decide

theorem Shaped.starts (h : form.Shaped) : fence <+: content form.closing :=
  h.closes ▸ List.prefix_refl _

theorem Shaped.unique (h : form.Shaped) (h' : other.Shaped) (same : form.text = other.text) :
    form.empties = other.empties ∧ form.headers = other.headers ∧ form.closing = other.closing ∧
      (form.rest = none ↔ other.rest = none) := by
  have split := h.pieces
  rw [same, h'.pieces] at split
  obtain ⟨empties, -, lines⟩ := first_unique (p := fun raw => content raw ≠ [])
    (fun raw mem => not_not.2 (h'.empty raw mem)) h'.full (fun raw mem => not_not.2 (h.empty raw mem)) h.full split
  obtain ⟨first, others, whole⟩ := List.exists_cons_of_ne_nil h.filled
  obtain ⟨first', others', whole'⟩ := List.exists_cons_of_ne_nil h'.filled
  have inner := h.inner
  have inner' := h'.inner
  rw [whole, List.tail_cons] at inner
  rw [whole', List.tail_cons] at inner'
  rw [whole, whole', List.cons_append, List.cons_append, List.cons.injEq] at lines
  obtain ⟨rfl, lines⟩ := lines
  obtain ⟨rfl, closing, more⟩ :=
    first_unique (p := fun raw => fence <+: content raw) inner' h'.starts inner h.starts lines
  refine ⟨empties.symm, whole.trans whole'.symm, closing.symm, ?_⟩
  cases mine : form.rest with
  | none =>
    cases theirs : other.rest with
    | none => exact Iff.rfl
    | some body =>
      rw [mine, theirs] at more
      exact absurd more (List.splitOn_ne_nil _ _)
  | some body =>
    cases theirs : other.rest with
    | none =>
      rw [mine, theirs] at more
      exact absurd more.symm (List.splitOn_ne_nil _ _)
    | some body' => exact iff_of_false nofun nofun

theorem Shaped.odd_of_same (h : form.Shaped) (h' : other.Shaped) (same : form.text = other.text) (odd : form.Odd) :
    other.Odd := by
  obtain ⟨-, headers, closing, rest⟩ := h.unique h' same
  rw [Odd, headers, closing, rest] at odd
  exact odd

/-! ## What the parser makes of the cut -/

theorem lined_bare {empties : List Text} (bare : ∀ raw ∈ empties, raw = []) :
    lined empties = List.replicate empties.length '\n' := by
  induction empties with
  | nil => rfl
  | cons raw empties ih =>
    obtain ⟨rfl, others⟩ := List.forall_mem_cons.1 bare
    rw [lined_cons, ih others]
    rfl

theorem opened (opens : content form.opening = fence) (more : Text) :
    (stripPrefix "---\n".toList (form.opening ++ '\n' :: more)).or
      (stripPrefix "---\r\n".toList (form.opening ++ '\n' :: more)) = some more := by
  rcases (content_eq_iff return_notMem_fence).1 opens with bare | returned
  · have first : stripPrefix "---\n".toList (fence ++ '\n' :: more) = some more := stripPrefix_eq_some.2 rfl
    rw [bare, first]
    rfl
  · have first : stripPrefix "---\n".toList (form.opening ++ '\n' :: more) = none := by
      rw [returned]
      rfl
    rw [first, returned, Option.none_or]
    exact stripPrefix_eq_some.2 rfl

/-- A text of the form is split into its header lines, without the last line feed, and its body. -/
theorem Shaped.splitFences (h : form.Shaped) (bare : form.Bare) (path : Path) :
    splitFences path form.text = .ok ((lined form.headers).dropLast, form.body) := by
  obtain ⟨first, others, whole⟩ := List.exists_cons_of_ne_nil h.filled
  obtain ⟨front, last⟩ := List.forall_mem_append.1 h.lines
  obtain ⟨-, headers⟩ := List.forall_mem_append.1 front
  have inner (raw : Text) (mem : raw ∈ others) : '\n' ∉ raw ∧ ¬ fence <+: raw := by
    have mem' : raw ∈ form.headers := by
      rw [whole]
      exact List.mem_cons_of_mem _ mem
    refine ⟨headers raw (List.mem_cons_of_mem _ mem'), fun starts => ?_⟩
    exact h.inner raw (by rwa [whole]) ((starts_content_iff return_notMem_fence).2 starts)
  have plain : '\n' ∉ first := headers first (by simp [whole])
  have trimmed : form.text.dropWhile (· = '\n') =
      form.opening ++ '\n' :: (lined form.headers ++ form.closing ++ form.after) := by
    have starts : ∃ more, form.opening = '-' :: more := by
      rcases (content_eq_iff return_notMem_fence).1 h.opens with same | same <;> exact ⟨_, same⟩
    obtain ⟨more, dash⟩ := starts
    rw [text, lined_append, lined_cons, lined_bare bare, List.append_assoc, List.append_assoc,
      List.dropWhile_append_of_pos, dash]
    · rw [List.append_assoc, List.cons_append, List.dropWhile_cons_of_neg (by decide)]
      simp
    · intro c mem
      simp [List.eq_of_mem_replicate mem]
  obtain ⟨trailer, closing, kind⟩ : ∃ trailer, form.closing = fence ++ trailer ∧ (trailer = [] ∨ trailer = ['\r']) := by
    rcases (content_eq_iff return_notMem_fence).1 h.closes with same | same
    · exact ⟨[], by rw [same, List.append_nil], .inl rfl⟩
    · exact ⟨['\r'], same, .inr rfl⟩
  have found : find "\n---".toList (lined form.headers ++ form.closing ++ form.after) =
      some (first.length + (lined others).length) := by
    rw [whole, closing, ← List.append_assoc, List.append_assoc (lined _ ++ fence)]
    exact find_mark feed_notMem_fence plain inner _
  have length : (lined form.headers).length = first.length + (lined others).length + 1 := by
    rw [whole, lined_cons, List.length_append, List.length_cons]
    omega
  have front : (lined form.headers ++ form.closing ++ form.after).take (first.length + (lined others).length) =
      (lined form.headers).dropLast := by
    rw [List.append_assoc, List.take_append_of_le_length (by omega), List.dropLast_eq_take, length, Nat.add_sub_cancel]
  have behind : (lined form.headers ++ form.closing ++ form.after).drop (first.length + (lined others).length + 4) =
      trailer ++ form.after := by
    have past : first.length + (lined others).length + 4 = (lined form.headers ++ fence).length := by
      rw [List.length_append, length]
      rfl
    rw [closing, past, ← List.append_assoc, List.append_assoc, List.drop_left]
  have stop : (trailer ++ form.after).takeWhile (· ≠ '\n') = trailer ∧
      (trailer ++ form.after).dropWhile (· ≠ '\n') = form.after := by
    rw [after]
    rcases kind with rfl | rfl <;> cases form.rest <;> exact ⟨rfl, rfl⟩
  unfold Loader.splitFences
  dsimp only
  rw [trimmed, opened h.opens]
  dsimp only
  rw [found]
  dsimp only
  have kept : ¬ (trailer ≠ [] ∧ trailer ≠ ['\r']) := fun both => kind.elim both.1 both.2
  rw [behind, stop.1, stop.2, if_neg kept, front, after, body]
  cases form.rest <;> rfl

theorem exists_opening {start more : Text}
    (h : (stripPrefix "---\n".toList start).or (stripPrefix "---\r\n".toList start) = some more) :
    ∃ opening, content opening = fence ∧ start = opening ++ '\n' :: more := by
  rcases Option.or_eq_some_iff.1 h with feed | ⟨-, returned⟩
  · exact ⟨fence, by decide, (stripPrefix_eq_some.1 feed).trans rfl⟩
  · exact ⟨fence ++ ['\r'], content_concat _, (stripPrefix_eq_some.1 returned).trans rfl⟩

theorem exists_rest (behind : Text) : ∃ rest : Option Text,
    behind = behind.takeWhile (· ≠ '\n') ++ (rest.map ('\n' :: ·)).getD [] := by
  have split := List.takeWhile_append_dropWhile (p := (· ≠ '\n')) (l := behind)
  cases later : behind.dropWhile (· ≠ '\n') with
  | nil =>
    rw [later] at split
    exact ⟨none, split.symm⟩
  | cons c body =>
    have stop : decide (c ≠ '\n') = false := Trim.head?_dropWhile behind c (by rw [later]; rfl)
    have feed : c = '\n' := by simpa using stop
    rw [later, feed] at split
    exact ⟨some body, split.symm⟩

/-- What the parser splits is a text of the form. -/
theorem exists_of_splitFences (h : Loader.splitFences path text = .ok (front, body)) :
    ∃ form : Form, form.Shaped ∧ form.Bare ∧ form.text = text := by
  unfold Loader.splitFences at h
  dsimp only at h
  cases opened : (stripPrefix "---\n".toList (text.dropWhile (· = '\n'))).or
      (stripPrefix "---\r\n".toList (text.dropWhile (· = '\n'))) with
  | none =>
    rw [opened] at h
    cases h
  | some afterOpen =>
    rw [opened] at h
    dsimp only at h
    cases found : find "\n---".toList afterOpen with
    | none =>
      rw [found] at h
      cases h
    | some offset =>
      rw [found] at h
      dsimp only at h
      have mark : find ('\n' :: fence) afterOpen = some offset := found
      obtain ⟨first, others, behind, rfl, plain, unmarked, length⟩ := exists_of_find mark
      have past : offset + 4 = (lined (first :: others) ++ fence).length := by
        rw [List.length_append, ← length]
        rfl
      rw [past, List.drop_left] at h
      split_ifs at h with trailing
      have trailer : behind.takeWhile (· ≠ '\n') = [] ∨ behind.takeWhile (· ≠ '\n') = ['\r'] := by
        by_contra neither
        exact trailing (not_or.1 neither)
      obtain ⟨opening, opens, whole⟩ := exists_opening opened
      obtain ⟨rest, parted⟩ := exists_rest behind
      refine ⟨⟨List.replicate (text.takeWhile (· = '\n')).length [], opening, first :: others,
        fence ++ behind.takeWhile (· ≠ '\n'), rest⟩, ⟨?_, ?_, opens, List.cons_ne_nil _ _, ?_, ?_⟩, ?_, ?_⟩
      · have closing : '\n' ∉ fence ++ behind.takeWhile (· ≠ '\n') := by
          rcases trailer with none | one
          · rw [none]
            decide
          · rw [one]
            decide
        have opening_plain : '\n' ∉ opening := by
          rcases (content_eq_iff return_notMem_fence).1 opens with rfl | rfl <;> decide
        refine List.forall_mem_append.2 ⟨List.forall_mem_append.2 ⟨fun raw mem => ?_, ?_⟩, List.forall_mem_singleton.2 closing⟩
        · rw [List.eq_of_mem_replicate mem]
          exact List.not_mem_nil
        · exact List.forall_mem_cons.2 ⟨opening_plain, List.forall_mem_cons.2 ⟨plain, fun raw mem => (unmarked raw mem).1⟩⟩
      · intro raw mem
        rw [List.eq_of_mem_replicate mem, content_nil]
      · intro raw mem
        rw [starts_content_iff return_notMem_fence]
        exact (unmarked raw mem).2
      · rcases trailer with none | one
        · rw [none]
          exact content_of_plain return_notMem_fence
        · rw [one]
          exact content_concat fence
      · intro raw mem
        exact List.eq_of_mem_replicate mem
      · have feeds : List.replicate (text.takeWhile (· = '\n')).length '\n' = text.takeWhile (· = '\n') := by
          refine (List.eq_replicate_of_mem fun c mem => ?_).symm
          simpa using List.mem_takeWhile_imp mem
        rw [Form.text, after, ← List.append_assoc, List.append_assoc _ _ (Option.getD _ _), ← parted, lined_append, lined_cons,
          lined_bare fun raw => List.eq_of_mem_replicate, List.length_replicate, feeds]
        conv_rhs => rw [← List.takeWhile_append_dropWhile (p := (· = '\n')) (l := text), whole]
        simp only [List.append_assoc, List.cons_append]

theorem parseStr_ok {skill : Skill} : parseStr path text = .ok skill ↔ ∃ front body read,
    Loader.splitFences path text = .ok (front, body) ∧ (Str.lines front).foldlM (readLine path) .unread = .ok read ∧
      read.name = some skill.name ∧ read.description = some skill.description ∧ skill.requires = read.requires ∧
        skill.body = body ∧ skill.extra = read.extra := by
  rw [parseStr, Results.bind_eq_ok]
  constructor
  · rintro ⟨⟨front, body⟩, split, parsed⟩
    obtain ⟨read, lines, made⟩ := Results.bind_eq_ok.1 parsed
    refine ⟨front, body, read, split, lines, ?_⟩
    cases name : read.name with
    | none =>
      rw [name] at made
      cases made
    | some given =>
      cases description : read.description with
      | none =>
        rw [name, description] at made
        cases made
      | some text =>
        rw [name, description] at made
        cases made
        exact ⟨rfl, rfl, rfl, rfl, rfl⟩
  · rintro ⟨front, body, read, split, lines, name, description, requires, rfl, extra⟩
    refine ⟨(front, skill.body), split, Results.bind_eq_ok.2 ⟨read, lines, ?_⟩⟩
    rw [name, description, ← requires, ← extra]

/-- A text of the form whose empty lines are bare is a skill with what is read of its header lines and its body. -/
theorem Shaped.parseStr_ok (h : form.Shaped) (bare : form.Bare) {skill : Skill} :
    parseStr path form.text = .ok skill ↔ ∃ read,
      (form.headers.map content).foldlM (readLine path) .unread = .ok read ∧ read.name = some skill.name ∧
        read.description = some skill.description ∧ skill.requires = read.requires ∧ skill.body = form.body ∧
          skill.extra = read.extra := by
  have plain : ∀ raw ∈ form.headers, '\n' ∉ raw := by
    intro raw mem
    exact h.lines raw (by simp [mem])
  simp only [Form.parseStr_ok, h.splitFences bare, Except.ok.injEq, Prod.mk.injEq]
  constructor
  · rintro ⟨front, body, read, ⟨rfl, rfl⟩, lines, rest⟩
    exact ⟨read, (readLines_lined plain h.filled).1 lines, rest⟩
  · rintro ⟨read, lines, rest⟩
    exact ⟨_, _, read, ⟨rfl, rfl⟩, (readLines_lined plain h.filled).2 lines, rest⟩

theorem Shaped.accepted_iff (h : form.Shaped) (bare : form.Bare) (path : Path) :
    (∃ skill, parseStr path form.text = .ok skill) ↔ Headers (form.headers.map content) := by
  rw [← headers_iff path]
  simp only [h.parseStr_ok bare]
  constructor
  · rintro ⟨skill, read, lines, name, description, -⟩
    exact ⟨read, lines, by rw [name]; rfl, by rw [description]; rfl⟩
  · rintro ⟨read, lines, some, some'⟩
    obtain ⟨name, named⟩ := Option.isSome_iff_exists.1 some
    obtain ⟨description, described⟩ := Option.isSome_iff_exists.1 some'
    exact ⟨⟨name, description, read.requires, form.body, read.extra⟩, read, lines, named, described, rfl, rfl, rfl⟩

/-- Whatever is accepted is of the form, with bare empty lines. -/
theorem exists_of_accepted {skill : Skill} (h : parseStr path text = .ok skill) :
    ∃ form : Form, form.Shaped ∧ form.Bare ∧ Headers (form.headers.map content) ∧ form.text = text ∧
      form.body = skill.body := by
  obtain ⟨front, body, -, split, -⟩ := Form.parseStr_ok.1 h
  obtain ⟨form, shaped, bare, rfl⟩ := exists_of_splitFences split
  refine ⟨form, shaped, bare, (shaped.accepted_iff bare path).1 ⟨skill, h⟩, rfl, ?_⟩
  obtain ⟨read, -, -, -, -, same, -⟩ := (shaped.parseStr_ok bare).1 h
  exact same.symm

/-! ## Carriage returns -/

/-- The same lines with carriage returns. -/
def returned (form : Form) : Form where
  empties := form.empties.map (· ++ ['\r'])
  opening := form.opening ++ ['\r']
  headers := form.headers.map (· ++ ['\r'])
  closing := if form.rest.isSome then form.closing ++ ['\r'] else form.closing
  rest := form.rest.map crlf

theorem Shaped.crlf_text (h : form.Shaped) : crlf form.text = form.returned.text := by
  obtain ⟨front, last⟩ := List.forall_mem_append.1 h.lines
  have closing : '\n' ∉ form.closing := last _ (List.mem_singleton_self _)
  rw [text, crlf_append, crlf_append, crlf_lined front, crlf_of_plain closing, text, after, after, returned,
    List.map_append, List.map_cons]
  cases form.rest with
  | none => rfl
  | some body =>
    dsimp only [Option.isSome_some, if_true, Option.map_some, Option.getD_some]
    rw [crlf_feed]
    simp

theorem plain_of_text {raw : Text} (plain : '\r' ∉ form.text)
    (mem : raw ∈ form.empties ++ form.opening :: form.headers ++ [form.closing]) : '\r' ∉ raw := by
  intro inside
  refine plain ?_
  rw [text, List.append_assoc]
  rcases List.mem_append.1 mem with front | last
  · exact List.mem_append_left _ (List.mem_flatMap.2 ⟨raw, front, List.mem_append_left _ inside⟩)
  · rw [List.mem_singleton.1 last] at inside
    exact List.mem_append_right _ (List.mem_append_left _ inside)

/-- A text with bare empty lines begins with one of their line feeds, or with its fence. -/
theorem Shaped.head?_text (h : form.Shaped) (bare : form.Bare) :
    form.text.head? = if form.empties = [] then some '-' else some '\n' := by
  cases empties : form.empties with
  | nil =>
    rw [if_pos rfl, text, empties, List.nil_append, lined_cons]
    rcases (content_eq_iff return_notMem_fence).1 h.opens with same | same <;> rw [same] <;> rfl
  | cons raw more =>
    have blank : raw = [] := bare raw (by simp [empties])
    rw [if_neg (List.cons_ne_nil _ _), text, empties, blank]
    rfl

theorem headers_returned (plain : '\r' ∉ form.text) : form.returned.headers.map content = form.headers.map content := by
  rw [returned, List.map_map]
  refine List.map_congr_left fun raw mem => ?_
  rw [Function.comp_apply, content_concat, content_of_plain (plain_of_text plain (by simp [mem]))]

theorem Shaped.returned (h : form.Shaped) (none : form.empties = []) (plain : '\r' ∉ form.text) : form.returned.Shaped := by
  have line (raw : Text) (mem : raw ∈ form.empties ++ form.opening :: form.headers ++ [form.closing]) :
      content raw = raw := content_of_plain (plain_of_text plain mem)
  have fed (raw : Text) (mem : raw ∈ form.empties ++ form.opening :: form.headers ++ [form.closing]) :
      '\n' ∉ raw ++ ['\r'] := by simpa using h.lines raw mem
  have closing : '\n' ∉ form.returned.closing := by
    rw [Form.returned]
    dsimp only
    split_ifs
    · exact fed _ (by simp)
    · exact h.lines _ (by simp)
  constructor
  · rw [List.forall_mem_append, List.forall_mem_append, List.forall_mem_cons]
    refine ⟨⟨?_, fed _ (by simp), ?_⟩, List.forall_mem_singleton.2 closing⟩
    · rw [Form.returned, none]
      exact List.forall_mem_nil _
    · rw [Form.returned, List.forall_mem_map]
      exact fun raw mem => fed raw (by simp [mem])
  · rw [Form.returned, none]
    exact List.forall_mem_nil _
  · rw [Form.returned, content_concat, ← line form.opening (by simp), h.opens]
  · exact fun empty => h.filled (List.map_eq_nil_iff.1 empty)
  · rw [Form.returned, ← List.map_tail, List.forall_mem_map]
    intro raw mem
    rw [content_concat, ← line raw (by simp [List.mem_of_mem_tail mem])]
    exact h.inner raw mem
  · rw [Form.returned]
    dsimp only
    split_ifs
    · rw [content_concat, ← line form.closing (by simp), h.closes]
    · exact h.closes

end Form

/-! ## The form and the parser -/

/-- The parser takes exactly the texts of the form, returns what stands behind the closing line, and takes a text
without carriage returns with one before each line feed as well, with the same fields. -/
structure Conforms (path : Path) (text : Text) : Prop where
  accepted : (∃ skill, parseStr path text = .ok skill) ↔ ∃ form : Form, form.Proper ∧ form.text = text
  body : ∀ skill, parseStr path text = .ok skill → ∃ form : Form, form.Proper ∧ form.text = text ∧ skill.body = form.body
  returned : ∀ skill, parseStr path text = .ok skill → '\r' ∉ text → ∃ skill', parseStr path (crlf text) = .ok skill' ∧
    skill'.name = skill.name ∧ skill'.description = skill.description ∧ skill'.requires = skill.requires ∧
      skill'.extra = skill.extra

/-- A text with its fences and header lines, and either a first header line or a closing line that is odd behind bare
empty lines, or neither and an empty line with a carriage return or empty lines in a text that has none. -/
def Slips (text : Text) : Prop :=
  ∃ form : Form, form.Shaped ∧ Headers (form.headers.map content) ∧ form.text = text ∧
    (form.Odd ∧ form.Bare ∨ ¬ form.Odd ∧ (¬ form.Bare ∨ form.empties ≠ [] ∧ '\r' ∉ text))

theorem Conforms.not_slips {path : Path} {text : Text} (h : Conforms path text) : ¬ Slips text := by
  rintro ⟨form, shaped, headers, rfl, ⟨odd, bare⟩ | ⟨plain, returns | ⟨empties, none⟩⟩⟩
  · obtain ⟨other, proper, same⟩ := h.accepted.1 ((shaped.accepted_iff bare path).2 headers)
    obtain ⟨shaped', -, plain⟩ := Form.proper_iff.1 proper
    exact plain (shaped.odd_of_same shaped' same.symm odd)
  · obtain ⟨skill, accepted⟩ := h.accepted.2 ⟨form, Form.proper_iff.2 ⟨shaped, headers, plain⟩, rfl⟩
    obtain ⟨other, shaped', bare, -, same, -⟩ := Form.exists_of_accepted accepted
    exact returns (by rw [Form.Bare, (shaped.unique shaped' same.symm).1]; exact bare)
  · by_cases bare : form.Bare
    · obtain ⟨skill, accepted⟩ := (shaped.accepted_iff bare path).2 headers
      obtain ⟨skill', accepted', -⟩ := h.returned skill accepted none
      obtain ⟨other, shaped', bare', -, same, -⟩ := Form.exists_of_accepted accepted'
      have first : (crlf form.text).head? = some '\r' := by
        obtain ⟨rest, begins⟩ : ∃ rest, form.text = '\n' :: rest :=
          List.head?_eq_some_iff.1 ((shaped.head?_text bare).trans (if_neg empties))
        rw [begins, crlf_feed]
        rfl
      rw [← same, shaped'.head?_text bare'] at first
      split_ifs at first <;> exact absurd first (by decide)
    · obtain ⟨skill, accepted⟩ := h.accepted.2 ⟨form, Form.proper_iff.2 ⟨shaped, headers, plain⟩, rfl⟩
      obtain ⟨other, shaped', bare', -, same, -⟩ := Form.exists_of_accepted accepted
      exact bare (by rw [Form.Bare, (shaped.unique shaped' same.symm).1]; exact bare')

theorem conforms_of_not_slips {path : Path} {text : Text} (h : ¬ Slips text) : Conforms path text := by
  have proper {form : Form} (shaped : form.Shaped) (bare : form.Bare) (headers : Headers (form.headers.map content))
      (same : form.text = text) : form.Proper := by
    refine Form.proper_iff.2 ⟨shaped, headers, fun odd => h ⟨form, shaped, headers, same, .inl ⟨odd, bare⟩⟩⟩
  constructor
  · constructor
    · rintro ⟨skill, accepted⟩
      obtain ⟨form, shaped, bare, headers, same, -⟩ := Form.exists_of_accepted accepted
      exact ⟨form, proper shaped bare headers same, same⟩
    · rintro ⟨form, formed, rfl⟩
      obtain ⟨shaped, headers, plain⟩ := Form.proper_iff.1 formed
      have bare : form.Bare := by
        by_contra returns
        exact h ⟨form, shaped, headers, rfl, .inr ⟨plain, .inl returns⟩⟩
      exact (shaped.accepted_iff bare path).2 headers
  · intro skill accepted
    obtain ⟨form, shaped, bare, headers, same, body⟩ := Form.exists_of_accepted accepted
    exact ⟨form, proper shaped bare headers same, same, body.symm⟩
  · intro skill accepted none
    obtain ⟨form, shaped, bare, headers, rfl, -⟩ := Form.exists_of_accepted accepted
    have plain := (Form.proper_iff.1 (proper shaped bare headers rfl)).2.2
    have empties : form.empties = [] := by
      by_contra some
      exact h ⟨form, shaped, headers, rfl, .inr ⟨plain, .inr ⟨some, none⟩⟩⟩
    have shaped' := shaped.returned empties none
    have bare' : form.returned.Bare := by
      rw [Form.Bare, Form.returned, empties]
      exact List.forall_mem_nil _
    obtain ⟨read, lines, name, description, requires, -, extra⟩ := (shaped.parseStr_ok bare).1 accepted
    refine ⟨{ skill with body := form.returned.body }, ?_, rfl, rfl, rfl, rfl⟩
    rw [shaped.crlf_text, shaped'.parseStr_ok bare', Form.headers_returned none]
    exact ⟨read, lines, name, description, requires, rfl, extra⟩

/-- The parser is true to the form on exactly the texts that are not of one of these kinds. -/
theorem conforms_iff (path : Path) (text : Text) : Conforms path text ↔ ¬ Slips text :=
  ⟨Conforms.not_slips, conforms_of_not_slips⟩

/-- An empty line stands before the opening fence. -/
def lowered : Text := "\n---\nname: a\ndescription: d\n---\nbody".toList

/-- It is taken as it stands, and refused with a carriage return before each line feed. -/
theorem not_conforms_lowered : ¬ Conforms ["SKILL.md".toList] lowered := by
  intro h
  have accepted : (parseStr ["SKILL.md".toList] lowered).toOption.isSome = true := by decide +kernel
  have refused : (parseStr ["SKILL.md".toList] (crlf lowered)).toOption.isSome = false := by decide +kernel
  cases first : parseStr ["SKILL.md".toList] lowered with
  | error error =>
    rw [first] at accepted
    cases accepted
  | ok skill =>
    obtain ⟨skill', same, -⟩ := h.returned skill first (by decide)
    rw [same] at refused
    cases refused

end SupraHarness.Loader
