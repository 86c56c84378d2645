import Mathlib.Data.List.Destutter
import SupraHarness.Digest.Imports
import SupraHarness.Lib.Trim

/-!
# Use declarations

What the import targets of a Rust text have to do with its use declarations. The text is cut at the
semicolons, and a piece gives a target only if a path comes first in it; so a declaration is seen when
nothing but white space stands between it and the semicolon before.
-/
namespace SupraHarness.Digest

open Str Scan

abbrev Blank : Text → Prop := Trim.Blank isWhitespace
abbrev Trimmed : Text → Prop := Trim.Trimmed isWhitespace

def repeated (n : Nat) (word : Text) : Text := (List.replicate n word).flatten

/-! ## What is read off a piece -/

/-- What may follow a path: nothing, a group or a rename. -/
inductive Ends : Text → Prop
  | nothing {gap : Text} (blank : Blank gap) : Ends gap
  | group {gap : Text} (blank : Blank gap) (rest : Text) : Ends (gap ++ ("::\x7b".toList ++ rest))
  | rename {gap rest : Text} (blank : Blank gap) (more : ¬ Blank rest) : Ends (gap ++ (" as ".toList ++ rest))

/-- The path comes first in the piece: before it is white space and the words of a declaration. -/
def Reads (path piece : Text) : Prop :=
  ∃ front pubs uses gap rest, Blank front ∧ Blank gap ∧ Ends rest ∧
    piece = front ++ (repeated pubs "pub ".toList ++ (repeated uses "use ".toList ++ (gap ++ (path ++ rest))))

/-- A text that can be a path. -/
structure Clean (path : Text) : Prop where
  nonempty : path ≠ []
  plain : ∀ c ∈ path, isWhitespace c = false ∧ c ∉ [';', '{', '/']
  free : path ≠ "pub".toList ∧ path ≠ "use".toList
  last : path.getLast? ≠ some ':'

theorem trimStartMatches_repeated {word rest : Text} (h : ¬ word <+: rest) (n : Nat) {fuel : Nat}
    (enough : n ≤ fuel) : trimStartMatches word fuel (repeated n word ++ rest) = rest := by
  induction n generalizing fuel with
  | zero =>
    cases fuel with
    | zero => rfl
    | succ fuel =>
      have hnone : stripPrefix word rest = none := by
        cases hs : stripPrefix word rest with
        | none => rfl
        | some more => exact absurd ⟨more, (stripPrefix_eq_some.mp hs).symm⟩ h
      have front : repeated 0 word ++ rest = rest := rfl
      rw [front, trimStartMatches, hnone]
  | succ n ih =>
    cases fuel with
    | zero => omega
    | succ fuel =>
      have hsome : stripPrefix word (repeated (n + 1) word ++ rest) = some (repeated n word ++ rest) := by
        rw [stripPrefix_eq_some, repeated, List.replicate_succ, List.flatten_cons, List.append_assoc]
        rfl
      rw [trimStartMatches, hsome]
      exact ih (by omega)

theorem exists_repeated (word : Text) (hword : word ≠ []) (fuel : Nat) (text : Text)
    (enough : text.length ≤ fuel) :
    ∃ n, text = repeated n word ++ trimStartMatches word fuel text := by
  induction fuel generalizing text with
  | zero => exact ⟨0, rfl⟩
  | succ fuel ih =>
    rw [trimStartMatches]
    cases hs : stripPrefix word text with
    | none => exact ⟨0, rfl⟩
    | some more =>
      have htext := stripPrefix_eq_some.mp hs
      have hlength : 0 < word.length := List.length_pos_of_ne_nil hword
      have hmore : more.length ≤ fuel := by
        have := congrArg List.length htext
        rw [List.length_append] at this
        omega
      obtain ⟨n, hn⟩ := ih more hmore
      refine ⟨n + 1, ?_⟩
      rw [repeated, List.replicate_succ, List.flatten_cons, List.append_assoc]
      exact htext.trans (congrArg (word ++ ·) hn)

theorem find_skip {pattern front rest : Text}
    (h : ∀ before after, front = before ++ after → after ≠ [] → ¬ pattern <+: after ++ rest) :
    find pattern (front ++ rest) = (find pattern rest).map (front.length + ·) := by
  induction front with
  | nil => simp
  | cons c front ih =>
    have hhere : pattern.isPrefixOf (c :: front ++ rest) = false := by
      rw [Bool.eq_false_iff, Ne, List.isPrefixOf_iff_prefix]
      exact h [] (c :: front) rfl (List.cons_ne_nil _ _)
    have hrest := ih fun before after heq => h (c :: before) after (congrArg (c :: ·) heq)
    rw [List.cons_append] at hhere ⊢
    rw [find, hhere, hrest]
    cases find pattern rest with
    | none => rfl
    | some i => simp [Nat.add_assoc, Nat.add_comm]

theorem upTo_skip {pattern front rest : Text}
    (h : ∀ before after, front = before ++ after → after ≠ [] → ¬ pattern <+: after ++ rest) :
    upTo pattern (front ++ rest) = front ++ upTo pattern rest := by
  rw [upTo, upTo, find_skip h]
  cases find pattern rest with
  | none => exact (List.take_length).trans (congrArg (front ++ ·) List.take_length.symm)
  | some i =>
    rw [Option.map_some, Option.getD_some, Option.getD_some, List.take_append,
      List.take_of_length_le (Nat.le_add_right _ _), Nat.add_sub_cancel_left]

theorem upTo_starts (pattern rest : Text) : upTo pattern (pattern ++ rest) = [] := by
  rw [upTo, find_of_starts (List.prefix_append _ _)]
  rfl

theorem upTo_cases (pattern text : Text) :
    upTo pattern text = text ∨ ∃ rest, text = upTo pattern text ++ (pattern ++ rest) := by
  rw [upTo]
  cases hf : find pattern text with
  | none => exact .inl (List.take_length)
  | some i =>
    obtain ⟨rest, heq⟩ := find_starts hf
    refine .inr ⟨rest, ?_⟩
    rw [heq]
    exact (List.take_append_drop i text).symm

/-- The text before groups and renames, which is taken for the path. -/
def base (text : Text) : Text := trim (upTo " as ".toList (upTo "::\x7b".toList text))

theorem exists_base (text : Text) :
    upTo " as ".toList (upTo "::\x7b".toList text) = text ∨
      (∃ rest, text = upTo " as ".toList (upTo "::\x7b".toList text) ++ ("::\x7b".toList ++ rest)) ∨
      ∃ rest, text = upTo " as ".toList (upTo "::\x7b".toList text) ++ (" as ".toList ++ rest) := by
  rcases upTo_cases "::\x7b".toList text with hgroup | ⟨more, hgroup⟩
  · rw [hgroup]
    rcases upTo_cases " as ".toList text with has | ⟨rest, has⟩
    · exact .inl has
    · exact .inr (.inr ⟨rest, has⟩)
  · rcases upTo_cases " as ".toList (upTo "::\x7b".toList text) with has | ⟨rest, has⟩
    · exact .inr (.inl ⟨more, by rw [has]; exact hgroup⟩)
    · refine .inr (.inr ⟨rest ++ ("::\x7b".toList ++ more), ?_⟩)
      calc text = upTo "::\x7b".toList text ++ ("::\x7b".toList ++ more) := hgroup
        _ = _ := by
          nth_rewrite 1 [has]
          rw [List.append_assoc, List.append_assoc]

/-- A rename does not begin in a path or in the white space behind it. -/
theorem upTo_as {path gap : Text} (hpath : ∀ c ∈ path, isWhitespace c = false) (hgap : Blank gap)
    (rest : Text) (hrest : rest.head? ≠ some 'a') :
    upTo " as ".toList (path ++ gap ++ rest) = path ++ gap ++ upTo " as ".toList rest := by
  apply upTo_skip
  intro before after heq hne hpre
  obtain ⟨more, hmore⟩ := hpre
  cases after with
  | nil => exact hne rfl
  | cons c after =>
    change ' ' :: 'a' :: ('s' :: ' ' :: more) = c :: (after ++ rest) at hmore
    obtain ⟨hc, htail⟩ := List.cons.inj hmore
    subst hc
    have hin : ∀ d ∈ after, isWhitespace d = true := by
      intro d hd
      rcases List.append_eq_append_iff.mp heq with ⟨x, rfl, hgap'⟩ | ⟨x, rfl, hgap'⟩
      · exact hgap d (by rw [hgap']; exact List.mem_append_right _ (List.mem_cons_of_mem _ hd))
      · cases x with
        | nil => exact hgap d (by rw [← List.nil_append gap, ← hgap']; exact List.mem_cons_of_mem _ hd)
        | cons y x =>
          obtain ⟨hy, -⟩ := List.cons.inj hgap'
          subst hy
          exact absurd (hpath ' ' (List.mem_append_right _ (List.mem_cons_self ..))) (by decide)
    cases after with
    | nil =>
      apply hrest
      have := congrArg List.head? htail
      simpa using this.symm
    | cons d after =>
      obtain ⟨hd, -⟩ := List.cons.inj htail
      exact absurd (hin d (List.mem_cons_self ..)) (by rw [← hd]; decide)

theorem upTo_group {front : Text} (hfront : '\x7b' ∉ front) (hlast : front.getLast? ≠ some ':')
    (rest : Text) : upTo "::\x7b".toList (front ++ rest) = front ++ upTo "::\x7b".toList rest := by
  apply upTo_skip
  rintro before after rfl hne ⟨more, hmore⟩
  change ':' :: ':' :: '\x7b' :: more = after ++ rest at hmore
  rw [List.getLast?_append_of_ne_nil _ hne] at hlast
  match after with
  | [] => exact hne rfl
  | [c] =>
    obtain ⟨rfl, -⟩ := List.cons.inj hmore
    exact hlast rfl
  | [c, d] =>
    obtain ⟨-, htail⟩ := List.cons.inj hmore
    obtain ⟨rfl, -⟩ := List.cons.inj htail
    exact hlast rfl
  | c :: d :: e :: after =>
    obtain ⟨-, htail⟩ := List.cons.inj hmore
    obtain ⟨-, htail⟩ := List.cons.inj htail
    obtain ⟨rfl, -⟩ := List.cons.inj htail
    exact hfront (List.mem_append_right _ (by simp))

theorem trim_append {front core back : Text} (hfront : Blank front) (hcore : Trimmed core) (hback : Blank back) :
    trim (front ++ core ++ back) = core := Trim.trim_append hfront hcore hback

theorem blank_nil : Blank [] := fun _ h => absurd h List.not_mem_nil

namespace Clean

variable {path : Text} (clean : Clean path)
include clean

theorem white {c : Char} (h : c ∈ path) : isWhitespace c = false := (clean.plain c h).1

theorem trimmed : Trimmed path :=
  ⟨fun c h => clean.white (List.mem_of_head? h), fun c h => clean.white (List.mem_of_getLast? h)⟩

theorem trimmed_append {core : Text} (hcore : ∀ c ∈ core.getLast?, isWhitespace c = false) :
    Trimmed (path ++ core) := by
  constructor
  · intro c h
    rw [List.head?_append_of_ne_nil _ clean.nonempty] at h
    exact clean.trimmed.head c h
  · intro c h
    rw [List.getLast?_append] at h
    cases hlast : core.getLast? with
    | none => rw [hlast] at h; exact clean.trimmed.last c h
    | some d => rw [hlast] at h; exact hcore c (by rw [hlast]; exact h)

theorem getLast?_gap {gap : Text} (hgap : Blank gap) : (path ++ gap).getLast? ≠ some ':' := by
  rw [List.getLast?_append]
  cases hlast : gap.getLast? with
  | none => exact clean.last
  | some c =>
    intro h
    have hc := hgap c (List.mem_of_getLast? hlast)
    rw [Option.some_or, Option.some_inj] at h
    rw [h] at hc
    exact absurd hc (by decide)

theorem brace_notMem {gap : Text} (hgap : Blank gap) : '\x7b' ∉ path ++ gap := by
  intro h
  rcases List.mem_append.mp h with h | h
  · exact (clean.plain _ h).2 (by simp)
  · exact absurd (hgap _ h) (by decide)

theorem trim_gap {gap : Text} (hgap : Blank gap) : trim (path ++ gap) = path :=
  trim_append blank_nil clean.trimmed hgap

theorem base_nothing : base path = path := by
  have hgroup := upTo_group (clean.brace_notMem blank_nil) (clean.getLast?_gap blank_nil) []
  have has := upTo_as (fun c => clean.white) blank_nil [] nofun
  have htrim := clean.trim_gap blank_nil
  simp only [List.append_nil] at hgroup has htrim
  rw [base, hgroup]
  change trim (upTo " as ".toList (path ++ [])) = path
  rw [List.append_nil, has]
  change trim (path ++ []) = path
  rw [List.append_nil, htrim]

theorem base_group {gap : Text} (hgap : Blank gap) (rest : Text) :
    base (path ++ (gap ++ ("::\x7b".toList ++ rest))) = path := by
  rw [base, ← List.append_assoc, upTo_group (clean.brace_notMem hgap) (clean.getLast?_gap hgap), upTo_starts,
    upTo_as (fun c => clean.white) hgap [] nofun]
  change trim (path ++ gap ++ []) = path
  rw [List.append_nil, clean.trim_gap hgap]

theorem base_rename {gap : Text} (hgap : Blank gap) (rest : Text) :
    base (path ++ (gap ++ (" as ".toList ++ rest))) = path := by
  have hbrace : '\x7b' ∉ path ++ gap ++ " as ".toList := by
    intro h
    rcases List.mem_append.mp h with h | h
    · exact clean.brace_notMem hgap h
    · exact absurd h (by decide)
  have hlast : (path ++ gap ++ " as ".toList).getLast? ≠ some ':' := by
    rw [List.getLast?_append_of_ne_nil _ (by decide)]
    decide
  rw [base, ← List.append_assoc, ← List.append_assoc, upTo_group hbrace hlast, List.append_assoc,
    upTo_as (fun c => clean.white) hgap _ (by change some ' ' ≠ some 'a'; decide), upTo_starts, List.append_nil, clean.trim_gap hgap]

/-- What follows a path, less the white space at its end. -/
theorem exists_core {rest : Text} (ends : Ends rest) :
    ∃ core back, rest = core ++ back ∧ Blank back ∧ Trimmed (path ++ core) ∧ base (path ++ core) = path ∧
      ∀ c ∈ core.head?, isWhitespace c = true ∨ c = ':' := by
  have hhead : ∀ {gap : Text} (d : Char) (tail : Text), Blank gap → isWhitespace d = true ∨ d = ':' →
      ∀ c ∈ (gap ++ d :: tail).head?, isWhitespace c = true ∨ c = ':' := by
    intro gap d tail hgap hd c hc
    cases gap with
    | nil => cases hc; exact hd
    | cons e gap => cases hc; exact .inl (hgap _ (List.mem_cons_self ..))
  cases ends with
  | nothing hgap =>
    refine ⟨[], rest, rfl, hgap, ?_, ?_, nofun⟩
    · rw [List.append_nil]
      exact clean.trimmed
    · rw [List.append_nil]
      exact clean.base_nothing
  | @group gap hgap rest =>
    obtain ⟨core, back, rfl, hback, hlast⟩ := Trim.exists_trimEnd isWhitespace rest
    refine ⟨gap ++ ("::\x7b".toList ++ core), back, by simp, hback, ?_, clean.base_group hgap core,
      hhead ':' _ hgap (.inr rfl)⟩
    apply clean.trimmed_append
    intro c hc
    rw [List.getLast?_append_of_ne_nil _ (by simp), List.getLast?_append] at hc
    cases h : core.getLast? with
    | none => rw [h] at hc; cases hc; decide
    | some d => rw [h] at hc; cases hc; exact hlast _ h
  | @rename gap rest hgap more =>
    obtain ⟨core, back, rfl, hback, hlast⟩ := Trim.exists_trimEnd isWhitespace rest
    have hcore : core ≠ [] := by
      rintro rfl
      exact more hback
    refine ⟨gap ++ (" as ".toList ++ core), back, by simp, hback, ?_, clean.base_rename hgap core,
      hhead ' ' _ hgap (.inl rfl)⟩
    apply clean.trimmed_append
    intro c hc
    rw [List.getLast?_append_of_ne_nil _ (by simp), List.getLast?_append_of_ne_nil _ hcore] at hc
    exact hlast c hc

theorem word_notPrefix (word : Text) {gap core : Text} (hword : ∀ c ∈ word, isWhitespace c = false ∧ c ≠ ':')
    (hne : word ≠ []) (hpath : path ≠ word) (hgap : Blank gap)
    (hcore : ∀ c ∈ core.head?, isWhitespace c = true ∨ c = ':') :
    ¬ word ++ [' '] <+: gap ++ (path ++ core) := by
  rintro ⟨more, hmore⟩
  cases gap with
  | cons c gap =>
    obtain ⟨w, word, rfl⟩ := List.exists_cons_of_ne_nil hne
    obtain ⟨rfl, -⟩ := List.cons.inj hmore
    have hw := (hword w (List.mem_cons_self ..)).1
    rw [hgap w (List.mem_cons_self ..)] at hw
    cases hw
  | nil =>
    rw [List.append_assoc, List.nil_append] at hmore
    rcases List.append_eq_append_iff.mp hmore with ⟨x, rfl, hx⟩ | ⟨x, rfl, hx⟩
    · cases x with
      | nil => exact hpath (List.append_nil _)
      | cons d x =>
        obtain ⟨rfl, -⟩ := List.cons.inj hx
        exact absurd (clean.white (List.mem_append_right _ (List.mem_cons_self ..))) (by decide)
    · cases x with
      | nil => exact hpath (List.append_nil _).symm
      | cons d x =>
        have hd := hword d (List.mem_append_right _ (List.mem_cons_self ..))
        rcases hcore d (by rw [hx]; rfl) with h | h
        · rw [hd.1] at h
          cases h
        · exact hd.2 h

end Clean

theorem trimmed_prepend {front core : Text} (hne : core ≠ []) (hcore : Trimmed core)
    (hhead : ∀ c ∈ (front ++ core).head?, isWhitespace c = false) : Trimmed (front ++ core) := by
  refine ⟨hhead, ?_⟩
  intro c h
  rw [List.getLast?_append_of_ne_nil _ hne] at h
  exact hcore.last c h

theorem repeated_succ (n : Nat) (word : Text) : repeated (n + 1) word = word ++ repeated n word := by
  rw [repeated, List.replicate_succ, List.flatten_cons, repeated]

theorem le_length_repeated {word : Text} (hword : word ≠ []) (n : Nat) : n ≤ (repeated n word).length := by
  induction n with
  | zero => exact Nat.zero_le _
  | succ n ih =>
    have hlength : 0 < word.length := List.length_pos_of_ne_nil hword
    rw [repeated_succ, List.length_append]
    omega

theorem trimStartMatches_words (word : Text) {rest : Text} (hword : word ≠ []) (h : ¬ word <+: rest) (n : Nat) :
    trimStartMatches word (repeated n word ++ rest).length (repeated n word ++ rest) = rest := by
  apply trimStartMatches_repeated h
  have := le_length_repeated hword n
  rw [List.length_append]
  omega

/-- White space in front of the words goes, and what is behind them stays. -/
theorem exists_trim_words {front gap core back : Text} (hfront : Blank front) (hgap : Blank gap)
    (hback : Blank back) (hne : core ≠ []) (hcore : Trimmed core) (pubs uses : Nat) :
    ∃ left, Blank left ∧
      trim (front ++ (repeated pubs "pub ".toList ++ (repeated uses "use ".toList ++ (gap ++ (core ++ back))))) =
        repeated pubs "pub ".toList ++ (repeated uses "use ".toList ++ (left ++ core)) := by
  have hwords : ∀ words : Text, words ≠ [] → (∀ c ∈ words.head?, isWhitespace c = false) →
      trim (front ++ (words ++ (gap ++ (core ++ back)))) = words ++ (gap ++ core) := by
    intro words hwords hhead
    have htrimmed : Trimmed (words ++ gap ++ core) := by
      apply trimmed_prepend hne hcore
      intro c h
      rw [List.append_assoc, List.head?_append_of_ne_nil _ hwords] at h
      exact hhead c h
    have := trim_append hfront htrimmed hback
    simpa only [List.append_assoc] using this
  cases pubs with
  | zero =>
    cases uses with
    | zero =>
      refine ⟨[], blank_nil, ?_⟩
      have := trim_append (hfront.append hgap) hcore hback
      simp only [List.append_assoc] at this
      exact this
    | succ uses =>
      refine ⟨gap, hgap, hwords (repeated (uses + 1) "use ".toList) ?_ ?_⟩
      · rw [repeated_succ]
        exact List.cons_ne_nil _ _
      · rw [repeated_succ]
        rintro c ⟨⟩
        decide
  | succ pubs =>
    refine ⟨gap, hgap, ?_⟩
    have := hwords (repeated (pubs + 1) "pub ".toList ++ repeated uses "use ".toList)
    simp only [List.append_assoc] at this
    apply this
    · rw [repeated_succ]
      exact List.cons_ne_nil _ _
    · rw [repeated_succ]
      rintro c ⟨⟩
      decide

theorem trimEndMatches_of_notMem {text : Text} (h : ';' ∉ text) : trimEndMatches [';'] text = text := by
  apply @Trim.rdropWhile_of_last _ fun c => decide (c ∈ [';'])
  intro c hc
  apply decide_eq_false
  intro hmem
  rw [List.mem_singleton.mp hmem] at hc
  exact h (List.mem_of_getLast? hc)

theorem trim_of_trimmed {text : Text} (h : Trimmed text) : trim text = text := by
  have := trim_append blank_nil h blank_nil
  rwa [List.nil_append, List.append_nil] at this

/-- A piece in which a path comes first gives that path. -/
theorem rustTargets_of_reads {path piece : Text} (clean : Clean path) (hsemi : ';' ∉ piece)
    (h : Reads path piece) : rustTargets piece = [path] := by
  obtain ⟨front, pubs, uses, gap, rest, hfront, hgap, ends, hpiece⟩ := h
  obtain ⟨core, back, rfl, hback, htrimmed, hbase, hcore⟩ := clean.exists_core ends
  have hne : path ++ core ≠ [] := fun hnil => clean.nonempty (List.append_eq_nil_iff.mp hnil).1
  rw [← List.append_assoc path] at hpiece
  obtain ⟨left, hleft, htrim⟩ := exists_trim_words hfront hgap hback hne htrimmed pubs uses
  rw [← hpiece] at htrim
  have hpub : ¬ "pub ".toList <+: repeated uses "use ".toList ++ (left ++ (path ++ core)) := by
    cases uses with
    | zero =>
      exact clean.word_notPrefix ['p', 'u', 'b'] (by decide) (by decide) clean.free.1 hleft hcore
    | succ uses =>
      rw [repeated_succ]
      rintro ⟨more, hmore⟩
      exact absurd (List.cons.inj hmore).1 (by decide)
  have huse : ¬ "use ".toList <+: left ++ (path ++ core) :=
    clean.word_notPrefix ['u', 's', 'e'] (by decide) (by decide) clean.free.2 hleft hcore
  have h1 := trimStartMatches_words "pub ".toList (by decide) hpub pubs
  have h2 := trimStartMatches_words "use ".toList (by decide) huse uses
  have h3 : trim (left ++ (path ++ core)) = path ++ core := by
    have := trim_append hleft htrimmed blank_nil
    rwa [List.append_nil] at this
  have hsemi' : ';' ∉ path ++ core := by
    intro hmem
    apply hsemi
    rw [hpiece]
    iterate 4 apply List.mem_append_right
    exact List.mem_append_left _ hmem
  have h4 : trim (trimEndMatches [';'] (path ++ core)) = path ++ core := by
    rw [trimEndMatches_of_notMem hsemi', trim_of_trimmed htrimmed]
  have hslash : ¬ (path ++ core = [] ∨ "//".toList.isPrefixOf (path ++ core) = true) := by
    rintro (hnil | hpre)
    · exact hne hnil
    · obtain ⟨c, path, rfl⟩ := List.exists_cons_of_ne_nil clean.nonempty
      obtain ⟨more, hmore⟩ := List.isPrefixOf_iff_prefix.mp hpre
      obtain ⟨rfl, -⟩ := List.cons.inj hmore
      exact (clean.plain _ (List.mem_cons_self ..)).2 (by decide)
  rw [rustTargets, htrim, h1, h2, h3, h4, if_neg hslash]
  change nonemptyTarget (base (path ++ core)) = [path]
  rw [hbase, nonemptyTarget, if_neg clean.nonempty]

/-- The text of a piece behind the words of a declaration. -/
def declared (piece : Text) : Text :=
  let part := trim piece
  let part := trimStartMatches "pub ".toList part.length part
  trim (trimStartMatches "use ".toList part.length part)

theorem exists_words (piece : Text) :
    ∃ front pubs uses gap back, Blank front ∧ Blank gap ∧ Blank back ∧ Trimmed (declared piece) ∧
      piece = front ++
        (repeated pubs "pub ".toList ++ (repeated uses "use ".toList ++ (gap ++ (declared piece ++ back)))) := by
  obtain ⟨front, back, hfront, hback, -, hpiece⟩ := Trim.exists_trim isWhitespace piece
  obtain ⟨pubs, hpubs⟩ := exists_repeated "pub ".toList (by decide) _ (trim piece) le_rfl
  obtain ⟨uses, huses⟩ := exists_repeated "use ".toList (by decide) _
    (trimStartMatches "pub ".toList (trim piece).length (trim piece)) le_rfl
  obtain ⟨gap, tail, hgap, htail, hcore, hwords⟩ := Trim.exists_trim isWhitespace
    (trimStartMatches "use ".toList (trimStartMatches "pub ".toList (trim piece).length (trim piece)).length
      (trimStartMatches "pub ".toList (trim piece).length (trim piece)))
  refine ⟨front, pubs, uses, gap, tail ++ back, hfront, hgap, htail.append hback, hcore, ?_⟩
  calc piece = front ++ trim piece ++ back := hpiece
    _ = _ := by
      rw [hpubs, huses, hwords]
      simp only [List.append_assoc]
      rfl

/-- The base of a trimmed text is at its front, and what follows it may follow a path. -/
theorem exists_ends {text : Text} (htrimmed : Trimmed text) (hne : base text ≠ []) :
    ∃ rest, text = base text ++ rest ∧ ∀ back, Blank back → Ends (rest ++ back) := by
  have hcases := exists_base text
  obtain ⟨lead, trail, hlead, htrail, -, hupTo⟩ := Trim.exists_trim isWhitespace
    (upTo " as ".toList (upTo "::\x7b".toList text))
  change _ = lead ++ base text ++ trail at hupTo
  rw [hupTo] at hcases
  have hnil : ∀ more, text = lead ++ base text ++ trail ++ more → lead = [] := by
    intro more heq
    cases lead with
    | nil => rfl
    | cons c lead =>
      have hc := hlead c (List.mem_cons_self ..)
      rw [htrimmed.head c (by rw [heq]; rfl)] at hc
      cases hc
  rcases hcases with heq | ⟨more, heq⟩ | ⟨more, heq⟩
  · obtain rfl := hnil [] (by rw [List.append_nil]; exact heq.symm)
    exact ⟨trail, heq.symm, fun back hback => .nothing (htrail.append hback)⟩
  · obtain rfl := hnil _ heq
    refine ⟨trail ++ ("::\x7b".toList ++ more), ?_, ?_⟩
    · rw [← List.append_assoc]
      exact heq
    · intro back hback
      rw [List.append_assoc, List.append_assoc]
      exact .group htrail (more ++ back)
  · obtain rfl := hnil _ heq
    refine ⟨trail ++ (" as ".toList ++ more), ?_, ?_⟩
    · rw [← List.append_assoc]
      exact heq
    · intro back hback
      rw [List.append_assoc, List.append_assoc]
      refine .rename htrail ?_
      intro hblank
      -- otherwise the rename would have been trimmed away
      have hlast : ∀ c ∈ (" as ".toList ++ more).getLast?, isWhitespace c = true := by
        intro c hc
        cases more with
        | nil => cases hc; decide
        | cons d more =>
          rw [List.getLast?_append_of_ne_nil _ (List.cons_ne_nil _ _)] at hc
          exact hblank c (List.mem_append_left _ (List.mem_of_getLast? hc))
      obtain ⟨c, hc⟩ : ∃ c, (" as ".toList ++ more).getLast? = some c := by
        rw [← Option.isSome_iff_exists, List.getLast?_isSome]
        exact List.cons_ne_nil _ _
      have hwhite := hlast c hc
      rw [htrimmed.last c (by rw [heq, List.getLast?_append, hc]; rfl)] at hwhite
      cases hwhite

/-- A path that a piece gives comes first in it. -/
theorem reads_of_mem {path piece : Text} (hsemi : ';' ∉ piece) (h : path ∈ rustTargets piece) :
    Reads path piece := by
  obtain ⟨front, pubs, uses, gap, back, hfront, hgap, hback, htrimmed, hpiece⟩ := exists_words piece
  have hrust : rustTargets piece =
      if trim (trimEndMatches [';'] (declared piece)) = [] ∨
          "//".toList.isPrefixOf (trim (trimEndMatches [';'] (declared piece))) then []
      else nonemptyTarget (base (trim (trimEndMatches [';'] (declared piece)))) := rfl
  have hsemi' : ';' ∉ declared piece := by
    intro hmem
    apply hsemi
    rw [hpiece]
    iterate 4 apply List.mem_append_right
    exact List.mem_append_left _ hmem
  rw [hrust, trimEndMatches_of_notMem hsemi', trim_of_trimmed htrimmed] at h
  generalize declared piece = text at h htrimmed hpiece
  have hpath : path = base text ∧ path ≠ [] := by
    split at h
    · cases h
    · rw [nonemptyTarget] at h
      split at h
      · cases h
      · rename_i hne
        rw [List.mem_singleton.mp h]
        exact ⟨rfl, hne⟩
  obtain ⟨hpath, hne⟩ := hpath
  subst hpath
  obtain ⟨rest, htext, hends⟩ := exists_ends htrimmed hne
  refine ⟨front, pubs, uses, gap, rest ++ back, hfront, hgap, hends back hback, ?_⟩
  rw [← List.append_assoc (base text), ← htext]
  exact hpiece

/-! ## What is read off a text -/

/-- The path comes first in one of the pieces of the text. -/
def First (path text : Text) : Prop := ∃ piece ∈ splitAt ';' text, Reads path piece

theorem mem_rustTargets {path piece : Text} (clean : Clean path) (hsemi : ';' ∉ piece) :
    path ∈ rustTargets piece ↔ Reads path piece := by
  constructor
  · exact reads_of_mem hsemi
  · intro h
    rw [rustTargets_of_reads clean hsemi h]
    exact List.mem_singleton_self path

theorem notMem_of_mem_splitAt {separator : Char} {text piece : Text} (h : piece ∈ splitAt separator text) :
    separator ∉ piece := by
  induction text generalizing piece with
  | nil => simp [splitAt] at h; simp [h]
  | cons c text ih =>
    rw [splitAt] at h
    by_cases hc : c = separator
    · rw [if_pos hc] at h
      rcases List.mem_cons.mp h with rfl | h
      · exact List.not_mem_nil
      · exact ih h
    · rw [if_neg hc] at h
      cases hsplit : splitAt separator text with
      | nil =>
        rw [hsplit] at h
        rw [List.mem_singleton.mp h, List.mem_singleton]
        exact Ne.symm hc
      | cons part parts =>
        rw [hsplit] at h ih
        rcases List.mem_cons.mp h with rfl | h
        · rw [List.mem_cons, not_or]
          exact ⟨Ne.symm hc, ih (List.mem_cons_self ..)⟩
        · exact ih (List.mem_cons_of_mem _ h)

theorem mem_destutter' {first target : Text} {targets : List Text} :
    target ∈ targets.destutter' (· ≠ ·) first ↔ target ∈ first :: targets := by
  induction targets generalizing first with
  | nil => rfl
  | cons next targets ih =>
    rw [List.destutter'_cons]
    by_cases h : first ≠ next
    · rw [if_pos h]
      simp only [List.mem_cons, ih]
    · rw [if_neg h, ih, of_not_not h]
      simp

/-- Sorting and leaving out repetitions loses nothing. -/
theorem mem_destutter_insertionSort {target : Text} {targets : List Text} :
    target ∈ (targets.insertionSort (· ≤ ·)).destutter (· ≠ ·) ↔ target ∈ targets := by
  refine Iff.trans ?_ (List.mem_insertionSort (· ≤ ·))
  cases targets.insertionSort (· ≤ ·) with
  | nil => rfl
  | cons first targets => exact mem_destutter'

theorem mem_importTargets_rust {path text : Text} (clean : Clean path) :
    path ∈ importTargets .rust text ↔ First path text := by
  refine mem_destutter_insertionSort.trans (List.mem_flatMap.trans ?_)
  constructor
  · rintro ⟨piece, mem, h⟩
    exact ⟨piece, mem, (mem_rustTargets clean (notMem_of_mem_splitAt mem)).mp h⟩
  · rintro ⟨piece, mem, h⟩
    exact ⟨piece, mem, (mem_rustTargets clean (notMem_of_mem_splitAt mem)).mpr h⟩

/-! ## Source texts -/

/-- A name of a path: an identifier, or a word or sign that stands for one. -/
structure Segment where
  name : Text
  nonempty : name ≠ []
  plain : ∀ c ∈ name, isWhitespace c = false ∧ c ∉ [':', ';', ',', '{', '}', '/']
  free : name ≠ "pub".toList ∧ name ≠ "use".toList
  deriving DecidableEq

structure UsePath where
  /-- Whether the path begins with `::`. -/
  rooted : Bool
  segments : List Segment
  nonempty : segments ≠ []
  deriving DecidableEq

def UsePath.text (path : UsePath) : Text :=
  (if path.rooted then colons else []) ++ join (path.segments.map Segment.name)

/-- What a declaration names: a path, perhaps renamed, or a group of such. -/
inductive UseTree where
  | leaf (path : { segments : List Segment // segments ≠ [] }) (rename : Option Text)
  | group (path : List Segment) (members : List UseTree) (comma : Bool)

inductive Visibility where
  | inherited
  | pub
  | restricted (scope : List Text)
  deriving DecidableEq

structure Use where
  visibility : Visibility
  rooted : Bool
  tree : UseTree

/-- One path that a declaration imports, and the paths of the groups that it stands in. -/
structure Import where
  groups : List UsePath
  path : UsePath
  deriving DecidableEq

/-- The path of a member: `self` is the path of its group. -/
def member (outer path : List Segment) : List Segment :=
  if outer ≠ [] ∧ path.map Segment.name = ["self".toList] then outer else outer ++ path

theorem member_ne_nil (outer : List Segment) {path : List Segment} (h : path ≠ []) : member outer path ≠ [] := by
  rw [member]
  split
  · rename_i hself
    exact hself.1
  · exact List.append_ne_nil_of_right_ne_nil outer h

def groupPath (rooted : Bool) (path : List Segment) : List UsePath :=
  if h : path ≠ [] then [⟨rooted, path, h⟩] else []

mutual
def UseTree.imports (rooted : Bool) (outer : List Segment) (groups : List UsePath) : UseTree → List Import
  | .leaf path _ => [⟨groups, rooted, member outer path.1, member_ne_nil outer path.2⟩]
  | .group path members _ =>
    importsOf rooted (outer ++ path) (groups ++ groupPath rooted (outer ++ path)) members

def importsOf (rooted : Bool) (outer : List Segment) (groups : List UsePath) : List UseTree → List Import
  | [] => []
  | tree :: trees => tree.imports rooted outer groups ++ importsOf rooted outer groups trees
end

def Use.imports (use : Use) : List Import := use.tree.imports use.rooted [] []

def pathTokens (path : List Segment) : List Text := (path.map Segment.name).intersperse colons

mutual
def UseTree.tokens : UseTree → List Text
  | .leaf path rename =>
    pathTokens path.1 ++ (match rename with
      | none => []
      | some name => ["as".toList, name])
  | .group path members comma =>
    pathTokens path ++ (if path = [] then [] else [colons]) ++ [['{']] ++ membersTokens comma members ++ [['}']]

/-- The members of a group with commas between them, and perhaps one behind the last. -/
def membersTokens (comma : Bool) : List UseTree → List Text
  | [] => []
  | [tree] => tree.tokens ++ (if comma then [[',']] else [])
  | tree :: trees => tree.tokens ++ [[',']] ++ membersTokens comma trees
end

def Visibility.tokens : Visibility → List Text
  | inherited => []
  | pub => ["pub".toList]
  | restricted scope => ["pub".toList, ['(']] ++ scope ++ [[')']]

def Use.tokens (use : Use) : List Text :=
  use.visibility.tokens ++ ["use".toList] ++ (if use.rooted then [colons] else []) ++ use.tree.tokens ++ [[';']]

/-- White space and comments. -/
inductive Gap : Text → Prop
  | nil : Gap []
  | white {c : Char} {rest : Text} (h : isWhitespace c = true) (more : Gap rest) : Gap (c :: rest)
  | line {body rest : Text} (h : '\n' ∉ body) (more : Gap rest) : Gap ("//".toList ++ (body ++ '\n' :: rest))
  | block {body rest : Text} (h : find "*/".toList body = none) (more : Gap rest) :
    Gap ("/*".toList ++ (body ++ ("*/".toList ++ rest)))

def punctuation : List Text := [colons, ['{'], ['}'], [','], [';'], ['('], [')'], ['*']]

/-- The text spells the tokens, with white space and comments behind each. -/
inductive Spelled : List Text → Text → Prop
  | nil : Spelled [] []
  | cons {token gap text : Text} {tokens : List Text} (hgap : Gap gap)
    (apart : ∀ next, tokens.head? = some next → token ∉ punctuation → next ∉ punctuation → gap ≠ [])
    (rest : Spelled tokens text) : Spelled (token :: tokens) (token ++ (gap ++ text))

/-- A declaration as it stands in the text. -/
structure SpelledUse where
  use : Use
  text : Text
  spelled : Spelled use.tokens text

inductive Item where
  | comment (text : Text) (gap : Gap text)
  | use (declaration : SpelledUse)
  | other (text : Text)

def Item.text : Item → Text
  | comment text _ => text
  | use declaration => declaration.text
  | other text => text

def render (items : List Item) : Text := items.flatMap Item.text

def uses (items : List Item) : List Use :=
  items.filterMap fun item =>
    match item with
    | .use declaration => some declaration.use
    | _ => none

theorem join_cons_cons (part next : Name) (parts : List Name) :
    join (part :: next :: parts) = part ++ (colons ++ join (next :: parts)) := by
  simp [join, List.intercalate]

theorem mem_join {c : Char} {parts : List Name} (h : c ∈ join parts) : c = ':' ∨ ∃ part ∈ parts, c ∈ part := by
  induction parts with
  | nil => exact absurd h List.not_mem_nil
  | cons part parts ih =>
    cases parts with
    | nil => exact .inr ⟨part, List.mem_singleton_self part, by simpa [join, List.intercalate] using h⟩
    | cons next parts =>
      rw [join_cons_cons] at h
      rcases List.mem_append.mp h with h | h
      · exact .inr ⟨part, List.mem_cons_self .., h⟩
      · rcases List.mem_append.mp h with h | h
        · exact .inl (by simpa [colons] using h)
        · exact (ih h).imp_right fun ⟨part, mem, h⟩ => ⟨part, List.mem_cons_of_mem _ mem, h⟩

/-- A joined path ends as its last part does. -/
theorem getLast?_join {parts : List Name} (h : ∀ part ∈ parts, part ≠ [] ∧ ':' ∉ part) (hne : parts ≠ []) :
    join parts ≠ [] ∧ (join parts).getLast? ≠ some ':' := by
  induction parts with
  | nil => exact absurd rfl hne
  | cons part parts ih =>
    obtain ⟨hhead, htail⟩ := List.forall_mem_cons.mp h
    cases parts with
    | nil =>
      have hjoin : join [part] = part := by simp [join, List.intercalate]
      rw [hjoin]
      exact ⟨hhead.1, fun hlast => hhead.2 (List.mem_of_getLast? hlast)⟩
    | cons next parts =>
      obtain ⟨hnil, hlast⟩ := ih htail (List.cons_ne_nil _ _)
      rw [join_cons_cons, ← List.append_assoc]
      refine ⟨List.append_ne_nil_of_right_ne_nil _ hnil, ?_⟩
      rw [List.getLast?_append_of_ne_nil _ hnil]
      exact hlast

theorem UsePath.clean (path : UsePath) : Clean path.text := by
  obtain ⟨rooted, segments, hne⟩ := path
  have hparts : ∀ part ∈ segments.map Segment.name, part ≠ [] ∧ ':' ∉ part := by
    intro part mem
    obtain ⟨segment, -, rfl⟩ := List.mem_map.mp mem
    exact ⟨segment.nonempty, fun h => (segment.plain _ h).2 (by decide)⟩
  obtain ⟨hnil, hlast⟩ := getLast?_join hparts (by simpa using hne)
  have hword : ∀ word : Text, ':' ∉ word → (∀ segment : Segment, segment.name ≠ word) →
      UsePath.text ⟨rooted, segments, hne⟩ ≠ word := by
    rintro word hcolon hfree rfl
    cases rooted with
    | true => exact hcolon (List.mem_append_left _ (show ':' ∈ colons by decide))
    | false =>
      match segments with
      | [] => exact hne rfl
      | [segment] => exact hfree segment (by simp [UsePath.text, join, List.intercalate])
      | segment :: next :: segments =>
        apply hcolon
        rw [UsePath.text, List.map_cons, List.map_cons, join_cons_cons]
        simp [colons]
  constructor
  · exact List.append_ne_nil_of_right_ne_nil _ hnil
  · intro c h
    rcases List.mem_append.mp h with h | h
    · cases rooted with
      | true =>
        have hc : c = ':' := by simpa [colons] using h
        rw [hc]
        decide
      | false => exact absurd h List.not_mem_nil
    · rcases mem_join h with rfl | ⟨part, mem, h⟩
      · decide
      · obtain ⟨segment, -, rfl⟩ := List.mem_map.mp mem
        obtain ⟨hwhite, hplain⟩ := segment.plain c h
        exact ⟨hwhite, fun hmem => hplain (by simp at hmem ⊢; tauto)⟩
  · exact ⟨hword _ (by decide) fun segment => segment.free.1, hword _ (by decide) fun segment => segment.free.2⟩
  · change (_ ++ join (segments.map Segment.name)).getLast? ≠ some ':'
    rw [List.getLast?_append_of_ne_nil _ hnil]
    exact hlast

/-! ## Imports and targets -/

section Claims
variable (NamesModule : Text → Prop)

/-- The path is a target, or a group that it stands in is one, which names a module. -/
def Returned (targets : List Text) (found : Import) : Prop :=
  found.path.text ∈ targets ∨ ∃ group ∈ found.groups, NamesModule group.text ∧ group.text ∈ targets

/-- The path comes first in the piece, or a group that it stands in does and names a module. -/
def ReadsImport (piece : Text) (found : Import) : Prop :=
  Reads found.path.text piece ∨ ∃ group ∈ found.groups, NamesModule group.text ∧ Reads group.text piece

/-- The path comes first in a piece of the text, or a group that it stands in does and names a module. -/
def Led (text : Text) (found : Import) : Prop := ∃ piece ∈ splitAt ';' text, ReadsImport NamesModule piece found

/-- The targets of a text return an import of its use declarations just when a piece between its
semicolons begins with it. A declaration behind a comment, an attribute or another item is not seen. -/
theorem importTargets_uses_iff (items : List Item) :
    (∀ use ∈ uses items, ∀ found ∈ use.imports,
        Returned NamesModule (importTargets .rust (render items)) found) ↔
      ∀ use ∈ uses items, ∀ found ∈ use.imports, Led NamesModule (render items) found := by
  apply forall₂_congr
  intro use _
  apply forall₂_congr
  intro found _
  rw [Returned, mem_importTargets_rust found.path.clean]
  constructor
  · rintro (⟨piece, mem, h⟩ | ⟨group, hgroup, names, h⟩)
    · exact ⟨piece, mem, .inl h⟩
    · obtain ⟨piece, mem, h⟩ := (mem_importTargets_rust group.clean).mp h
      exact ⟨piece, mem, .inr ⟨group, hgroup, names, h⟩⟩
  · rintro ⟨piece, mem, h | ⟨group, hgroup, names, h⟩⟩
    · exact .inl ⟨piece, mem, h⟩
    · exact .inr ⟨group, hgroup, names, (mem_importTargets_rust group.clean).mpr ⟨piece, mem, h⟩⟩

/-- `use a::b;` on a line of its own. -/
def sampleUse : SpelledUse where
  use := ⟨.inherited, false, .leaf ⟨[⟨['a'], by decide, by decide, by decide⟩, ⟨['b'], by decide, by decide, by decide⟩],
    List.cons_ne_nil _ _⟩ none⟩
  text := "use a::b;\n".toList
  spelled := by
    have hpunct : ∀ {token : Text} {tokens : List Text} {gap : Text}, tokens.headD colons ∈ punctuation →
        ∀ next, tokens.head? = some next → token ∉ punctuation → next ∉ punctuation → gap ≠ [] := by
      rintro token (_ | ⟨first, tokens⟩) gap hfirst next ⟨⟩ _ hnext
      exact absurd hfirst hnext
    exact .cons (.white (by decide) .nil) (fun _ _ _ _ => List.cons_ne_nil _ _)
      (.cons .nil (hpunct (by decide))
        (.cons .nil (fun _ _ h _ => absurd (by decide) h)
          (.cons .nil (hpunct (by decide))
            (.cons (.white (by decide) .nil) (hpunct (by decide)) .nil))))

/-- A declaration below a comment gives no target. -/
theorem importTargets_misses :
    ∃ items : List Item, render items = "// c\nuse a::b;\n".toList ∧
      importTargets .rust (render items) = [] ∧
      ∃ use ∈ uses items, ∃ found ∈ use.imports,
        ¬ Returned (fun _ => True) (importTargets .rust (render items)) found := by
  have hnone : importTargets .rust "// c\nuse a::b;\n".toList = [] := by decide
  have hgap : Gap "// c\n".toList := @Gap.line " c".toList [] (by decide) .nil
  refine ⟨[.comment _ hgap, .use sampleUse], rfl, hnone, sampleUse.use, List.mem_singleton_self _,
    _, List.mem_singleton_self _, ?_⟩
  change ¬ Returned _ (importTargets .rust "// c\nuse a::b;\n".toList) _
  rw [hnone]
  rintro (h | ⟨group, hgroup, -⟩)
  · exact absurd h List.not_mem_nil
  · exact absurd hgroup List.not_mem_nil

theorem splitAt_append {separator : Char} {front : Text} (h : separator ∉ front) (rest : Text) :
    splitAt separator (front ++ separator :: rest) = front :: splitAt separator rest := by
  induction front with
  | nil => rw [List.nil_append, splitAt, if_pos rfl]
  | cons c front ih =>
    obtain ⟨hc, htail⟩ := not_or.mp (mt List.mem_cons.mpr h)
    rw [List.cons_append, splitAt, if_neg (Ne.symm hc), ih htail]

theorem Reads.prepend {path piece gap : Text} (hgap : Blank gap) (h : Reads path piece) :
    Reads path (gap ++ piece) := by
  obtain ⟨front, pubs, uses, space, rest, hfront, hspace, ends, rfl⟩ := h
  exact ⟨gap ++ front, pubs, uses, space, rest, hgap.append hfront, hspace, ends,
    (List.append_assoc ..).symm⟩

theorem ReadsImport.prepend {NamesModule : Text → Prop} {piece gap : Text} {found : Import} (hgap : Blank gap)
    (h : ReadsImport NamesModule piece found) : ReadsImport NamesModule (gap ++ piece) found := by
  rcases h with h | ⟨group, hgroup, names, h⟩
  · exact .inl (h.prepend hgap)
  · exact .inr ⟨group, hgroup, names, h.prepend hgap⟩

/-- A use declaration whose own text begins with its imports, and white space behind it. -/
def Bare (item : Item) : Prop :=
  ∃ declaration body gap, item = .use declaration ∧ declaration.text = body ++ ';' :: gap ∧ ';' ∉ body ∧
    Blank gap ∧ ∀ found ∈ declaration.use.imports, ReadsImport NamesModule body found

/-- In a text of bare declarations every one is seen. -/
theorem led_of_bare {items : List Item} (h : ∀ item ∈ items, Bare NamesModule item) {gap : Text}
    (hgap : Blank gap) :
    ∀ use ∈ uses items, ∀ found ∈ use.imports, Led NamesModule (gap ++ render items) found := by
  induction items generalizing gap with
  | nil => exact nofun
  | cons item items ih =>
    obtain ⟨hhead, htail⟩ := List.forall_mem_cons.mp h
    obtain ⟨declaration, body, space, rfl, htext, hbody, hspace, hreads⟩ := hhead
    have hsplit : splitAt ';' (gap ++ render (.use declaration :: items)) =
        (gap ++ body) :: splitAt ';' (space ++ render items) := by
      have hfront : ';' ∉ gap ++ body := by
        intro hmem
        rcases List.mem_append.mp hmem with hmem | hmem
        · exact absurd (hgap _ hmem) (by decide)
        · exact hbody hmem
      rw [← splitAt_append hfront, render, List.flatMap_cons, Item.text, htext]
      simp [render]
    intro use hmem found hfound
    rcases List.mem_cons.mp hmem with rfl | hmem
    · refine ⟨gap ++ body, ?_, (hreads found hfound).prepend hgap⟩
      rw [hsplit]
      exact List.mem_cons_self ..
    · obtain ⟨piece, mem, hpiece⟩ := ih htail hspace use hmem found hfound
      refine ⟨piece, ?_, hpiece⟩
      rw [hsplit]
      exact List.mem_cons_of_mem _ mem

/-- No path comes first in a piece that begins otherwise: with a comment, an attribute, a brace. -/
theorem not_reads_of_head {path gap rest : Text} {c : Char} (clean : Clean path) (hgap : Blank gap)
    (hwhite : isWhitespace c = false) (hwords : c ≠ 'p' ∧ c ≠ 'u') (hpath : c ∉ path) :
    ¬ Reads path (gap ++ c :: rest) := by
  rintro ⟨front, pubs, uses, space, more, hfront, hspace, -, heq⟩
  have hdrop := congrArg (List.dropWhile isWhitespace) heq
  rw [List.dropWhile_append_of_pos hgap, List.dropWhile_cons_of_neg (by rw [hwhite]; exact Bool.false_ne_true),
    List.dropWhile_append_of_pos hfront] at hdrop
  cases pubs with
  | succ pubs =>
    rw [repeated_succ] at hdrop
    exact hwords.1 (List.cons.inj hdrop).1
  | zero =>
    cases uses with
    | succ uses =>
      rw [repeated_succ] at hdrop
      exact hwords.2 (List.cons.inj hdrop).1
    | zero =>
      change _ = List.dropWhile isWhitespace (space ++ (path ++ more)) at hdrop
      obtain ⟨d, path, rfl⟩ := List.exists_cons_of_ne_nil clean.nonempty
      have hd := clean.white (List.mem_cons_self ..)
      rw [List.dropWhile_append_of_pos hspace, List.cons_append,
        List.dropWhile_cons_of_neg (by rw [hd]; exact Bool.false_ne_true)] at hdrop
      exact hpath (by rw [(List.cons.inj hdrop).1]; exact List.mem_cons_self ..)

end Claims

end SupraHarness.Digest
