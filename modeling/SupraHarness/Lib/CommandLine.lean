import Mathlib.Data.List.Basic

/-!
# Splitting a command line

The rules by which a Windows program reads its command line. Blanks separate arguments and double quotes keep blanks
together. Backslashes are themselves unless a double quote follows: an even number of them stands for half as many and
the quote begins or ends a quoted part, an odd number for half as many and the quote itself. Inside a quoted part two
quotes stand for one. The program name comes first, with quotes that keep blanks together and no escapes.
-/
namespace SupraHarness.CommandLine

/-- UTF-16 code units. -/
abbrev Wide := List UInt16

def quote : UInt16 := 0x22
def backslash : UInt16 := 0x5C

def isBlank (c : UInt16) : Bool := c = 0x20 || c = 0x09

def slashes (n : Nat) : Wide := List.replicate n backslash

/-- Outside and inside a quoted part, and just behind the quote that ended one. -/
inductive Part where
  | outside | inside | ended
  deriving DecidableEq, Repr

def behind (front : Wide) (r : Wide × Wide) : Wide × Wide := (front ++ r.1, r.2)

/-- The program name, and what follows the blank behind it. -/
def programName : Bool → Wide → Wide × Wide
  | _, [] => ([], [])
  | quoted, c :: rest =>
    if c = quote then programName (!quoted) rest
    else if isBlank c && !quoted then ([], rest)
    else behind [c] (programName quoted rest)

/-- An argument from inside it, with a number of backslashes read, and what follows the blank behind it. -/
def argument : Part → Nat → Wide → Wide × Wide
  | _, n, [] => (slashes n, [])
  | part, n, c :: rest =>
    if c = backslash then argument (if part = .ended then .outside else part) (n + 1) rest
    else if c = quote then
      if n % 2 = 1 then behind (slashes (n / 2) ++ [quote]) (argument part 0 rest)
      else if part = .ended then behind [quote] (argument .inside 0 rest)
      else behind (slashes (n / 2)) (argument (if part = .inside then .ended else .inside) 0 rest)
    else if isBlank c && part ≠ .inside then (slashes n, rest)
    else behind (slashes n ++ [c]) (argument (if part = .ended then .outside else part) 0 rest)

/-- The arguments behind the program name; each takes at least one unit. -/
def arguments : Nat → Wide → List Wide
  | 0, _ => []
  | fuel + 1, line =>
    match line.dropWhile isBlank with
    | [] => []
    | c :: rest =>
      let r := argument .outside 0 (c :: rest)
      r.1 :: arguments fuel r.2

def splitCommandLine (line : Wide) : List Wide :=
  let r := programName false line
  r.1 :: arguments r.2.length r.2

/-! ## Words -/

/-- What stands behind an argument: nothing, or a blank and a rest. -/
def Follows (tail rest : Wide) : Prop := (tail = [] ∧ rest = []) ∨ ∃ c, isBlank c = true ∧ tail = c :: rest

theorem slashes_succ (n : Nat) : slashes (n + 1) = slashes n ++ [backslash] := List.replicate_succ'

theorem backslash_ne_quote : backslash ≠ quote := by decide

theorem not_isBlank_quote : isBlank quote = false := by decide

theorem argument_follows {part : Part} (h : part ≠ .inside) {tail rest : Wide} (follows : Follows tail rest) (n : Nat) :
    argument part n tail = (slashes n, rest) := by
  rcases follows with ⟨rfl, rfl⟩ | ⟨c, blank, rfl⟩
  · rw [argument]
  · have apart : c ≠ backslash ∧ c ≠ quote := by
      constructor
      all_goals
        rintro rfl
        exact absurd blank (by decide)
    rw [argument, if_neg apart.1, if_neg apart.2, if_pos (by simp [blank, h])]

theorem programName_follows {tail rest : Wide} (follows : Follows tail rest) : programName false tail = ([], rest) := by
  rcases follows with ⟨rfl, rfl⟩ | ⟨c, blank, rfl⟩
  · rfl
  · have apart : c ≠ quote := by
      rintro rfl
      exact absurd blank (by decide)
    rw [programName, if_neg apart, if_pos (by simp [blank])]

/-- A text that is read as an argument, whatever stands behind it. -/
structure Reads (text word : Wide) : Prop where
  starts : ∃ c rest, text = c :: rest ∧ isBlank c = false
  reads : ∀ tail rest, Follows tail rest → argument .outside 0 (text ++ tail) = (word, rest)

/-- A word without blanks and quotes is read as it is. -/
theorem argument_plain {word tail rest : Wide} (plain : ∀ c ∈ word, c ≠ quote ∧ isBlank c = false)
    (follows : Follows tail rest) (n : Nat) :
    argument .outside n (word ++ tail) = (slashes n ++ word, rest) := by
  induction word generalizing n with
  | nil => rw [List.nil_append, argument_follows (by decide) follows, List.append_nil]
  | cons c word ih =>
    rw [List.forall_mem_cons] at plain
    rw [List.cons_append, argument]
    by_cases hc : c = backslash
    · rw [if_pos hc, if_neg (by decide), ih plain.2, slashes_succ, hc, List.append_assoc, List.singleton_append]
    · rw [if_neg hc, if_neg plain.1.1, if_neg (by simp [plain.1.2]), if_neg (by decide), ih plain.2, behind]
      simp [slashes]

theorem argument_slashes {part : Part} (h : part ≠ .ended) (k n : Nat) (tail : Wide) :
    argument part n (slashes k ++ tail) = argument part (n + k) tail := by
  induction k generalizing n with
  | zero => rfl
  | succ k ih =>
    rw [slashes, List.replicate_succ, List.cons_append, argument, if_pos rfl, if_neg h]
    change argument part (n + 1) (slashes k ++ tail) = _
    rw [ih, Nat.add_right_comm, Nat.add_assoc]

/-- A quote behind an odd number of backslashes is read as a quote. -/
theorem argument_escaped (part : Part) (n : Nat) (tail : Wide) :
    argument part (2 * n + 1) (quote :: tail) = behind (slashes n ++ [quote]) (argument part 0 tail) := by
  have odd : (2 * n + 1) % 2 = 1 := by omega
  have half : (2 * n + 1) / 2 = n := by omega
  rw [argument, if_neg backslash_ne_quote.symm, if_pos rfl, if_pos odd, half]

/-- A quote behind an even number of backslashes ends a quoted part. -/
theorem argument_closing (n : Nat) (tail : Wide) :
    argument .inside (2 * n) (quote :: tail) = behind (slashes n) (argument .ended 0 tail) := by
  have even : ¬ (2 * n) % 2 = 1 := by omega
  have half : 2 * n / 2 = n := by omega
  rw [argument, if_neg backslash_ne_quote.symm, if_pos rfl, if_neg even, if_neg (by decide), if_pos rfl, half]

theorem argument_opening (tail : Wide) : argument .outside 0 (quote :: tail) = argument .inside 0 tail := by
  rw [argument, if_neg backslash_ne_quote.symm, if_pos rfl, if_neg (by decide), if_neg (by decide), if_neg (by decide)]
  rfl

/-- Any other unit inside a quoted part is read as it is. -/
theorem argument_inside {c : UInt16} (hs : c ≠ backslash) (hq : c ≠ quote) (n : Nat) (tail : Wide) :
    argument .inside n (c :: tail) = behind (slashes n ++ [c]) (argument .inside 0 tail) := by
  rw [argument, if_neg hs, if_neg hq, if_neg (by simp), if_neg (by decide)]

/-- A program name without quotes is read as it is, as long as no blank in it stands outside a quoted part. -/
theorem programName_append {quoted : Bool} {word tail : Wide} (plain : ∀ c ∈ word, c ≠ quote)
    (blanks : quoted = false → ∀ c ∈ word, isBlank c = false) :
    programName quoted (word ++ tail) = behind word (programName quoted tail) := by
  induction word with
  | nil => rfl
  | cons c word ih =>
    rw [List.forall_mem_cons] at plain
    have inner : ¬ ((isBlank c && !quoted) = true) := by
      cases quoted with
      | true => simp
      | false => simp [blanks rfl c List.mem_cons_self]
    rw [List.cons_append, programName, if_neg plain.1, if_neg inner,
      ih plain.2 fun h d hd => blanks h d (List.mem_cons_of_mem _ hd)]
    rfl

/-! ## Lines of words -/

/-- Texts behind one blank each are read as one argument each. -/
theorem arguments_of_reads (blank : UInt16) (hb : isBlank blank = true) {texts words : List Wide}
    (h : List.Forall₂ Reads texts words) {line rest : Wide} (hline : line = texts.flatMap (blank :: ·))
    (follows : Follows line rest) {fuel : Nat} (hfuel : rest.length ≤ fuel) : arguments fuel rest = words := by
  induction h generalizing line rest fuel with
  | nil =>
    rcases follows with ⟨-, rfl⟩ | ⟨c, -, hc⟩
    · cases fuel <;> rfl
    · rw [hline] at hc
      cases hc
  | @cons text word texts words head _ ih =>
    rcases follows with ⟨hnil, -⟩ | ⟨c, -, hc⟩
    · rw [hline] at hnil
      cases hnil
    rw [hline, List.flatMap_cons, List.cons_append] at hc
    obtain ⟨-, rfl⟩ := List.cons.inj hc
    obtain ⟨first, more, rfl, nonblank⟩ := head.starts
    obtain ⟨rest', follows⟩ : ∃ rest', Follows (texts.flatMap (blank :: ·)) rest' := by
      cases texts with
      | nil => exact ⟨[], .inl ⟨rfl, rfl⟩⟩
      | cons text texts => exact ⟨_, .inr ⟨blank, hb, rfl⟩⟩
    have shorter : rest'.length ≤ (texts.flatMap (blank :: ·)).length := by
      rcases follows with ⟨-, rfl⟩ | ⟨c, -, hc⟩
      · exact Nat.zero_le _
      · rw [hc, List.length_cons]
        exact Nat.le_succ _
    rw [List.cons_append, List.length_cons, List.length_append] at hfuel
    obtain ⟨fuel, rfl⟩ : ∃ n, fuel = n + 1 := ⟨fuel - 1, by omega⟩
    have read := head.reads _ _ follows
    rw [List.cons_append] at read ⊢
    rw [arguments, List.dropWhile_cons_of_neg (by simp [nonblank])]
    dsimp only
    rw [read, ih rfl follows (by omega)]

end SupraHarness.CommandLine
