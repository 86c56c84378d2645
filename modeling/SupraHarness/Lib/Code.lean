import Mathlib.Logic.Function.Basic
import Mathlib.Data.Nat.Digits.Lemmas
import Mathlib.Data.Set.Function

/-!
# Prefix-free encodings

An encoding of values as strings is prefix-free when a value can be split off
the front of any longer string in one way only. Fixed-width codes and framed
payloads are prefix-free, and the property passes to pairs, to tagged sums and
to lists that are written after their length. A message built from prefix-free
parts determines its parts.
-/
namespace SupraHarness.Code

variable {α β τ : Type}

/-- An encoded value can be split off the front of a longer string in one way. -/
def PrefixFree (enc : α → List τ) : Prop :=
  ∀ ⦃a b : α⦄ ⦃r s : List τ⦄, enc a ++ r = enc b ++ s → a = b ∧ r = s

/-- The cancellation rule of a prefix-free code, as a rewrite. -/
theorem PrefixFree.cancel {enc : α → List τ} (h : PrefixFree enc) {a b : α} {r s : List τ} :
    enc a ++ r = enc b ++ s ↔ a = b ∧ r = s := by
  constructor
  · intro he
    exact h he
  · rintro ⟨rfl, rfl⟩
    rfl

theorem PrefixFree.injective {enc : α → List τ} (h : PrefixFree enc) : Function.Injective enc := by
  intro a b he
  have hab : enc a ++ [] = enc b ++ [] := by rw [he]
  exact (h hab).1

/-- Codewords of one length are split by counting. -/
theorem PrefixFree.of_length {enc : α → List τ} (n : Nat) (hn : ∀ a, (enc a).length = n)
    (hi : Function.Injective enc) : PrefixFree enc := by
  intro a b r s he
  have hl : (enc a).length = (enc b).length := by rw [hn, hn]
  obtain ⟨hab, hrs⟩ := List.append_inj he hl
  exact ⟨hi hab, hrs⟩

theorem PrefixFree.comp {enc : β → List τ} (h : PrefixFree enc) {f : α → β}
    (hf : Function.Injective f) : PrefixFree fun a => enc (f a) := by
  intro a b r s he
  obtain ⟨hab, hrs⟩ := h he
  exact ⟨hf hab, hrs⟩

/-- A payload behind its own length: the length is read first, and says where the payload ends. -/
theorem PrefixFree.framed {bound : Nat} (header : Nat → List τ)
    (h : PrefixFree fun n : Fin bound => header n) :
    PrefixFree fun v : {l : List τ // l.length < bound} => header v.1.length ++ v.1 := by
  intro a b r s he
  simp only [List.append_assoc] at he
  obtain ⟨hl, he⟩ := h (a := ⟨a.1.length, a.2⟩) (b := ⟨b.1.length, b.2⟩) he
  obtain ⟨hab, hrs⟩ := List.append_inj he (Fin.mk.inj hl)
  exact ⟨Subtype.ext hab, hrs⟩

/-- Two lists of one length, written element after element, are read back element by element. -/
theorem PrefixFree.flatMap {enc : α → List τ} (h : PrefixFree enc) {xs ys : List α} {r s : List τ}
    (hl : xs.length = ys.length) (he : xs.flatMap enc ++ r = ys.flatMap enc ++ s) :
    xs = ys ∧ r = s := by
  induction xs generalizing ys with
  | nil =>
    cases ys with
    | nil => exact ⟨rfl, he⟩
    | cons y ys => simp at hl
  | cons x xs ih =>
    cases ys with
    | nil => simp at hl
    | cons y ys =>
      simp only [List.flatMap_cons, List.append_assoc] at he
      obtain ⟨rfl, htail⟩ := h he
      obtain ⟨rfl, hrs⟩ := ih (by simpa using hl) htail
      exact ⟨rfl, hrs⟩

/-- Lists are told apart by their elements' codewords, if none of these is empty. -/
theorem PrefixFree.flatMap_inj {enc : α → List τ} (h : PrefixFree enc) (hne : ∀ a, enc a ≠ [])
    {xs ys : List α} (he : xs.flatMap enc = ys.flatMap enc) : xs = ys := by
  induction xs generalizing ys with
  | nil =>
    cases ys with
    | nil => rfl
    | cons y ys =>
      rw [List.flatMap_nil, List.flatMap_cons] at he
      exact absurd (List.append_eq_nil_iff.1 he.symm).1 (hne y)
  | cons x xs ih =>
    cases ys with
    | nil =>
      rw [List.flatMap_nil, List.flatMap_cons] at he
      exact absurd (List.append_eq_nil_iff.1 he).1 (hne x)
    | cons y ys =>
      rw [List.flatMap_cons, List.flatMap_cons] at he
      obtain ⟨rfl, htail⟩ := h he
      rw [ih htail]

/-- A list behind its own element count. -/
theorem PrefixFree.counted {bound : Nat} (header : Nat → List τ) {enc : α → List τ}
    (h : PrefixFree fun n : Fin bound => header n) (he : PrefixFree enc) :
    PrefixFree fun v : {l : List α // l.length < bound} => header v.1.length ++ v.1.flatMap enc := by
  intro a b r s hm
  simp only [List.append_assoc] at hm
  obtain ⟨hl, hm⟩ := h (a := ⟨a.1.length, a.2⟩) (b := ⟨b.1.length, b.2⟩) hm
  obtain ⟨hab, hrs⟩ := he.flatMap (Fin.mk.inj hl) hm
  exact ⟨Subtype.ext hab, hrs⟩

/-- A body that does not have the mark behind it ends at the mark. -/
theorem PrefixFree.marked {body : α → List τ} (hi : Function.Injective body) {mark : τ} (hm : ∀ a, mark ∉ body a) :
    PrefixFree fun a => body a ++ [mark] := by
  have split : ∀ {l m r s : List τ}, mark ∉ l → mark ∉ m → l ++ mark :: r = m ++ mark :: s → l = m ∧ r = s := by
    intro l
    induction l with
    | nil =>
      intro m r s _ hm he
      cases m with
      | nil => exact ⟨rfl, (List.cons.inj he).2⟩
      | cons y m => exact absurd ((List.cons.inj he).1 ▸ List.mem_cons_self) hm
    | cons x l ih =>
      intro m r s hl hm he
      cases m with
      | nil => exact absurd ((List.cons.inj he).1 ▸ List.mem_cons_self) hl
      | cons y m =>
        obtain ⟨rfl, htail⟩ := List.cons.inj he
        obtain ⟨rfl, hrs⟩ := ih (fun h => hl (List.mem_cons_of_mem _ h)) (fun h => hm (List.mem_cons_of_mem _ h)) htail
        exact ⟨rfl, hrs⟩
  intro a b r s he
  simp only [List.append_assoc, List.singleton_append] at he
  obtain ⟨hab, hrs⟩ := split (hm a) (hm b) he
  exact ⟨hi hab, hrs⟩

/-- A payload of any length behind its own length. -/
theorem PrefixFree.sized {header : Nat → List τ} (h : PrefixFree header) :
    PrefixFree fun v : List τ => header v.length ++ v := by
  intro a b r s he
  simp only [List.append_assoc] at he
  obtain ⟨hl, he⟩ := h he
  exact List.append_inj he hl

theorem PrefixFree.append_const {enc : α → List τ} (h : PrefixFree enc) (tail : List τ) :
    PrefixFree fun a => enc a ++ tail := by
  intro a b r s he
  simp only [List.append_assoc] at he
  obtain ⟨rfl, hrs⟩ := h he
  exact ⟨rfl, List.append_cancel_left hrs⟩

/-- A list of codewords ends at a mark that none of them begins with. -/
theorem PrefixFree.closed {enc : α → List τ} (h : PrefixFree enc) {mark : τ} (hne : ∀ a, enc a ≠ [])
    (hm : ∀ a, (enc a).head? ≠ some mark) : PrefixFree fun xs : List α => xs.flatMap enc ++ [mark] := by
  have apart : ∀ (a : α) {r s : List τ}, enc a ++ r ≠ mark :: s := by
    intro a r s he
    cases hw : enc a with
    | nil => exact hne a hw
    | cons w ws =>
      rw [hw, List.cons_append] at he
      exact hm a (by rw [hw, (List.cons.inj he).1]; rfl)
  intro xs ys r s he
  simp only [List.append_assoc, List.singleton_append] at he
  induction xs generalizing ys with
  | nil =>
    cases ys with
    | nil => exact ⟨rfl, (List.cons.inj he).2⟩
    | cons y ys =>
      rw [List.flatMap_nil, List.flatMap_cons, List.nil_append, List.append_assoc] at he
      exact absurd he.symm (apart y)
  | cons x xs ih =>
    cases ys with
    | nil =>
      rw [List.flatMap_nil, List.flatMap_cons, List.nil_append, List.append_assoc] at he
      exact absurd he (apart x)
    | cons y ys =>
      rw [List.flatMap_cons, List.flatMap_cons, List.append_assoc, List.append_assoc] at he
      obtain ⟨rfl, htail⟩ := h he
      obtain ⟨rfl, hrs⟩ := ih htail
      exact ⟨rfl, hrs⟩

/-- A function that is injective on the elements of two lists separates the lists. -/
theorem map_inj_of_injOn {f : α → β} {xs ys : List α}
    (hf : Set.InjOn f {x | x ∈ xs ∨ x ∈ ys}) (h : xs.map f = ys.map f) : xs = ys := by
  induction xs generalizing ys with
  | nil => exact (List.map_eq_nil_iff.mp h.symm).symm
  | cons x xs ih =>
    cases ys with
    | nil => simp at h
    | cons y ys =>
      rw [List.map_cons, List.map_cons, List.cons.injEq] at h
      have hxy : x = y := hf (Or.inl List.mem_cons_self) (Or.inr List.mem_cons_self) h.1
      have htail : Set.InjOn f {z | z ∈ xs ∨ z ∈ ys} := by
        apply hf.mono
        rintro z (hz | hz)
        · exact Or.inl (List.mem_cons_of_mem _ hz)
        · exact Or.inr (List.mem_cons_of_mem _ hz)
      rw [hxy, ih htail h.2]

/-! ## Little-endian numbers of a fixed width -/

/-- The `width` bytes of `n`, the least significant first. -/
def leBytes (width n : Nat) : List UInt8 :=
  (Nat.digitsAppend 256 width n).map UInt8.ofNat

theorem map_map_cancel {f : α → β} {g : β → α} {l : List α} (h : ∀ a ∈ l, g (f a) = a) :
    (l.map f).map g = l := by
  rw [List.map_map]
  conv_rhs => rw [← List.map_id l]
  exact List.map_congr_left h

theorem length_leBytes {width n : Nat} (h : n < 256 ^ width) : (leBytes width n).length = width := by
  rw [leBytes, List.length_map]
  exact Nat.length_digitsAppend (by decide) width h

/-- Every number comes back from its digits, so two numbers of one width differ in a byte. -/
theorem ofDigits_leBytes (width n : Nat) :
    Nat.ofDigits 256 ((leBytes width n).map UInt8.toNat) = n := by
  have hbytes : (leBytes width n).map UInt8.toNat = Nat.digitsAppend 256 width n := by
    apply map_map_cancel
    intro d hd
    have hlt : d < 256 := Nat.lt_of_mem_digitsAppend (by decide) width d hd
    exact UInt8.toNat_ofNat_of_lt' hlt
  rw [hbytes, Nat.digitsAppend, Nat.ofDigits_append_replicate_zero, Nat.ofDigits_digits]

theorem leBytes_injective (width : Nat) : Function.Injective (leBytes width) := by
  intro m n h
  rw [← ofDigits_leBytes width m, h, ofDigits_leBytes]

/-! ## Numbers written with the most significant digit first -/

/-- Numerals of one width compare as the numbers they write. -/
theorem reverse_lt_of_ofDigits_lt {b : Nat} (hb : 1 < b) {l m : List Nat} (hlen : l.length = m.length)
    (hl : ∀ d ∈ l, d < b) (hm : ∀ d ∈ m, d < b) (h : Nat.ofDigits b l < Nat.ofDigits b m) :
    l.reverse < m.reverse := by
  induction l using List.reverseRecOn generalizing m with
  | nil =>
    rw [List.length_nil] at hlen
    rw [List.eq_nil_of_length_eq_zero hlen.symm] at h
    exact absurd h (Nat.lt_irrefl _)
  | append_singleton l d ih =>
    obtain ⟨m, e, rfl⟩ : ∃ m' e, m = m' ++ [e] := by
      refine ⟨m.dropLast, m.getLast ?_, (List.dropLast_append_getLast _).symm⟩
      rintro rfl
      simp at hlen
    have hlen' : l.length = m.length := by simpa using hlen
    have hl' : ∀ x ∈ l, x < b := fun x hx => hl x (List.mem_append_left _ hx)
    have hm' : ∀ x ∈ m, x < b := fun x hx => hm x (List.mem_append_left _ hx)
    rw [Nat.ofDigits_append, Nat.ofDigits_append, Nat.ofDigits_singleton, Nat.ofDigits_singleton, hlen'] at h
    rw [List.reverse_append, List.reverse_append]
    rcases Nat.lt_trichotomy d e with hde | rfl | hed
    · exact List.Lex.rel hde
    · exact List.Lex.cons (ih hlen' hl' hm' (Nat.lt_of_add_lt_add_right h))
    · exfalso
      have hsmall : Nat.ofDigits b m < b ^ m.length := Nat.ofDigits_lt_base_pow_length hb hm'
      have hstep : b ^ m.length * (e + 1) ≤ b ^ m.length * d := Nat.mul_le_mul_left _ hed
      rw [Nat.mul_add, Nat.mul_one] at hstep
      omega

/-- An increasing spelling of the elements of two lists keeps their order. -/
theorem map_lt_map {α β : Type} [LT α] [LT β] {f : α → β} {l m : List α}
    (hf : ∀ a ∈ l, ∀ b ∈ m, a < b → f a < f b) (h : l < m) : l.map f < m.map f := by
  change List.Lex (· < ·) l m at h
  induction h with
  | nil => exact List.Lex.nil
  | rel hab => exact List.Lex.rel (hf _ List.mem_cons_self _ List.mem_cons_self hab)
  | cons _ ih =>
    apply List.Lex.cons
    apply ih
    intro a ha b hb
    exact hf a (List.mem_cons_of_mem _ ha) b (List.mem_cons_of_mem _ hb)

end SupraHarness.Code
