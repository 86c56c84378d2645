import Mathlib.Data.List.Nodup
import Mathlib.Order.Defs.LinearOrder
import Mathlib.Order.Lattice

/-!
# Precedence between layers

Every layer has a rank and states a value or is silent. Walking the layers in ascending rank and
letting each replace what was there leaves the value of the highest layer that states one.
-/
namespace SupraHarness

variable {L σ α : Type} [LinearOrder σ]

/-- The value is the one stated by the layer of highest rank that states one, or the default where
no layer does. -/
def Highest (rank : L → σ) (states : L → Option α) (layers : List L) (default value : α) : Prop :=
  (∃ layer ∈ layers, states layer = some value ∧
    ∀ other ∈ layers, (states other).isSome → rank other ≤ rank layer) ∨
  (∀ layer ∈ layers, states layer = none) ∧ value = default

/-- One layer replaces the value if it states one. -/
def supply (states : L → Option α) (value : α) (layer : L) : α := (states layer).getD value

theorem supply_silent {states : L → Option α} {layer : L} (h : states layer = none) (value : α) :
    supply states value layer = value := by
  rw [supply, h]
  rfl

/-- Walking the layers in ascending rank ends at the highest one that states a value. -/
theorem foldl_supply_highest {rank : L → σ} {states : L → Option α} {layers : List L}
    (hsorted : layers.Pairwise fun a b => rank a ≤ rank b) (default : α) :
    Highest rank states layers default (layers.foldl (supply states) default) := by
  induction layers generalizing default with
  | nil => exact .inr ⟨nofun, rfl⟩
  | cons layer layers ih =>
    obtain ⟨hhead, htail⟩ := List.pairwise_cons.mp hsorted
    rw [List.foldl_cons]
    rcases ih htail (supply states default layer) with ⟨winner, hwinner, hstates, hmax⟩ | ⟨hsilent, hvalue⟩
    · refine .inl ⟨winner, List.mem_cons_of_mem _ hwinner, hstates, ?_⟩
      intro other hother hsome
      rcases List.mem_cons.mp hother with rfl | hother
      · exact hhead winner hwinner
      · exact hmax other hother hsome
    · rw [hvalue]
      cases hlayer : states layer with
      | none =>
        refine .inr ⟨?_, supply_silent hlayer default⟩
        intro other hother
        rcases List.mem_cons.mp hother with rfl | hother
        · exact hlayer
        · exact hsilent other hother
      | some stated =>
        refine .inl ⟨layer, List.mem_cons_self, ?_, ?_⟩
        · rw [supply, hlayer]
          rfl
        · intro other hother hsome
          rcases List.mem_cons.mp hother with rfl | hother
          · exact le_rfl
          · rw [hsilent other hother] at hsome
            contradiction

/-- Only the set of layers matters. -/
theorem Highest.perm {rank : L → σ} {states : L → Option α} {layers layers' : List L}
    (h : layers.Perm layers') {default value : α} (hh : Highest rank states layers default value) :
    Highest rank states layers' default value := by
  rcases hh with ⟨winner, hwinner, hstates, hmax⟩ | ⟨hsilent, hvalue⟩
  · exact .inl ⟨winner, h.mem_iff.mp hwinner, hstates, fun other hother => hmax other (h.mem_iff.mpr hother)⟩
  · exact .inr ⟨fun layer hlayer => hsilent layer (h.mem_iff.mpr hlayer), hvalue⟩

/-- Entries whose step changes nothing may be left out of a walk. -/
theorem foldl_filter_silent {β : Type} (step : β → L → β) (keep : L → Bool) {layers : List L}
    (h : ∀ layer ∈ layers, keep layer = false → ∀ b, step b layer = b) (b : β) :
    (layers.filter keep).foldl step b = layers.foldl step b := by
  induction layers generalizing b with
  | nil => rfl
  | cons layer layers ih =>
    obtain ⟨hhead, htail⟩ := List.forall_mem_cons.mp h
    cases hkeep : keep layer with
    | false => rw [List.filter_cons_of_neg (by rw [hkeep]; exact Bool.false_ne_true), List.foldl_cons,
        hhead hkeep b, ih htail]
    | true => rw [List.filter_cons_of_pos hkeep, List.foldl_cons, List.foldl_cons, ih htail]

/-- The layers in ascending rank. -/
def ascending (rank : L → σ) (layers : List L) : List L :=
  layers.mergeSort fun a b => decide (rank a ≤ rank b)

theorem ascending_perm (rank : L → σ) (layers : List L) : (ascending rank layers).Perm layers :=
  List.mergeSort_perm _ _

theorem ascending_sorted (rank : L → σ) (layers : List L) :
    (ascending rank layers).Pairwise fun a b => rank a ≤ rank b := by
  have h : (ascending rank layers).Pairwise fun a b => decide (rank a ≤ rank b) := by
    apply List.pairwise_mergeSort
    · intro a b c hab hbc
      exact decide_eq_true (le_trans (of_decide_eq_true hab) (of_decide_eq_true hbc))
    · intro a b
      rcases le_total (rank a) (rank b) with hab | hba
      · rw [decide_eq_true hab, Bool.true_or]
      · rw [decide_eq_true hba, Bool.or_true]
  exact h.imp of_decide_eq_true

/-- With pairwise distinct ranks there is one ascending order. -/
theorem ascending_unique {rank : L → σ} {layers sorted : List L} (hnodup : (layers.map rank).Nodup)
    (hperm : sorted.Perm layers) (hsorted : sorted.Pairwise fun a b => rank a ≤ rank b) :
    sorted = ascending rank layers := by
  have hall := hperm.trans (ascending_perm rank layers).symm
  refine hall.eq_of_pairwise ?_ hsorted (ascending_sorted rank layers)
  intro a b ha hb hab hba
  exact List.inj_on_of_nodup_map hnodup (hperm.mem_iff.mp ha) ((ascending_perm rank layers).mem_iff.mp hb)
    (le_antisymm hab hba)

theorem ascending_of_perm {rank : L → σ} {layers layers' : List L} (hnodup : (layers.map rank).Nodup)
    (hperm : layers'.Perm layers) : ascending rank layers' = ascending rank layers :=
  ascending_unique hnodup ((ascending_perm rank layers').trans hperm) (ascending_sorted rank layers')

theorem ascending_filter {rank : L → σ} {layers : List L} (hnodup : (layers.map rank).Nodup)
    (keep : L → Bool) : (ascending rank layers).filter keep = ascending rank (layers.filter keep) :=
  ascending_unique (hnodup.sublist (List.filter_sublist.map rank)) ((ascending_perm rank layers).filter keep)
    ((ascending_sorted rank layers).filter keep)

end SupraHarness
