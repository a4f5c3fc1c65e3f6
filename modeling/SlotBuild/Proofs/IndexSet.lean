import Mathlib.Data.List.Nodup
import Mathlib.Data.String.Basic
import Mathlib.Order.Defs.Unbundled
import SlotBuild.Keyed

/-! Increasing lists as finite sets: what an insertion adds and that no element is repeated. -/

namespace SlotBuild

variable {α β : Type} [LT α] [DecidableLT α] [DecidableEq α] {a b : α} {as : List α}

theorem mem_insertOnce : b ∈ insertOnce a as ↔ b = a ∨ b ∈ as := by
  induction as with
  | nil => simp [insertOnce]
  | cons x r ih =>
    by_cases hlt : a < x
    · simp [insertOnce, hlt]
    · by_cases heq : a = x
      · subst heq
        simp [insertOnce, hlt]
      · simp only [insertOnce, if_neg hlt, if_neg heq, List.mem_cons, ih]
        tauto

theorem mem_foldl_insertOnce (f : β → α) {bs : List β} :
    a ∈ bs.foldl (fun s b => insertOnce (f b) s) as ↔ (∃ b ∈ bs, f b = a) ∨ a ∈ as := by
  induction bs generalizing as with
  | nil => simp
  | cons b bs ih =>
    rw [List.foldl_cons, ih, mem_insertOnce, List.exists_mem_cons_iff, @eq_comm _ a, or_left_comm,
      or_assoc]

@[simp] theorem mem_sortedSet : b ∈ sortedSet as ↔ b ∈ as := by
  simp [sortedSet, mem_foldl_insertOnce fun a => a]

variable [IsTrans α (· < ·)] [Std.Trichotomous (α := α) (· < ·)]

theorem insertOnce_increasing (h : as.Pairwise (· < ·)) : (insertOnce a as).Pairwise (· < ·) := by
  induction as with
  | nil => exact List.pairwise_singleton _ _
  | cons x r ih =>
    obtain ⟨hx, hr⟩ := List.pairwise_cons.mp h
    by_cases hlt : a < x
    · rw [insertOnce, if_pos hlt]
      refine List.pairwise_cons.mpr ⟨fun y hy => ?_, h⟩
      rcases List.mem_cons.mp hy with rfl | hy
      · exact hlt
      · exact IsTrans.trans _ _ _ hlt (hx y hy)
    · by_cases heq : a = x
      · rw [insertOnce, if_neg hlt, if_pos heq]
        exact h
      · rw [insertOnce, if_neg hlt, if_neg heq]
        refine List.pairwise_cons.mpr ⟨fun y hy => ?_, ih hr⟩
        rcases mem_insertOnce.mp hy with rfl | hy
        · exact Decidable.byContradiction fun hgt => heq (Std.Trichotomous.trichotomous y x hlt hgt)
        · exact hx y hy

theorem foldl_insertOnce_increasing (f : β → α) {bs : List β} (h : as.Pairwise (· < ·)) :
    (bs.foldl (fun s b => insertOnce (f b) s) as).Pairwise (· < ·) := by
  induction bs generalizing as with
  | nil => exact h
  | cons b bs ih => exact ih (insertOnce_increasing h)

theorem sortedSet_increasing (as : List α) : (sortedSet as).Pairwise (· < ·) :=
  foldl_insertOnce_increasing (fun a => a) List.Pairwise.nil

theorem sortedSet_nodup [Std.Irrefl (α := α) (· < ·)] (as : List α) : (sortedSet as).Nodup :=
  (sortedSet_increasing as).nodup

end SlotBuild
