import Mathlib.Data.List.Forall2
import Rephrase.Fault

/-! A computation that may be out of its range gives a result only if each of its steps does. -/

namespace Rephrase

variable {α β : Type}

theorem ok_bind {ε : Type} (a : α) (f : α → Except ε β) : (Except.ok a >>= f) = f a := rfl

theorem bind_eq_ok {r : Except Fault α} {f : α → Except Fault β} {b : β} :
    (r >>= f) = .ok b ↔ ∃ a, r = .ok a ∧ f a = .ok b := by
  cases r with
  | error fault =>
    constructor
    · nofun
    · rintro ⟨_, ⟨⟩, _⟩
  | ok a =>
    constructor
    · intro h
      exact ⟨a, rfl, h⟩
    · rintro ⟨_, ⟨⟩, h⟩
      exact h

/-- A computation for each item of a list gives a result for each of them. -/
theorem forall₂_of_mapM {f : α → Except Fault β} {R : α → β → Prop} {xs : List α} {ys : List β}
    (hR : ∀ x ∈ xs, ∀ y, f x = .ok y → R x y) (h : xs.mapM f = .ok ys) : List.Forall₂ R xs ys := by
  induction xs generalizing ys with
  | nil =>
    cases h
    exact .nil
  | cons x xs ih =>
    rw [List.mapM_cons] at h
    obtain ⟨y, hy, h⟩ := bind_eq_ok.mp h
    obtain ⟨later, hlater, h⟩ := bind_eq_ok.mp h
    cases h
    exact .cons (hR x List.mem_cons_self y hy)
      (ih (fun x hx => hR x (List.mem_cons_of_mem _ hx)) hlater)

/-- Every result is that of an item. -/
theorem exists_of_mem_mapM {f : α → Except Fault β} {xs : List α} {ys : List β} {y : β}
    (h : xs.mapM f = .ok ys) (hy : y ∈ ys) : ∃ x ∈ xs, f x = .ok y := by
  have hall : List.Forall₂ (fun x y => f x = .ok y) xs ys := forall₂_of_mapM (fun _ _ _ hx => hx) h
  clear h
  induction hall with
  | nil => simp at hy
  | @cons x first xs ys hx _ ih =>
    obtain rfl | hy := List.mem_cons.mp hy
    · exact ⟨x, List.mem_cons_self, hx⟩
    · obtain ⟨other, hother, hresult⟩ := ih hy
      exact ⟨other, List.mem_cons_of_mem x hother, hresult⟩

theorem exists_mapM_eq_ok {f : α → Except Fault β} {xs : List α}
    (h : ∀ x ∈ xs, ∃ y, f x = .ok y) : ∃ ys, xs.mapM f = .ok ys := by
  induction xs with
  | nil => exact ⟨[], rfl⟩
  | cons x xs ih =>
    obtain ⟨⟨y, hy⟩, hrest⟩ := List.forall_mem_cons.mp h
    obtain ⟨ys, hys⟩ := ih hrest
    refine ⟨y :: ys, ?_⟩
    rw [List.mapM_cons, hy, ok_bind, hys]
    rfl

end Rephrase
