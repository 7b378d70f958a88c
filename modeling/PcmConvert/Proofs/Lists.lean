/-
  PcmConvert.Proofs.Lists — lists whose elements are each read as something. A list is read if
  each of its elements is, as what stands in its place (`mapM_eq_some_iff_forall₂`). So there
  are as many of the ones as of the others; and where reading is a relation it is enough that
  there is something for each element (`exists_forall₂_iff`).
-/

import Mathlib.Data.List.Forall2

namespace PcmConvert

variable {α β : Type} {f : α → Option β} {l : List α} {r : List β}

theorem mapM_eq_some_iff_forall₂ : l.mapM f = some r ↔ List.Forall₂ (fun a b => f a = some b) l r := by
  induction l generalizing r with
  | nil => simp [eq_comm]
  | cons a l ih =>
    rw [List.mapM_cons, List.forall₂_cons_left_iff]
    simp only [Option.bind_eq_bind, Option.bind_eq_some_iff, Option.pure_def, Option.some.injEq, ih]
    constructor
    · rintro ⟨b, hb, r', hr', rfl⟩
      exact ⟨b, r', hb, hr', rfl⟩
    · rintro ⟨b, r', hb, hr', rfl⟩
      exact ⟨b, hb, r', hr', rfl⟩

theorem mapM_eq_some_iff : l.mapM f = some r ↔ l.map f = r.map some := by
  rw [mapM_eq_some_iff_forall₂, ← List.forall₂_eq_eq_eq, List.forall₂_map_left_iff, List.forall₂_map_right_iff]

theorem length_of_mapM_eq_some (h : l.mapM f = some r) : r.length = l.length :=
  (mapM_eq_some_iff_forall₂.mp h).length_eq.symm

theorem exists_forall₂_iff {R : α → β → Prop} : (∃ r, List.Forall₂ R l r) ↔ ∀ a ∈ l, ∃ b, R a b := by
  induction l with
  | nil => exact ⟨fun _ _ h => absurd h List.not_mem_nil, fun _ => ⟨[], .nil⟩⟩
  | cons a l ih =>
    rw [List.forall_mem_cons, ← ih]
    constructor
    · rintro ⟨_, hb | ⟨hb, hr⟩⟩
      exact ⟨⟨_, hb⟩, _, hr⟩
    · rintro ⟨⟨b, hb⟩, r, hr⟩
      exact ⟨b :: r, .cons hb hr⟩

end PcmConvert
