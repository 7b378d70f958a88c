/-
  PcmConvert.Proofs.Mix.StageOrder — a mix before the conversion, or after it. A run chooses
  by the cost: the converter gets the fewer channels.

  Where each row of the matrix moves one input as it is or is silent (`Moves`), the mix is a
  pick, and a converter of 16-bit integers gives the same either way, whatever its method.
  Any mix at all may change places with the converter to the nearest frame
  (`stage_order_unobservable`).
-/

import PcmConvert.Proofs.Mix.Identity
import PcmConvert.Proofs.Rate.Picks

namespace PcmConvert

open RateConverter

/-! ## Rows that move an input -/

namespace Matrix

variable {α : Type} [Gain α]

/-- At most one gain of the row is not zero, and that one is one. -/
def Moves (row : List α) : Prop :=
  (row.filter fun g => !(g == 0)).length ≤ 1 ∧ ∀ g ∈ row, (g == 0) = false → (g == 1) = true

instance (row : List α) : Decidable (Moves row) := inferInstanceAs (Decidable (_ ∧ _))

theorem exists_copied?_of_moves {row : List α} (h : Moves row) : ∃ s, copied? row = some s := by
  obtain ⟨hcount, hone⟩ := h
  have hlen : (row.zipIdx.filter fun g => !(g.1 == 0)).length ≤ 1 := by
    rw [← List.zipIdx_map_fst 0 row, List.filter_map, List.length_map] at hcount
    exact hcount
  rcases hgs : row.zipIdx.filter fun g => !(g.1 == 0) with _ | ⟨⟨g, i⟩, _ | ⟨x, r⟩⟩
  · refine ⟨none, ?_⟩
    rw [copied?, hgs]
  · have hmem : (g, i) ∈ row.zipIdx.filter fun g => !(g.1 == 0) := by simp [hgs]
    obtain ⟨hg, hz⟩ := List.mem_filter.mp hmem
    refine ⟨some i, ?_⟩
    rw [copied?, hgs]
    exact if_pos (hone g (List.fst_mem_of_mem_zipIdx hg) (by simpa using hz))
  · rw [hgs] at hlen
    simp at hlen

/-- A matrix of such rows picks, from among its inputs. -/
theorem exists_permutation {m : Matrix α} (hi : 0 < m.inputs)
    (h : ∀ row ∈ m.rows, row.length = m.inputs ∧ Moves row) :
    ∃ sources, m.permutation? = some sources ∧ sources.length = m.outputs ∧ Remapper.Within m.inputs sources := by
  have hshown : m.shown = m.rows := if_neg (Nat.ne_of_gt hi)
  have hp : m.permutation? = some (m.rows.map fun row => (copied? row).getD none) := by
    rw [permutation?, hshown, mapM_eq_some_iff, List.map_map]
    apply List.map_congr_left
    intro row hrow
    obtain ⟨s, hs⟩ := exists_copied?_of_moves (h row hrow).2
    simp [hs]
  refine ⟨_, hp, List.length_map .., ?_⟩
  intro i hsome
  obtain ⟨row, hrow, hs⟩ := List.mem_map.mp hsome
  obtain ⟨s, hcopied⟩ := exists_copied?_of_moves (h row hrow).2
  rw [hcopied, Option.getD_some] at hs
  subst hs
  obtain ⟨g, hg, _⟩ := (of_copied? hcopied).1
  exact (h row hrow).1 ▸ (List.getElem?_eq_some_iff.mp hg).1

end Matrix

theorem Remapper.apply_of_permutation {S : Type} [Sample S] {m : Matrix Float32} {sources : List (Option Nat)}
    (h : m.permutation? = some sources) : (ofMatrix m).apply (S := S) = (·.map (copyFrame sources)) := by
  funext fs
  apply List.map_congr_left
  intro f _
  simp only [frame, ofMatrix, h]

/-! ## The order -/

/-- A converter of the outputs, fed mixed frames, gives what mixing makes of what a converter
    of the inputs gives: with the nearest frame for any matrix, and for matrices that move
    inputs with every method of 16-bit integers. -/
theorem Remapper.stage_order_unobservable (m : Matrix Float32) :
    (∀ r : Rates,
      (∃ a b, FixedConverter.create .trivial m.inputs r = .ok a ∧ FixedConverter.create .trivial m.outputs r = .ok b ∧
        Commutes m.inputs ((ofMatrix m).apply (S := Int16)) a b) ∧
      ∀ d v, ∃ a b, FloatConverter.create d v .trivial m.inputs r = .ok a ∧
        FloatConverter.create d v .trivial m.outputs r = .ok b ∧
        Commutes m.inputs ((ofMatrix m).apply (S := Float32)) a b) ∧
    (0 < m.inputs → (∀ row ∈ m.rows, row.length = m.inputs ∧ Matrix.Moves row) →
      ∀ {k : Method} {r : Rates} {a : FixedConverter}, FixedConverter.create k m.inputs r = .ok a →
        ∃ b, FixedConverter.create k m.outputs r = .ok b ∧
          Commutes m.inputs ((ofMatrix m).apply (S := Int16)) a b) := by
  refine ⟨?_, ?_⟩
  · intro r
    refine ⟨⟨_, _, rfl, rfl, Converter.commutes_nearest _ _ r⟩, ?_⟩
    intro d v
    exact ⟨_, _, rfl, rfl, Converter.commutes_nearest _ _ r⟩
  · intro hi hrows k r a ha
    obtain ⟨sources, hp, hlen, hwithin⟩ := Matrix.exists_permutation hi hrows
    rw [apply_of_permutation hp, ← hlen]
    exact FixedConverter.commutes_of_create hwithin ha

/-- The second of two inputs twice, and silence between. -/
def doubled : Matrix Float32 := ⟨2, [[0, 1], [0, 0], [0, 1]], false⟩

theorem Remapper.stage_order_unobservable_doubled :
    ∃ (r : Rates) (a b : FixedConverter), r.input = 48000 ∧ r.output = 44100 ∧
      FixedConverter.create .sincFixed 2 r = .ok a ∧ FixedConverter.create .sincFixed 3 r = .ok b ∧
      (obeyAll b ((Converter.stereoOrders 3 (-5)).map (·.map (ofMatrix doubled).apply))).1 =
        (obeyAll a (Converter.stereoOrders 3 (-5))).1.map (·.map ((ofMatrix doubled).apply (S := Int16))) := by
  have hrows : ∀ row ∈ doubled.rows, row.length = doubled.inputs ∧ Matrix.Moves row := by decide +kernel
  obtain ⟨_, hfixed⟩ := stage_order_unobservable doubled
  obtain ⟨b, hb, hab⟩ := hfixed (by decide) hrows (k := .sincFixed) (r := ⟨48000, 44100, by decide, by decide⟩) rfl
  exact ⟨_, _, b, rfl, rfl, rfl, hb, hab _ (Converter.whole_stereoOrders _ _)⟩

end PcmConvert
