/-
  PcmConvert.Proofs.Mix.InputOrder — the gains of a matrix when the inputs are in another order.
  The rules know an input by its position alone. They ask which positions there are, how many
  are of a kind and which are taken, and inputs at one position are taken together; so neither
  what an output takes (`link_perm`) nor what is taken after it (`takenAfter_perm`) nor what is
  mixed in (`residual_inputs_perm`) goes by the order of the inputs. A row has a gain for each
  position, which is the same in any order (`exists_rules_row`).

  Scaling asks for the sum of a row. Rational numbers have the same sum in any order
  (`total_perm`). That of binary32 numbers may be another one, so their gains are the same up to
  the scaling.
-/

import PcmConvert.Proofs.Mix.Accuracy
import PcmConvert.Proofs.Mix.Order
import PcmConvert.Proofs.Mix.Routes

namespace PcmConvert

namespace Mix

/-! ## Any order of the inputs -/

section

variable {α : Type} [Gain α] {ps ps' : List Position}

theorem count_perm (h : ps'.Perm ps) (kind : Position → Bool) : count kind ps' = count kind ps :=
  (h.filter kind).length_eq

theorem isNamed_perm (h : ps'.Perm ps) (mono : MonoRoute α) (b : Position) :
    isNamed mono ps' b = isNamed mono ps b := by
  unfold isNamed
  rw [h.length_eq, h.any_eq]

theorem filled_perm (h : ps'.Perm ps) (b : Position) : (filled ps' b : Position → Option α) = filled ps b := by
  funext a
  unfold filled
  simp only [count_perm h, h.any_eq]

theorem link_perm (h : ps'.Perm ps) (mono : MonoRoute α) (f : Flags) (t : Position → Bool) (b : Position) :
    link mono f ps' t b = link mono f ps t b := by
  funext a
  unfold link
  rw [isNamed_perm h, h.length_eq, h.any_eq, filled_perm h]

theorem takenAfter_perm (h : ps'.Perm ps) (mono : MonoRoute α) (f : Flags) (t : Position → Bool)
    (outputs : List Position) : takenAfter mono f ps' t outputs = takenAfter mono f ps t outputs := by
  induction outputs generalizing t with
  | nil => rfl
  | cons b outputs ih =>
    unfold takenAfter
    rw [link_perm h, ih]

omit [Gain α] in
theorem synthesizes_perm (h : ps'.Perm ps) (f : Flags) (b : Position) (l : Position → Option α) :
    synthesizes f b (ps'.map l) = synthesizes f b (ps.map l) := by
  unfold synthesizes
  rw [(h.map l).any_eq]

theorem leftOver_perm (h : ps'.Perm ps) (kind t : Position → Bool) :
    leftOver kind (sourcesAt ps' t) = leftOver kind (sourcesAt ps t) := by
  rw [leftOver_sourcesAt, leftOver_sourcesAt]
  exact count_perm (h.filter _) kind

theorem residual_inputs_perm (h : ps'.Perm ps) (outputs : List Position) (f : Flags) (t : Position → Bool)
    (b : Position) :
    (residual outputs f (sourcesAt ps' t) b : Source → Option α) = residual outputs f (sourcesAt ps t) b := by
  funext s
  unfold residual
  simp only [leftOver_perm h]

theorem gainFor_perm (h : ps'.Perm ps) (outputs : List Position) (f : Flags) (t t' : Position → Bool) (b : Position) :
    (gainFor ps' outputs f t t' b : Position → α) = gainFor ps outputs f t t' b := by
  funext a
  unfold gainFor
  rw [residual_inputs_perm h, link_perm h, synthesizes_perm h, h.length_eq]

/-- What the output `b` gets of an input with `pre` before it and `post` behind, its row not scaled yet. -/
def gainBehind (ps pre post : List Position) (f : Flags) (b : Position) : Position → α :=
  let mono : MonoRoute α := monoRoute (pre ++ b :: post) f
  gainFor ps (pre ++ b :: post) f (takenAfter mono f ps untaken pre) (takenAfter mono f ps untaken (pre ++ b :: post)) b

theorem gainBehind_perm (h : ps'.Perm ps) (pre post : List Position) (f : Flags) (b : Position) :
    (gainBehind ps' pre post f b : Position → α) = gainBehind ps pre post f b := by
  unfold gainBehind
  dsimp only
  rw [takenAfter_perm h, takenAfter_perm h, gainFor_perm h]

end

/-! ## Scaling -/

theorem total_perm {qs qs' : List Rat} (h : qs'.Perm qs) : Gain.total qs' = Gain.total qs :=
  h.foldl_eq 0

theorem scaled_perm {qs qs' : List Rat} (h : qs'.Perm qs) : scaled qs' = scaled qs := by
  funext g
  unfold scaled
  rw [total_perm h]

end Mix

namespace Matrix

open Mix

variable {i i' o : ChannelMap} {f : Flags} {n : Nat} {b : Position}

/-! ## Rows -/

section

variable {α : Type} [Gain α]

/-- The row of an output has a gain for each position, whatever the order of the inputs. -/
theorem exists_rules_row (hf : f.noRemap = false) (h : i'.Perm i) (hb : o[n]? = some b) : ∃ g : Position → α,
    (rules i o f : Matrix α).rows[n]? = some (i.map g) ∧ (rules i' o f : Matrix α).rows[n]? = some (i'.map g) := by
  unfold rules
  rw [hf, if_neg Bool.false_ne_true, if_neg Bool.false_ne_true]
  cases hremix : f.noRemix with
  | true =>
    refine ⟨fun a => if a = b then 1 else 0, ?_, ?_⟩
    · rw [if_pos rfl, List.getElem?_map, hb, Option.map_some]
    · rw [if_pos rfl, List.getElem?_map, hb, Option.map_some]
  | false =>
    obtain ⟨pre, post, rfl, rfl⟩ := exists_split hb
    rw [if_neg Bool.false_ne_true, if_neg Bool.false_ne_true]
    refine ⟨gainBehind i pre post f b, remix_row_any i pre post f b, ?_⟩
    rw [← gainBehind_perm h]
    exact remix_row_any i' pre post f b

theorem lfeSynthesized_inputs_perm (h : i'.Perm i) (o : ChannelMap) (f : Flags) :
    (build i' o f : Matrix α).lfeSynthesized = (build i o f : Matrix α).lfeSynthesized := by
  unfold build rules
  dsimp only
  split_ifs
  · rfl
  · rfl
  · unfold remix
    dsimp only
    rw [sourcesAt_untaken, sourcesAt_untaken, scan_lfeSynthesized, scan_lfeSynthesized]
    simp only [link_perm h, synthesizes_perm h]

omit [Gain α] in
theorem gain?_of_row {m : Matrix α} {g : Position → α} (h : m.rows[n]? = some (i.map g)) (k : Nat) :
    m.gain? n k = i[k]?.map g := by
  unfold gain?
  rw [h, Option.bind_eq_bind, Option.bind_some, List.getElem?_map]

end

theorem exists_build_row (hf : f.noRemap = false) (h : i'.Perm i) (hb : o[n]? = some b) : ∃ g : Position → Rat,
    (build i o f : Matrix Rat).rows[n]? = some (i.map g) ∧ (build i' o f : Matrix Rat).rows[n]? = some (i'.map g) := by
  obtain ⟨g, hrow, hrow'⟩ := exists_rules_row (α := Rat) hf h hb
  have hscaled : scaled (i'.map g) = scaled (i.map g) := scaled_perm (h.map g)
  refine ⟨scaled (i.map g) ∘ g, ?_, ?_⟩
  · simp only [build, List.getElem?_map, hrow, Option.map_some, normalize_eq_scaled, List.map_map]
  · simp only [build, List.getElem?_map, hrow', Option.map_some, normalize_eq_scaled, List.map_map, hscaled]

/-! ## Frames -/

/-- The frame of rational numbers that a matrix makes of one: the sums of the samples by the gains of each output. -/
def exactFrame (m : Matrix Rat) (frame : List Rat) : List Rat :=
  m.rows.map fun row => Gain.total (List.zipWith (· * ·) frame row)

/-- Samples by gains, as the products of each channel. -/
theorem zipWith_mul_map (l : ChannelMap) (x : Fin l.length → Rat) (g : Position → Rat) :
    List.zipWith (· * ·) (List.ofFn x) (l.map g) = List.ofFn fun k => x k * g (l.get k) := by
  refine List.ext_getElem (by simp) fun k hk hk' => ?_
  simp

theorem total_reorder (x : Fin i.length → Rat) (g : Position → Rat) (σ : Equiv.Perm (Fin i.length)) :
    Gain.total (List.zipWith (· * ·) (List.ofFn (x ∘ σ.symm)) ((reorder i σ).map g)) =
      Gain.total (List.zipWith (· * ·) (List.ofFn x) (i.map g)) := by
  have hproducts : List.zipWith (· * ·) (List.ofFn (x ∘ σ.symm)) ((reorder i σ).map g) =
      List.ofFn ((fun k => x k * g (i.get k)) ∘ σ.symm) := by
    refine List.ext_getElem (by simp [reorder]) fun k hk hk' => ?_
    simp [reorder]
  rw [hproducts, zipWith_mul_map]
  exact total_perm (Equiv.Perm.ofFn_comp_perm σ.symm _)

theorem exactFrame_reorder (hf : f.noRemap = false) (σ : Equiv.Perm (Fin i.length)) (x : Fin i.length → Rat) :
    exactFrame (build (reorder i σ) o f) (List.ofFn (x ∘ σ.symm)) = exactFrame (build i o f) (List.ofFn x) := by
  refine List.ext_getElem? fun n => ?_
  unfold exactFrame
  rw [List.getElem?_map, List.getElem?_map]
  cases hb : o[n]? with
  | none =>
    have hn := List.getElem?_eq_none_iff.mp hb
    rw [List.getElem?_eq_none (by rwa [length_rows_build]), List.getElem?_eq_none (by rwa [length_rows_build])]
    rfl
  | some b =>
    obtain ⟨g, hrow, hrow'⟩ := exists_build_row hf (reorder_perm i σ) hb
    rw [hrow, hrow', Option.map_some, Option.map_some, total_reorder]

/-- With the inputs in another order each of them keeps its gain in every output, and a low frequency output is made
    from all inputs or not, as before; so a frame with its samples in that order gives the same frame. The gains are
    the rational ones; of those in binary32 it holds before a row is scaled. -/
theorem inputs_in_any_order (hf : f.noRemap = false) (σ : Equiv.Perm (Fin i.length)) :
    (∀ (n : Fin o.length) (k : Fin i.length), ∃ g, (build i o f : Matrix Rat).gain? n k = some g ∧
        (build (reorder i σ) o f : Matrix Rat).gain? n (σ k) = some g) ∧
      (∀ (n : Fin o.length) (k : Fin i.length), ∃ g, (rules i o f : Matrix Float32).gain? n k = some g ∧
        (rules (reorder i σ) o f : Matrix Float32).gain? n (σ k) = some g) ∧
      (build (reorder i σ) o f : Matrix Rat).lfeSynthesized = (build i o f : Matrix Rat).lfeSynthesized ∧
      (build (reorder i σ) o f : Matrix Float32).lfeSynthesized = (build i o f : Matrix Float32).lfeSynthesized ∧
      ∀ x : Fin i.length → Rat,
        exactFrame (build (reorder i σ) o f) (List.ofFn (x ∘ σ.symm)) = exactFrame (build i o f) (List.ofFn x) := by
  have h := reorder_perm i σ
  have hinput (k : Fin i.length) : i[(k : Nat)]? = some (i.get k) := List.getElem?_eq_getElem k.isLt
  have houtput (n : Fin o.length) : o[(n : Nat)]? = some (o.get n) := List.getElem?_eq_getElem n.isLt
  refine ⟨fun n k => ?_, fun n k => ?_, lfeSynthesized_inputs_perm h o f, lfeSynthesized_inputs_perm h o f,
    exactFrame_reorder hf σ⟩
  · obtain ⟨g, hrow, hrow'⟩ := exists_build_row hf h (houtput n)
    refine ⟨g (i.get k), ?_, ?_⟩
    · rw [gain?_of_row hrow, hinput, Option.map_some]
    · rw [gain?_of_row hrow', getElem?_reorder, hinput, Option.map_some]
  · obtain ⟨g, hrow, hrow'⟩ := exists_rules_row (α := Float32) hf h (houtput n)
    refine ⟨g (i.get k), ?_, ?_⟩
    · rw [gain?_of_row hrow, hinput, Option.map_some]
    · rw [gain?_of_row hrow', getElem?_reorder, hinput, Option.map_some]

/-- A mono input changes places with a center one. -/
theorem inputs_in_any_order_center :
    let i : ChannelMap := [.mono, .rearLeft, .frontCenter, .rearLeft]
    let i' : ChannelMap := [.frontCenter, .rearLeft, .mono, .rearLeft]
    let o : ChannelMap := [.frontLeft, .sideLeft, .lfe]
    let f : Flags := { produceLfe := true }
    f.noRemap = false ∧ (build i' o f : Matrix Rat).gain? 0 2 = some (18 / 29) ∧
      (build i' o f : Matrix Float32).lfeSynthesized = true ∧
      exactFrame (build i' o f) [-3, 2, 1, 4] = exactFrame (build i o f) [1, 2, -3, 4] := by
  intro i i' o f
  let σ : Equiv.Perm (Fin i.length) := Equiv.swap ⟨0, by decide⟩ ⟨2, by decide⟩
  have hi : reorder i σ = i' := by decide
  obtain ⟨hgain, _, _, hlfe, hframe⟩ := inputs_in_any_order (o := o) (f := f) rfl σ
  obtain ⟨g, hg, hg'⟩ := hgain ⟨0, by decide⟩ ⟨0, by decide⟩
  have hvalue : (build i o f : Matrix Rat).gain? 0 0 = some (18 / 29) := by decide +kernel
  rw [← hi]
  refine ⟨rfl, ?_, hlfe.trans (by decide +kernel), hframe ![1, 2, -3, 4]⟩
  rw [← hvalue]
  exact hg'.trans hg.symm

end Matrix

end PcmConvert
