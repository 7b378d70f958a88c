/-
  PcmConvert.Proofs.Mix.Order — the rows of a matrix when the outputs are in another order
  (`reorder`). Nothing but the visit of the outputs goes by their order (`monoRoute_perm`,
  `residual_perm`). So each output has its row in any order where none depends on those
  before it (`rowsFollow_of_unordered`), and an output with a rival has one row if it comes
  first and another if its rival does (`spared_of_rowsFollow`). Both are one theorem,
  `outputs_in_any_order`; with a rear and a front input, rear left and side left are such
  outputs (`rows_of_swapped_surrounds`).
-/

import PcmConvert.Proofs.Mix.Scaled

namespace PcmConvert

/-! ## Orders -/

/-- The channels of `l` in another order: `σ` says where each of them goes. -/
def reorder {β : Type} (l : List β) (σ : Equiv.Perm (Fin l.length)) : List β := List.ofFn fun i => l.get (σ.symm i)

section

variable {β : Type} (l : List β) (σ : Equiv.Perm (Fin l.length))

theorem reorder_perm : (reorder l σ).Perm l := by
  have h := Equiv.Perm.ofFn_comp_perm σ.symm l.get
  rwa [List.ofFn_get] at h

theorem getElem?_reorder (i : Fin l.length) : (reorder l σ)[(σ i : Nat)]? = l[(i : Nat)]? := by
  have hlen : (σ i : Nat) < (reorder l σ).length := by
    rw [(reorder_perm l σ).length_eq]
    exact (σ i).isLt
  rw [List.getElem?_eq_getElem hlen, List.getElem?_eq_getElem i.isLt]
  simp [reorder]

/-- Any channel can be the first. -/
theorem exists_reorder_cons (i : Fin l.length) : ∃ (σ : Equiv.Perm (Fin l.length)) (rest : List β),
    reorder l σ = l[i] :: rest ∧ (σ i : Nat) = 0 := by
  have hpos : 0 < l.length := Nat.lt_of_le_of_lt (Nat.zero_le _) i.isLt
  let σ : Equiv.Perm (Fin l.length) := Equiv.swap ⟨0, hpos⟩ i
  have hi : (σ i : Nat) = 0 := by simp [σ]
  have hget := getElem?_reorder l σ i
  rw [hi] at hget
  cases hr : reorder l σ with
  | nil =>
    rw [hr] at hget
    simp at hget
  | cons c rest =>
    rw [hr] at hget
    refine ⟨σ, rest, ?_, hi⟩
    rw [hr]
    congr 1
    simpa using hget

/-- Any other channel can be the first, with this one somewhere behind it. -/
theorem exists_reorder_behind {i j : Fin l.length} (hij : i ≠ j) : ∃ (σ : Equiv.Perm (Fin l.length)) (pre post : List β),
    reorder l σ = l[j] :: pre ++ l[i] :: post ∧ (σ i : Nat) = (l[j] :: pre).length := by
  obtain ⟨σ, rest, hfirst, hj⟩ := exists_reorder_cons l j
  have hget : (reorder l σ)[(σ i : Nat)]? = some l[i] :=
    (getElem?_reorder l σ i).trans (List.getElem?_eq_getElem i.isLt)
  obtain ⟨pre, post, hsplit, hpre⟩ := Mix.exists_split hget
  obtain ⟨c, pre, rfl⟩ : ∃ c pre', pre = c :: pre' := by
    refine List.exists_cons_of_length_pos (Nat.pos_of_ne_zero fun hz => hij ?_)
    exact σ.injective (Fin.ext (by omega))
  have hc : l[j] = c := by
    rw [hfirst, List.cons_append] at hsplit
    exact (List.cons.inj hsplit).1
  rw [hc]
  exact ⟨σ, pre, post, hsplit, hpre.symm⟩

end

namespace Mix

variable {α : Type} [Gain α]

/-! ## Any order of the outputs -/

theorem monoRoute_perm {o o' : List Position} (h : o'.Perm o) (f : Flags) :
    (monoRoute o' f : MonoRoute α) = monoRoute o f := by
  unfold monoRoute count
  rw [h.contains_eq, h.contains_eq, h.contains_eq, h.contains_eq, (h.filter _).length_eq]

theorem reaches_perm {o o' : List Position} (h : o'.Perm o) : reaches o' = reaches o := by
  funext a b
  unfold reaches
  rw [h.any_eq]

theorem residual_perm {o o' : List Position} (h : o'.Perm o) (f : Flags) (sources : List Source) (b : Position) :
    (residual o' f sources b : Source → Option α) = residual o f sources b := by
  funext s
  unfold residual
  rw [h.any_eq, reaches_perm h]

theorem lfeSynthesized_perm {o o' : List Position} (h : o'.Perm o) (ps : List Position) (f : Flags) :
    (remix ps o' f : Matrix α).lfeSynthesized = (remix ps o f : Matrix α).lfeSynthesized := by
  unfold remix
  rw [sourcesAt_untaken]
  dsimp only
  rw [scan_lfeSynthesized, scan_lfeSynthesized, monoRoute_perm h, h.any_eq]

theorem unrivalled_perm {o o' : List Position} (h : o'.Perm o) (mono : MonoRoute α) (f : Flags) (ps : List Position) :
    Unrivalled mono f ps o' ↔ Unrivalled mono f ps o :=
  h.pairwise_iff fun hbc => ⟨hbc.2, hbc.1⟩

theorem mixed_perm {o o' : List Position} (h : o'.Perm o) (mono : MonoRoute α) (f : Flags) (ps : List Position) :
    mixed mono f ps o' (takenBy mono f ps o') = mixed mono f ps o (takenBy mono f ps o) := by
  have htaken : takenBy mono f ps o' = takenBy mono f ps o := by
    funext a
    exact h.any_eq
  funext b
  unfold mixed mixIn
  rw [htaken, residual_perm h]

/-- Where no output has a rival that it is not spared from, each has its row in any order. -/
theorem remix_perm {f : Flags} {ps o o' : List Position} (hone : (Gain.share 1 : α) = 1)
    (h : Unrivalled (monoRoute o f : MonoRoute α) f ps o) (hp : o'.Perm o) :
    (remix ps o' f : Matrix α).rows =
      o'.map (mixed (monoRoute o f) f ps o (takenBy (monoRoute o f : MonoRoute α) f ps o)) := by
  have h' : Unrivalled (monoRoute o' f : MonoRoute α) f ps o' := by
    rw [monoRoute_perm hp]
    exact (unrivalled_perm hp _ f ps).mpr h
  rw [remix_of_settles (settles_of_unrivalled hone h')]
  dsimp only
  rw [monoRoute_perm hp, mixed_perm hp]

end Mix

/-! ## The matrix -/

/-- The outputs of a matrix do not come in each other's way: nothing is mixed, or no output has a rival that it is not
    spared from. -/
def Flags.Unordered (f : Flags) (i o : ChannelMap) : Prop :=
  f.noRemix = true ∨ Mix.Unrivalled (Mix.monoRoute o f : Mix.MonoRoute Float32) f i o

instance (f : Flags) (i o : ChannelMap) : Decidable (f.Unordered i o) := inferInstanceAs (Decidable (_ ∨ _))

namespace Matrix

open Mix

/-- In any order of the outputs each of them has the same row. -/
def RowsFollow (i o : ChannelMap) (f : Flags) : Prop :=
  ∀ (σ : Equiv.Perm (Fin o.length)) (n : Fin o.length),
    (build i (reorder o σ) f : Matrix Float32).rows[(σ n : Nat)]? = (build i o f : Matrix Float32).rows[(n : Nat)]?

theorem rowsFollow_of_map {i o : ChannelMap} {f : Flags} (row : Position → List Float32)
    (h : ∀ o' : ChannelMap, o'.Perm o → (build i o' f : Matrix Float32).rows = o'.map row) : RowsFollow i o f := by
  intro σ n
  rw [h _ (reorder_perm o σ), h o (List.Perm.refl o), List.getElem?_map, List.getElem?_map, getElem?_reorder]

theorem rowsFollow_of_unordered {i o : ChannelMap} {f : Flags} (hf : f.noRemap = false) (h : f.Unordered i o) :
    RowsFollow i o f := by
  cases hremix : f.noRemix with
  | true =>
    refine rowsFollow_of_map (fun b => normalize (i.map fun a => if a = b then 1 else 0)) fun o' _ => ?_
    simp [build, rules, hf, hremix]
  | false =>
    rcases h with h | h
    · rw [hremix] at h
      cases h
    · have hone : (Gain.share 1 : Float32) = 1 := by decide +kernel
      let mono : MonoRoute Float32 := monoRoute o f
      refine rowsFollow_of_map (fun b => normalize (mixed mono f i o (takenBy mono f i o) b)) fun o' hp => ?_
      simp only [build, rules, hf, hremix, Bool.false_eq_true, if_false, remix_perm hone h hp, List.map_map]
      rfl

theorem build_row (i pre post : ChannelMap) {b : Position} {f : Flags} (hf : f.noRemap = false)
    (hremix : f.noRemix = false) (hb : b.isLfe = false) :
    (build i (pre ++ b :: post) f : Matrix Float32).rows[pre.length]? =
      let mono : MonoRoute Float32 := monoRoute (pre ++ b :: post) f
      some (normalize (rowGains mono f i (pre ++ b :: post) (takenAfter mono f i untaken pre)
        (takenAfter mono f i untaken (pre ++ b :: post)) b)) := by
  simp only [build, rules, hf, hremix, Bool.false_eq_true, if_false, List.getElem?_map, remix_row i pre post f hb,
    Option.map_some]

/-- With each of an output and its rival put first, the output has its row only if it is spared. -/
theorem spared_of_rowsFollow {i o : ChannelMap} {f : Flags} (hf : f.noRemap = false) (hremix : f.noRemix = false)
    (hi : i.Nodup) (h : RowsFollow i o f) {n m : Fin o.length} (hnm : n ≠ m)
    (hr : rivals (monoRoute o f : MonoRoute Float32) f i o[n] o[m] = true) : spared f i o[n] = true := by
  obtain ⟨hb, a, ha, hab, hca⟩ := rivals_iff.mp hr
  have hlfe := (sideOf_of_isAlias hab).2.2
  obtain ⟨σ₁, rest, hfirst, hn₁⟩ := exists_reorder_cons o n
  obtain ⟨σ₂, pre, post, hbehind, hn₂⟩ := exists_reorder_behind o hnm
  have hmono₁ : (monoRoute (o[n] :: rest) f : MonoRoute Float32) = monoRoute o f :=
    monoRoute_perm (hfirst ▸ reorder_perm o σ₁) f
  have hmono₂ : (monoRoute (o[m] :: pre ++ o[n] :: post) f : MonoRoute Float32) = monoRoute o f :=
    monoRoute_perm (hbehind ▸ reorder_perm o σ₂) f
  have hrows := (h σ₁ n).trans (h σ₂ n).symm
  have hrow₁ := build_row i [] rest hf hremix hlfe
  have hrow₂ := build_row i (o[m] :: pre) post hf hremix hlfe
  rw [hn₁, hn₂, hfirst, hbehind, hrow₂, hmono₂] at hrows
  rw [List.nil_append, List.length_nil, hrows, hmono₁] at hrow₁
  refine spared_of_normalize_eq hi hb ha hab ?_ ?_ ?_ ?_ (Option.some.inj hrow₁).symm
  · intro x hx
    exact takenAfter_of_link [] rest hx
  · exact takenAfter_of_link [] pre hca
  · exact takenAfter_of_link [] (pre ++ o[n] :: post) hca
  · intro x hx
    exact takenAfter_of_link (o[m] :: pre) post hx

/-- Whether a low frequency output is made from all inputs never goes by the order of the outputs. The rows do not where
    the outputs do not come in each other's way; and of inputs that are all different, only there. (Two inputs at the
    alias are scaled to the halves that an output with a rival is filled with.) -/
theorem outputs_in_any_order {i o : ChannelMap} {f : Flags} (hf : f.noRemap = false) :
    (∀ σ, (build i (reorder o σ) f : Matrix Float32).lfeSynthesized = (build i o f : Matrix Float32).lfeSynthesized) ∧
      (f.Unordered i o → RowsFollow i o f) ∧ (i.Nodup → RowsFollow i o f → f.Unordered i o) := by
  refine ⟨fun σ => ?_, rowsFollow_of_unordered hf, fun hi h => ?_⟩
  · cases hremix : f.noRemix with
    | true => simp [build, rules, hf, hremix]
    | false =>
      simp only [build, rules, hf, hremix, Bool.false_eq_true, if_false]
      exact lfeSynthesized_perm (reorder_perm o σ) i f
  · cases hremix : f.noRemix with
    | true => exact .inl hremix
    | false =>
      refine .inr (List.pairwise_iff_getElem.mpr fun n m hn hm hnm => ⟨fun hr => ?_, fun hr => ?_⟩)
      · exact spared_of_rowsFollow hf hremix hi h (n := ⟨n, hn⟩) (m := ⟨m, hm⟩) (by simp; omega) hr
      · exact spared_of_rowsFollow hf hremix hi h (n := ⟨m, hm⟩) (m := ⟨n, hn⟩) (by simp; omega) hr

theorem outputs_in_any_order_sides : let o : ChannelMap := [.frontLeft, .frontRight, .sideLeft, .sideRight, .lfe]
    (∀ σ, (build (ChannelMap.layout 4) (reorder o σ) {} : Matrix Float32).lfeSynthesized =
      (build (ChannelMap.layout 4) o {} : Matrix Float32).lfeSynthesized) ∧
      RowsFollow (ChannelMap.layout 4) o {} ∧ Flags.Unordered {} (ChannelMap.layout 4) o := by
  intro o
  obtain ⟨hlfe, hrows, honly⟩ := outputs_in_any_order (i := ChannelMap.layout 4) (o := o) (f := {}) rfl
  have h := hrows (by decide +kernel)
  exact ⟨hlfe, h, honly (by decide) h⟩

/-- Side left borrows the rear left input if it comes first, and behind rear left gets a half of each input on its
    side. -/
theorem rows_of_swapped_surrounds : ¬RowsFollow [.rearLeft, .frontLeft] [.sideLeft, .rearLeft] {} := by
  intro h
  exact absurd (h (Equiv.swap ⟨0, by decide⟩ ⟨1, by decide⟩) ⟨0, by decide⟩) (by decide +kernel)

end Matrix

end PcmConvert
