/-
  PcmConvert.Proofs.Mix.Scaled — gains that stay apart when their row is scaled. Only inputs
  at positions with a name of their own feed a surround, and inputs that are all different
  are at most nineteen of them; so a row of gains of moderate size has a sum of moderate size
  (`total_within`), and scaling by it tells one from a ninth and less (`scaled_one_ne`). What
  an input that is left adds is such a part (`residual_within`), on the side of the output
  no more than a ninth (`residual_sideOf`).
-/

import PcmConvert.Proofs.Mix.Identity
import PcmConvert.Proofs.Mix.Rivals
import PcmConvert.Proofs.Number.Magnitude

namespace PcmConvert.Mix

open Number

/-! ## Scaling -/

theorem scaled_zero (row : List Float32) : scaled row 0 = 0 := by
  unfold scaled
  split
  · next h => exact zero_div h
  · rfl

/-- One stays apart from what is less than an eighth. -/
theorem scaled_one_ne {row : List Float32} (hrow : Gain.total row = 0 ∨ within (-60) 60 (Gain.total row) = true)
    {y : Float32} (hy : y = 0 ∨ within (-60) (-26) y = true) : scaled row 1 ≠ scaled row y := by
  unfold scaled
  split
  · next h =>
    rcases hrow with hz | hw
    · rw [hz] at h
      exact absurd h (by decide +kernel)
    · exact div_ne_div hw (by decide) (by decide) h hy
  · rcases hy with rfl | hy
    · decide +kernel
    · intro heq
      rw [← heq] at hy
      exact absurd hy (by decide +kernel)

/-! ## What is left -/

theorem mem_named {p : Position} (h : ∀ n, p ≠ .aux n) : p ∈ Position.named := by
  cases p with
  | aux n => exact absurd rfl (h n)
  | _ => decide

/-- A kind that no auxiliary position is of. -/
def Placed (kind : Position → Bool) : Prop := ∀ n, kind (.aux n) = false

theorem Placed.mem_named {kind : Position → Bool} (h : Placed kind) {p : Position} (hp : kind p = true) :
    p ∈ Position.named := by
  refine Mix.mem_named fun n hn => ?_
  rw [hn, h n] at hp
  cases hp

/-- Inputs that are all different are of such a kind at most nineteen times. -/
theorem Placed.count_le {kind : Position → Bool} (h : Placed kind) {ps : List Position} (hps : ps.Nodup) :
    count kind ps ≤ 19 :=
  ((hps.filter kind).subperm fun _ hp => h.mem_named (List.mem_filter.mp hp).2).length_le

variable {ps : List Position} {t : Position → Bool} {a b : Position}

/-- A part of what is left of a kind is no more than all of it. -/
theorem Placed.part_within {kind : Position → Bool} (h : Placed kind) (hps : ps.Nodup) (ha : a ∈ ps) (hta : t a = false)
    (hk : kind a = true) {hi : Int} (hhi : hi ≤ 60) {g : Float32} (hg : within (-30) hi g = true) :
    within (-60) (hi + 1) (g / Gain.ofNat (leftOver kind (sourcesAt ps t))) = true := by
  rw [leftOver_sourcesAt]
  have hpos : 0 < count kind (ps.filter (!t ·)) :=
    List.length_pos_of_mem (List.mem_filter.mpr ⟨List.mem_filter.mpr ⟨ha, by simp [hta]⟩, hk⟩)
  have hle := h.count_le (hps.filter (!t ·))
  exact within_mono (within_div hg (within_ofNat hpos (by omega)) (by decide) (by decide) (by decide) (by omega))
    (by decide) (by omega)

theorem ninth_within : within (-30) (-27) (Gain.ratio 1 9) = true := by decide +kernel

/-- An input that is left adds no more than a half, and no auxiliary one adds anything. -/
theorem residual_within (hps : ps.Nodup) (ha : a ∈ ps) {outputs : List Position} {f : Flags} {g : Float32}
    (h : residual outputs f (sourcesAt ps t) b ⟨a, t a⟩ = some g) :
    a ∈ Position.named ∧ within (-60) (-23) g = true := by
  have hpart {kind : Position → Bool} (hp : Placed kind) (hta : ¬t a = true) (hk : kind a = true) {g : Float32}
      (hg : within (-30) (-24) g = true) : a ∈ Position.named ∧
        within (-60) (-23) (g / Gain.ofNat (leftOver kind (sourcesAt ps t))) = true :=
    ⟨hp.mem_named hk, hp.part_within hps ha (Bool.eq_false_iff.mpr hta) hk (by decide) hg⟩
  have hninth : within (-30) (-24) (Gain.ratio 1 9) = true := within_mono ninth_within (Int.le_refl _) (by decide)
  unfold residual at h
  dsimp only at h
  split_ifs at h with hta hleft hright hcenter hlfe hspread
  all_goals cases h
  · exact hpart (fun _ => rfl) hta (Bool.and_eq_true_iff.mp hleft).1 hninth
  · exact hpart (fun _ => rfl) hta (Bool.and_eq_true_iff.mp hright).1 hninth
  · exact hpart (fun _ => rfl) hta (Bool.and_eq_true_iff.mp hcenter).1 hninth
  · exact hpart (fun _ => rfl) hta (Bool.and_eq_true_iff.mp (Bool.and_eq_true_iff.mp hlfe).1).1 (by decide +kernel)
  · obtain ⟨hcenter, hreach⟩ := Bool.and_eq_true_iff.mp hspread
    refine hpart (fun _ => rfl) hta ?_ (by decide +kernel)
    rw [(Bool.and_eq_true_iff.mp hcenter).1, hreach]
    rfl

theorem placed_sideOf (b : Position) : Placed (sideOf b) := by
  intro n
  unfold sideOf
  split <;> rfl

/-- On the side of the output it adds no more than a ninth. -/
theorem residual_sideOf {α : Type} [Gain α] (hb : sideOf b b = true) (ha : sideOf b a = true)
    (outputs : List Position) (f : Flags) (sources : List Source) :
    residual outputs f sources b ⟨a, false⟩ =
      some (Gain.ratio 1 9 / Gain.ofNat (leftOver (sideOf b) sources) : α) := by
  unfold residual
  dsimp only
  unfold sideOf at hb ha
  by_cases hl : b.isLeft = true
  · rw [if_pos hl] at ha
    simp [ha, hl, sideOf]
  · rw [if_neg hl] at hb ha
    simp [ha, hb, hl, sideOf]

/-! ## The row of a surround -/

variable {mono : MonoRoute Float32} {f : Flags} {outputs : List Position}

/-- At most nineteen inputs add something to the sum. -/
theorem total_within (hps : ps.Nodup) (hb : isNamed mono ps b = false) (ha : a ∈ ps) (hab : a.isAlias b = true) :
    Gain.total (rowGains mono f ps outputs untaken t b) = 0 ∨
      within (-60) 60 (Gain.total (rowGains mono f ps outputs untaken t b)) = true := by
  have hgain : ∀ x ∈ ps, gainOf mono f ps outputs untaken t b x = 0 ∨
      Position.named.contains x = true ∧ within (-60) (-23) (gainOf mono f ps outputs untaken t b x) = true := by
    intro x hx
    unfold gainOf
    cases hr : (residual outputs f (sourcesAt ps t) b ⟨x, t x⟩ : Option Float32) with
    | some g =>
      obtain ⟨hn, hw⟩ := residual_within hps hx hr
      exact .inr ⟨List.contains_iff_mem.mpr hn, hw⟩
    | none =>
      rw [Option.getD_none, link_of_untaken hb ha hab]
      by_cases hxb : x.isAlias b = true
      · rw [if_pos hxb]
        have hx' := (placed_sideOf b).mem_named (sideOf_of_isAlias hxb).1
        exact .inr ⟨List.contains_iff_mem.mpr hx', within_mono within_one (by decide) (by decide)⟩
      · rw [if_neg hxb]
        exact .inl rfl
  have hplaced : Placed Position.named.contains := fun _ => rfl
  have hcount : (ps.filter Position.named.contains).length ≤ 19 := hplaced.count_le hps
  have hbase : (-23 : Int) ≤ -23 := Int.le_refl _
  rcases foldl_within (by decide) hgain hbase (by omega) (.inl rfl) with h | h
  · exact .inl h
  · exact .inr (within_mono h (by decide) (by omega))

/-- A second input on the side of the output, if it is not spared for the number of them. -/
theorem exists_other (hps : ps.Nodup) (ha : a ∈ ps) (hside : sideOf b a = true) (h : count (sideOf b) ps ≠ 1) :
    ∃ x ∈ ps, sideOf b x = true ∧ x ≠ a := by
  by_contra hnone
  refine h (Nat.le_antisymm ?_ (List.length_pos_of_mem (List.mem_filter.mpr ⟨ha, hside⟩)))
  have hsub : ps.filter (sideOf b) ⊆ [a] := by
    intro x hx
    obtain ⟨hx, hxs⟩ := List.mem_filter.mp hx
    rw [List.mem_singleton]
    by_contra hxa
    exact hnone ⟨x, hx, hxs, hxa⟩
  exact ((hps.filter (sideOf b)).subperm hsub).length_le

/-- A second input on its side gives an output that borrows no more than a ninth. -/
theorem gainOf_within (hps : ps.Nodup) (hb : isNamed mono ps b = false) (ha : a ∈ ps) (hab : a.isAlias b = true)
    {x : Position} (hx : x ∈ ps) (hxs : sideOf b x = true) (hxa : x ≠ a) :
    gainOf mono f ps outputs untaken t b x = 0 ∨
      within (-60) (-26) (gainOf mono f ps outputs untaken t b x) = true := by
  cases htx : t x with
  | true =>
    rw [gainOf_of_taken _ _ _ _ _ _ htx, link_of_untaken hb ha hab, if_neg]
    · exact .inl rfl
    · intro hxb
      exact hxa (eq_of_isAlias hab hxb)
  | false =>
    unfold gainOf
    rw [htx, residual_sideOf (sideOf_of_isAlias hab).2.1 hxs]
    exact .inr ((placed_sideOf b).part_within hps hx htx hxs (by decide) ninth_within)

/-- An output whose alias is taken gets the row of one that comes first only if it is spared. -/
theorem spared_of_normalize_eq (hps : ps.Nodup) (hb : isNamed mono ps b = false) (ha : a ∈ ps)
    (hab : a.isAlias b = true) {outputs' : List Position} {t' t₂ t₂' : Position → Bool}
    (ht' : ∀ x, (link mono f ps untaken b x).isSome = true → t' x = true)
    (hta : t₂ a = true) (hta' : t₂' a = true) (ht₂' : ∀ x, (link mono f ps t₂ b x).isSome = true → t₂' x = true)
    (h : normalize (rowGains mono f ps outputs untaken t' b) = normalize (rowGains mono f ps outputs' t₂ t₂' b)) :
    spared f ps b = true := by
  have hside := (sideOf_of_isAlias hab).1
  have htotal : Gain.total (rowGains mono f ps outputs untaken t' b) = 0 ∨ _ := total_within hps hb ha hab
  have heq : ∀ x ∈ ps, scaled (rowGains mono f ps outputs untaken t' b) (gainOf mono f ps outputs untaken t' b x) =
      scaled (rowGains mono f ps outputs' t₂ t₂' b) (gainOf mono f ps outputs' t₂ t₂' b x) := by
    rw [normalize_eq_scaled, normalize_eq_scaled] at h
    simpa only [rowGains, List.map_map, List.map_inj_left, Function.comp_apply] using h
  have hown : gainOf mono f ps outputs untaken t' b a = 1 := gainOf_of_untaken hb ha hab ht'
  by_contra hs
  cases hfill : f.noFillSink with
  | true =>
    -- with its alias taken it is silent
    have hzero : gainOf mono f ps outputs' t₂ t₂' b a = 0 := by
      rw [gainOf_of_taken _ _ _ _ _ _ hta', link_of_taken hb hab hta, hfill]
      rfl
    refine scaled_one_ne htotal (.inl rfl) ?_
    rw [← hown, heq a ha, hzero, scaled_zero, scaled_zero]
  | false =>
    -- with its alias taken it gets the same of both inputs
    have hcount : count (sideOf b) ps ≠ 1 := by
      intro hone
      exact hs (by simp [spared, hfill, hone])
    obtain ⟨x, hx, hxs, hxa⟩ := exists_other hps ha hside hcount
    have hshare {y : Position} (hy : sideOf b y = true) :
        gainOf mono f ps outputs' t₂ t₂' b y = Gain.share (count (sideOf b) ps) := gainOf_share hb hab hta ht₂' hfill hy
    have hlow : gainOf mono f ps outputs untaken t' b x = 0 ∨ _ := gainOf_within hps hb ha hab hx hxs hxa
    refine scaled_one_ne htotal hlow ?_
    rw [← hown, heq a ha, hshare hside, ← hshare hxs, heq x hx]

end PcmConvert.Mix
